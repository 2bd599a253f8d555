/-
**Reading back what was written to a file.**

`vfs_write_node` of `kernel/fs/vfs.c` adds the offset and the count in 64 bits.  As long as the sum
does not wrap, a write leaves exactly what it should: the bytes where they belong, zeros between
the old end and them, the rest as it was.  A count that passes `uptr_ok` may still be so large that
the sum wraps to a small number; then no room is made, and the copy leaves the buffer of the node.

Main definitions:

* `VfsNode.Holds`, `VfsNode.byteAt` — the buffer of a node.

Main results:

* `written_grow`, `written_inside` — the two ways a write goes;
* `writeLaw_iff` — **the law holds exactly when the sum does not wrap, or the write is
  refused**;
* `holds_of_reachable` — every buffer is as long as its node says.
-/

import Tnu.Vfs.Tree
import Tnu.Sys.FileIo

set_option autoImplicit false

namespace Tnu.Vfs

def VfsNode.Holds (n : VfsNode) : Prop := (n.data.getD []).length = n.size

def VfsNode.byteAt (n : VfsNode) (i : ℕ) : Option Byte := (n.data.getD [])[i]?

theorem VfsNode.Holds.of_eq {a b : VfsNode} (h : a.Holds) (hdata : b.data = a.data)
    (hsize : b.size = a.size) : b.Holds := by
  rw [VfsNode.Holds, hdata, hsize]
  exact h

theorem VfsNode.Holds.oldBytes {n : VfsNode} (h : n.Holds) :
    n.oldBytes = some (n.data.getD []) := by
  rw [VfsNode.Holds] at h
  rw [VfsNode.oldBytes]
  split_ifs with h0
  · rw [List.length_eq_zero_iff.1 (h.trans h0)]
  · cases hd : n.data with
    | none =>
      rw [hd] at h
      exact absurd h.symm h0
    | some d =>
      rw [hd, Option.getD_some] at h
      rw [Option.bind_some, if_neg (by omega), Option.getD_some, ← h, List.take_length]

theorem blit_eq (d : List Byte) (offset : ℕ) (buf : List Byte)
    (h : offset + buf.length ≤ d.length) :
    ∃ d', blit d offset buf = some d' ∧ d'.length = d.length ∧
      (∀ i, i < buf.length → d'[offset + i]? = buf[i]?) ∧
      (∀ i, i < offset ∨ offset + buf.length ≤ i → d'[i]? = d[i]?) := by
  refine ⟨_, if_neg (by omega), ?_, fun i hi => ?_, fun i hi => ?_⟩
  · simp
    omega
  · have htake : (d.take offset).length = offset := by simp; omega
    rw [List.append_assoc, List.getElem?_append_right (by omega), htake, Nat.add_sub_cancel_left,
      List.getElem?_append_left hi]
  · have htake : (d.take offset).length = offset := by simp; omega
    rcases hi with hi | hi
    · rw [List.append_assoc, List.getElem?_append_left (by omega), List.getElem?_take_of_lt hi]
    · have hlen : (d.take offset ++ buf).length = offset + buf.length := by simp; omega
      rw [List.getElem?_append_right (by omega), List.getElem?_drop, hlen]
      congr 1
      omega

theorem length_of_blit {d buf d' : List Byte} {offset : ℕ} (h : blit d offset buf = some d') :
    d'.length = d.length := by
  rw [blit] at h
  split_ifs at h with hlt
  obtain ⟨d₁, hd₁, hlen, -⟩ := blit_eq d offset buf (not_lt.1 hlt)
  rw [blit, if_neg hlt] at hd₁
  rw [← hlen, Option.some.inj (h.symm.trans hd₁)]

theorem blit_eq_none {d buf : List Byte} {offset : ℕ} (h : d.length < offset + buf.length) :
    blit d offset buf = none := if_pos h

end Tnu.Vfs

namespace Tnu.Sys

open Tnu.Vfs

/-! ### What a write should do -/

/-- A node before and after a write. -/
structure Written (old new : VfsNode) (offset : ℕ) (buf : List Byte) : Prop where
  size : new.size = max old.size (offset + buf.length)
  holds : new.Holds
  /-- What was written is read back. -/
  read (ptr : ℕ) (hptr : ptr ≠ 0) :
    vfsReadNode new offset ptr buf.length = some ((buf.length : ℤ), buf)
  /-- What lies between the old end and the bytes is zero. -/
  gap (i : ℕ) (hi : old.size ≤ i) (hoff : i < offset) (hnew : i < new.size) :
    new.byteAt i = some 0
  /-- Nothing else changes. -/
  kept (i : ℕ) (hi : i < old.size) (hout : i < offset ∨ offset + buf.length ≤ i) :
    new.byteAt i = old.byteAt i

/-- A write has a result, no access leaves a buffer, and it does what it should or nothing. -/
structure WriteLaw (kmalloc : ℕ → Bool) (s : Pool) (node offset : ℕ) (buf : List Byte) : Prop where
  result : ∃ s' rc, vfsWriteNode kmalloc s node offset buf = some (s', rc) ∧
    (rc = -1 ∧ s'.nodes node = s.nodes node ∨
      rc = buf.length ∧ Written (s.nodes node) (s'.nodes node) offset buf) ∧
    ∀ m, m ≠ node → s'.nodes m = s.nodes m

/-- What `sys_lseek` leaves as an offset, and `sys_write` lets through as a buffer and a count. -/
def Passed (ptr offset count : ℕ) : Prop :=
  offset < 2 ^ 63 ∧ count < 2 ^ 64 ∧ (0 < count → uptrOk ptr count = true)

def lastOf (offset : ℕ) (buf : List Byte) : ℕ := (offset + buf.length) % 2 ^ 64

def RefusedRoom (kmalloc : ℕ → Bool) (n : VfsNode) (offset : ℕ) (buf : List Byte) : Prop :=
  (n.size < lastOf offset buf ∨ n.dataBorrowed = true) ∧
    kmalloc (max (lastOf offset buf) n.size + 1) = false

/-! ### One write -/

variable {k : Kmalloc} {s s' : Pool} {node offset : ℕ} {buf : List Byte}
  {n : VfsNode} {kmalloc : ℕ → Bool}

theorem vfsReadNode_eq (hn : n.Holds) (htype : n.type = .file)
    (hbytes : ∀ i, i < buf.length → n.byteAt (offset + i) = buf[i]?)
    (hle : buf.length ≠ 0 → offset + buf.length ≤ n.size) {ptr : ℕ} (hptr : ptr ≠ 0) :
    vfsReadNode n offset ptr buf.length = some ((buf.length : ℤ), buf) := by
  rw [vfsReadNode, if_neg (by simp [hptr, htype])]
  by_cases h0 : buf = []
  · subst h0
    by_cases hend : n.size ≤ offset
    · rw [if_pos hend]
      rfl
    · rw [if_neg hend]
      cases hd : n.data with
      | none =>
        rw [VfsNode.Holds, hd] at hn
        exact absurd hn.symm (by simp; omega)
      | some d =>
        rw [VfsNode.Holds, hd, Option.getD_some] at hn
        simp only [List.length_nil, Nat.zero_min, Nat.add_zero, Option.bind_some, List.take_zero]
        rw [if_neg (by omega)]
  · have hpos : 0 < buf.length := List.length_pos_iff.2 h0
    have hend := hle (by omega)
    rw [if_neg (by omega)]
    cases hd : n.data with
    | none =>
      rw [VfsNode.Holds, hd] at hn
      exact absurd hn.symm (by simp; omega)
    | some d =>
      rw [VfsNode.Holds, hd, Option.getD_some] at hn
      have hmin : min buf.length (n.size - offset) = buf.length := by omega
      simp only [hmin, Option.bind_some]
      rw [if_neg (by omega)]
      have hbuf : (d.drop offset).take buf.length = buf := by
        refine List.ext_getElem? fun i => ?_
        by_cases hi : i < buf.length
        · have hb := hbytes i hi
          rw [VfsNode.byteAt, hd, Option.getD_some] at hb
          rw [List.getElem?_take_of_lt hi, List.getElem?_drop, hb]
        · rw [List.getElem?_eq_none (by simp; omega), List.getElem?_eq_none (by omega)]
      rw [hbuf]

theorem written_grow (hn : n.Holds) (htype : n.type = .file) (clock : ℕ)
    {d : List Byte} (hd : blit (n.data.getD [] ++ List.replicate
      (max (offset + buf.length) n.size - n.size) 0) offset buf = some d) :
    Written n { n with data := some d, size := max (offset + buf.length) n.size,
                       dataBorrowed := false, modified := clock } offset buf := by
  have hlen : (n.data.getD []).length = n.size := hn
  have hfit : offset + buf.length ≤
      (n.data.getD [] ++ List.replicate (max (offset + buf.length) n.size - n.size)
        (0 : Byte)).length := by
    simp [hlen]
  obtain ⟨d', hd', hsame, hin, hout⟩ := blit_eq _ _ _ hfit
  obtain rfl : d' = d := Option.some.inj (hd'.symm.trans hd)
  have htotal : d'.length = max (offset + buf.length) n.size := by
    rw [hsame]
    simp [hlen]
  refine ⟨Nat.max_comm _ _, htotal, fun ptr hptr => ?_, fun i hi hoff hnew => ?_,
    fun i hi hi' => ?_⟩
  · exact vfsReadNode_eq (n := { n with
      data := some d', size := max (offset + buf.length) n.size, dataBorrowed := false,
      modified := clock }) htotal htype hin (fun _ => Nat.le_max_left _ _) hptr
  · refine (hout i (.inl hoff)).trans ?_
    rw [List.getElem?_append_right (by omega), List.getElem?_replicate, if_pos]
    simp only at hnew
    omega
  · refine (hout i hi').trans ?_
    rw [List.getElem?_append_left (by omega)]
    rfl

theorem written_inside (hn : n.Holds) (htype : n.type = .file) (clock : ℕ)
    {d d' : List Byte} (hdata : n.data = some d) (hle : offset + buf.length ≤ n.size)
    (hd : blit d offset buf = some d') :
    Written n { n with data := some d', modified := clock } offset buf := by
  rw [VfsNode.Holds, hdata, Option.getD_some] at hn
  obtain ⟨d'', hd'', hsame, hin, hout⟩ := blit_eq d offset buf (by omega)
  obtain rfl : d'' = d' := Option.some.inj (hd''.symm.trans hd)
  have htotal : d''.length = n.size := by omega
  have hgap : ∀ i, n.size ≤ i → ¬i < offset := fun i hi hoff => by omega
  refine ⟨(Nat.max_eq_left hle).symm, htotal, fun ptr hptr => ?_,
    fun i hi hoff _ => absurd hoff (hgap i hi), fun i hi hi' => ?_⟩
  · exact vfsReadNode_eq (n := { n with data := some d'', modified := clock }) htotal htype hin
      (fun _ => hle) hptr
  · refine (hout i hi').trans ?_
    rw [VfsNode.byteAt, hdata]
    rfl

theorem written_nothing (hn : n.Holds) (htype : n.type = .file) (clock : ℕ)
    (hle : offset ≤ n.size) : Written n { n with modified := clock } offset [] := by
  refine ⟨(Nat.max_eq_left (by simpa using hle)).symm, hn, fun ptr hptr => ?_,
    fun i hi hoff _ => absurd hoff (by omega), fun i hi _ => rfl⟩
  exact vfsReadNode_eq (n := { n with modified := clock }) hn htype (by simp) (by simp) hptr

theorem nodes_touch_modifyNode (s : Pool) (node m : ℕ) (f : VfsNode → VfsNode) :
    ((s.modifyNode node f).touch node).nodes m =
      if m = node then { f (s.nodes node) with modified := s.clock + 1 } else s.nodes m := by
  rw [Pool.nodes_touch]
  split_ifs with hm
  · rw [Pool.nodes_modifyNode_self]
    rfl
  · rw [Pool.nodes_modifyNode_of_ne _ _ hm]

/-- **A write whose end does not wrap keeps the law.** -/
theorem writeLaw_of_lt (htype : (s.nodes node).type = .file) (hn : (s.nodes node).Holds)
    (hfit : offset + buf.length < 2 ^ 64) : WriteLaw k.grants s node offset buf := by
  have hlast : (offset + buf.length) % 2 ^ 64 = offset + buf.length := Nat.mod_eq_of_lt hfit
  refine ⟨?_⟩
  rw [vfsWriteNode]
  simp only [htype, ne_eq, not_true_eq_false, if_false, hlast]
  by_cases hgrow : (s.nodes node).size < offset + buf.length ∨ (s.nodes node).dataBorrowed = true
  · rw [if_pos hgrow]
    by_cases hmem : k.grants (max (offset + buf.length) (s.nodes node).size + 1) = false
    · rw [if_pos hmem]
      exact ⟨s, -1, rfl, .inl ⟨rfl, rfl⟩, fun _ _ => rfl⟩
    · rw [if_neg hmem, hn.oldBytes, Option.bind_some]
      have hlen : ((s.nodes node).data.getD []).length = (s.nodes node).size := hn
      obtain ⟨d, hd, -⟩ := blit_eq ((s.nodes node).data.getD [] ++ List.replicate
        (max (offset + buf.length) (s.nodes node).size - (s.nodes node).size) 0) offset buf
        (by simp [hlen])
      rw [hd, Option.map_some]
      refine ⟨_, _, rfl, .inr ⟨rfl, ?_⟩, fun m hm => ?_⟩
      · rw [nodes_touch_modifyNode, if_pos rfl]
        exact written_grow hn htype _ hd
      · rw [nodes_touch_modifyNode, if_neg hm]
  · rw [if_neg hgrow]
    rw [not_or, not_lt] at hgrow
    by_cases h0 : buf = []
    · subst h0
      rw [if_pos rfl]
      refine ⟨_, _, rfl, .inr ⟨rfl, ?_⟩, fun m hm => ?_⟩
      · rw [Pool.nodes_touch, if_pos rfl]
        exact written_nothing hn htype _ (by simpa using hgrow.1)
      · rw [Pool.nodes_touch, if_neg hm]
    · rw [if_neg h0]
      have hpos : 0 < buf.length := List.length_pos_iff.2 h0
      cases hdata : (s.nodes node).data with
      | none =>
        rw [VfsNode.Holds, hdata] at hn
        have hzero : (s.nodes node).size = 0 := hn.symm
        omega
      | some d =>
        have hlen : d.length = (s.nodes node).size := by
          rw [VfsNode.Holds, hdata] at hn
          exact hn
        obtain ⟨d', hd', -⟩ := blit_eq d offset buf (by omega)
        rw [Option.bind_some, hd', Option.map_some]
        refine ⟨_, _, rfl, .inr ⟨rfl, ?_⟩, fun m hm => ?_⟩
        · rw [nodes_touch_modifyNode, if_pos rfl]
          exact written_inside hn htype _ hdata hgrow.1 hd'
        · rw [nodes_touch_modifyNode, if_neg hm]

theorem vfsWriteNode_wrapped (htype : (s.nodes node).type = .file)
    (hn : (s.nodes node).Holds) (hsize : (s.nodes node).size < 2 ^ 64)
    (hwrap : 2 ^ 64 ≤ offset + buf.length) (hoff : offset < 2 ^ 64)
    (hrefused : ¬RefusedRoom kmalloc (s.nodes node) offset buf) :
    vfsWriteNode kmalloc s node offset buf = none := by
  have hlength : ((s.nodes node).data.getD []).length = (s.nodes node).size := hn
  rw [RefusedRoom, not_and, lastOf] at hrefused
  rw [vfsWriteNode]
  simp only [htype, ne_eq, not_true_eq_false, if_false]
  by_cases hgrow : (s.nodes node).size < (offset + buf.length) % 2 ^ 64 ∨
      (s.nodes node).dataBorrowed = true
  · rw [if_pos hgrow, if_neg (hrefused hgrow), hn.oldBytes, Option.bind_some, blit_eq_none]
    · rfl
    · rw [List.length_append, List.length_replicate, hlength]
      omega
  · have h0 : buf ≠ [] := fun h => by
      rw [h, List.length_nil] at hwrap
      omega
    rw [if_neg hgrow, if_neg h0]
    cases hdata : (s.nodes node).data with
    | none => rfl
    | some d =>
      rw [hdata, Option.getD_some] at hlength
      rw [Option.bind_some, blit_eq_none (by omega)]
      rfl

theorem writeLaw_of_refused (htype : (s.nodes node).type = .file)
    (h : RefusedRoom kmalloc (s.nodes node) offset buf) : WriteLaw kmalloc s node offset buf := by
  obtain ⟨hgrow, hmem⟩ := h
  rw [lastOf] at hgrow hmem
  refine ⟨s, -1, ?_, .inl ⟨rfl, rfl⟩, fun _ _ => rfl⟩
  rw [vfsWriteNode]
  simp only [htype, ne_eq, not_true_eq_false, if_false]
  rw [if_pos hgrow, if_pos hmem]

/-! ### Every buffer holds what its node says -/

theorem nodeLaw_holds : NodeLaw VfsNode.Holds := fun h _ hsize hdata => h.of_eq hdata hsize

theorem holds_set (a : VfsNode) (data : List Byte) :
    VfsNode.Holds { a with data := if data = [] then none else some data, dataBorrowed := false
                           size := data.length } := by
  by_cases hd : data = []
  · simp [VfsNode.Holds, hd]
  · simp [VfsNode.Holds, hd]

theorem holds_vfsWriteNode (h : ∀ n, (s.nodes n).Holds) {rc : ℤ}
    (hw : vfsWriteNode kmalloc s node offset buf = some (s', rc)) (n : ℕ) :
    (s'.nodes n).Holds := by
  have hlen : ((s.nodes node).data.getD []).length = (s.nodes node).size := h node
  unfold vfsWriteNode at hw
  simp only at hw
  split_ifs at hw with htype hgrow hmem hbuf
  · obtain rfl := (Prod.mk.inj (Option.some.inj hw)).1
    exact h n
  · obtain rfl := (Prod.mk.inj (Option.some.inj hw)).1
    exact h n
  · rw [(h node).oldBytes, Option.bind_some] at hw
    obtain ⟨d, hd, hw⟩ := Option.map_eq_some_iff.1 hw
    obtain rfl := (Prod.mk.inj hw).1
    refine nodeLaw_holds.touch (modifyNode_keeps h ?_) node n
    have hsame := length_of_blit hd
    rw [List.length_append, List.length_replicate, hlen] at hsame
    rw [VfsNode.Holds, Option.getD_some]
    dsimp only
    omega
  · obtain rfl := (Prod.mk.inj (Option.some.inj hw)).1
    exact nodeLaw_holds.touch h node n
  · obtain ⟨d, hdata, hw⟩ := Option.bind_eq_some_iff.1 hw
    obtain ⟨d', hd', hw⟩ := Option.map_eq_some_iff.1 hw
    obtain rfl := (Prod.mk.inj hw).1
    rw [hdata, Option.getD_some] at hlen
    refine nodeLaw_holds.touch (modifyNode_keeps h ?_) node n
    rw [VfsNode.Holds, Option.getD_some, length_of_blit hd', hlen]

/-- **One operation keeps every buffer as long as its node says.** -/
theorem holds_of_step (h : ∀ n, (s.nodes n).Holds) (hs : Wf s) {op : VfsOp}
    (hstep : step s op = some s') : ∀ n, (s'.nodes n).Holds :=
  nodeLaw_holds.of_step h hs (fun _ _ _ _ _ _ _ => rfl) (fun _ _ => holds_set _ _)
    (fun h hw => holds_vfsWriteNode h hw) hstep

/-- **Every buffer of a reachable pool holds what its node says.** -/
theorem holds_of_reachable (h : Reachable s) : ∀ n, (s.nodes n).Holds := by
  induction h with
  | init =>
    exact (vfsInit_induction (P := fun s => ∀ n, (s.nodes n).Holds) (fun _ => rfl)
      fun s path mode h0 hs h => nodeLaw_holds.vfsMake h hs (fun _ _ => rfl) h0 (by decide)).2
  | step op hreach hstep ih => exact holds_of_step ih (wf_of_reachable hreach) hstep

theorem holds_of_reachable_init : (vfsInit.nodes 0).Holds := holds_of_reachable .init 0

/-! ### When the law holds -/

theorem passed_of_sysLseek {t t' : Kernel} {fd move whence rc : ℤ} {b : UserBuf}
    (h : sysLseek t fd move whence = some (t', rc)) (h0 : 0 ≤ rc) (hlen : b.bytes.length < 2 ^ 64)
    (hptr : ¬(0 < b.bytes.length ∧ uptrOk b.ptr b.bytes.length = false)) :
    Passed b.ptr (t'.proc.fds fd.toNat).offset b.bytes.length := by
  refine ⟨?_, hlen, fun hpos => by simpa [hpos] using hptr⟩
  rw [sysLseek] at h
  cases hf : processGetFd t.proc fd with
  | none =>
    simp only [hf, Option.some.injEq, Prod.mk.injEq] at h
    omega
  | some f =>
    simp only [hf] at h
    obtain ⟨base, -, h⟩ := Option.bind_eq_some_iff.1 h
    cases base with
    | none =>
      simp only [Option.some.injEq, Prod.mk.injEq] at h
      omega
    | some base =>
      simp only at h
      split_ifs at h with hover hneg
      · simp only [Option.some.injEq, Prod.mk.injEq] at h
        omega
      · obtain ⟨rfl, rfl⟩ := Prod.mk.inj (Option.some.inj h)
        rw [Kernel.setFd_fds_self]
        dsimp only
        omega

/-- **A write and a read keep the law exactly when the end of the write does not wrap**, or no
memory is found for the end it wraps to. -/
theorem writeLaw_iff {k : Kmalloc} {s : Pool} {node offset : ℕ} {buf : List Byte}
    (htype : (s.nodes node).type = .file) (hn : (s.nodes node).Holds)
    (hsize : (s.nodes node).size < 2 ^ 64) (hoff : offset < 2 ^ 64) :
    WriteLaw k.grants s node offset buf ↔
      offset + buf.length < 2 ^ 64 ∨ RefusedRoom k.grants (s.nodes node) offset buf := by
  constructor
  · rintro ⟨s', rc, heq, -⟩
    by_contra hno
    rw [not_or, not_lt] at hno
    rw [vfsWriteNode_wrapped htype hn hsize hno.1 hoff hno.2] at heq
    exact absurd heq (by simp)
  · rintro (hfit | hrefused)
    · exact writeLaw_of_lt htype hn hfit
    · exact writeLaw_of_refused htype hrefused

def oneByte : Pool where
  nodes _ := { freshNode 1 (lit "f") .file (vfsSIfreg ||| 0o644) 0 0 with
    size := 1, data := some [120] }
  nodeCount := 1
  clock := 1

theorem writeLaw_iff_oneByte :
    WriteLaw (fun n => n ≤ 100) oneByte 0 5 [65, 66] ↔
      5 + [(65 : Byte), 66].length < 2 ^ 64 ∨
        RefusedRoom (fun n => n ≤ 100) (oneByte.nodes 0) 5 [65, 66] :=
  writeLaw_iff (k := ⟨fun n => n ≤ 100, fun n hn => by
    rw [decide_eq_true_eq] at hn
    exact hn.trans (by norm_num)⟩) rfl rfl (by norm_num [oneByte]) (by norm_num)

/-- **A count close to `2 ^ 64` passes the checks and makes no room**: with a seek to byte 4097 of a
file of one byte, and the lowest address a program may pass, the end wraps to zero. -/
theorem not_writeLaw : ¬∀ (k : Kmalloc) (s : Pool) (node ptr offset : ℕ) (buf : List Byte),
    (s.nodes node).type = .file → (s.nodes node).Holds → (s.nodes node).size < 2 ^ 64 →
      Passed ptr offset buf.length → WriteLaw k.grants s node offset buf := by
  intro h
  have hlen : (List.replicate (2 ^ 64 - 4097) (0 : Byte)).length = 2 ^ 64 - 4097 :=
    List.length_replicate
  have hpassed : Passed 0x1000 4097 (List.replicate (2 ^ 64 - 4097) (0 : Byte)).length := by
    rw [hlen]
    refine ⟨by norm_num, by norm_num, fun _ => by decide⟩
  obtain ⟨s', rc, heq, -⟩ := h ⟨fun _ => false, by simp⟩ oneByte 0 0x1000 4097 _ rfl rfl
    (by norm_num [oneByte]) hpassed
  have hrefused : ¬RefusedRoom (fun _ => false) (oneByte.nodes 0) 4097
      (List.replicate (2 ^ 64 - 4097) (0 : Byte)) := by
    rw [RefusedRoom, lastOf, hlen]
    simp [oneByte, freshNode]
  have hholds : (oneByte.nodes 0).Holds := rfl
  have hnone : vfsWriteNode (fun _ => false) oneByte 0 4097
      (List.replicate (2 ^ 64 - 4097) (0 : Byte)) = none :=
    vfsWriteNode_wrapped rfl hholds (by norm_num [oneByte]) (by rw [hlen]; norm_num)
      (by norm_num) hrefused
  exact absurd (hnone.symm.trans heq) (by simp)

end Tnu.Sys
