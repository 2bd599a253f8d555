/-
**Frames: who has which, and which may be handed out.**

A pool that does not reach the last page of the address space and does not start at zero is handed
out page by page, and every page is at any time either on the stack, in use, dropped by a full stack,
or still behind the cursor.  Which pages a pool has is said in `Tnu/Mm/Pool.lean`.

Main results:

* `accounted_iff` — **the counters are right in every run exactly when the region fits**;
* `framesSafe_iff` — **every frame handed out may be, exactly when the map can be walked, the
  region fits and its pages may be handed out**.
-/

import Tnu.Mm.Pool

set_option autoImplicit false

namespace Tnu.Mm

variable {k : KernelImage} {boot : BootInfo} {t : MmapTag} {s e top c l : ℕ}

/-! ### Runs -/

/-- A call of the allocator. -/
inductive FrameOp
  | alloc
  | free (frame : ℕ)

/-- The allocator, and the frames that are allocated. -/
structure FrameRun where
  pmm : Pmm
  live : List ℕ

def FrameRun.step (r : FrameRun) : FrameOp → FrameRun
  | .alloc =>
    let (frame, p) := pmmAllocFrame r.pmm
    ⟨p, if frame = 0 then r.live else frame :: r.live⟩
  | .free frame => ⟨pmmFreeFrame r.pmm frame, r.live.erase frame⟩

def FrameRun.Valid (r : FrameRun) : FrameOp → Prop
  | .alloc => True
  | .free frame => frame ∈ r.live

/-- The states of a run of valid calls. -/
inductive FrameRun.Reached (p : Pmm) : FrameRun → Prop
  | init : Reached p ⟨p, []⟩
  | step {r : FrameRun} (op : FrameOp) (hr : Reached p r) (hv : r.Valid op) : Reached p (r.step op)

/-- The state after `n` more calls of `pmm_alloc_frame`. -/
def allocs : ℕ → Pmm → Pmm
  | 0, p => p
  | n + 1, p => allocs n (pmmAllocFrame p).2

/-- What the `n`-th call from here on returns. -/
def nthFrame (n : ℕ) (p : Pmm) : ℕ := (pmmAllocFrame (allocs n p)).1

theorem nthFrame_zero (p : Pmm) : nthFrame 0 p = (pmmAllocFrame p).1 := rfl

theorem nthFrame_succ (n : ℕ) (p : Pmm) : nthFrame (n + 1) p = nthFrame n (pmmAllocFrame p).2 := rfl

/-- No allocated frame is returned, the two counters add up to the size of the pool, and the second
one is the number of further calls that succeed. -/
structure FrameRun.Accounted (p : Pmm) (r : FrameRun) : Prop where
  fresh : (pmmAllocFrame r.pmm).1 ≠ 0 → (pmmAllocFrame r.pmm).1 ∉ r.live
  total : r.pmm.stats.allocatedFrames + r.pmm.stats.freeFramesEstimate =
    (p.frameLimit - p.frameCursor) / 4096
  estimate : ∀ n, nthFrame n r.pmm ≠ 0 ↔ n < r.pmm.stats.freeFramesEstimate

/-! ### The invariant -/

def Behind (c cursor f : ℕ) : Prop := c ≤ f ∧ f < cursor ∧ 4096 ∣ f

/-- Where the frames of the pool are, and what the counters say of them. -/
structure FrameInv (c l : ℕ) (r : FrameRun) : Prop where
  limit : r.pmm.frameLimit = l
  dvd : 4096 ∣ r.pmm.frameCursor
  ge : c ≤ r.pmm.frameCursor
  le : r.pmm.frameCursor ≤ l
  behind : ∀ f ∈ r.pmm.freeStack ++ r.live, Behind c r.pmm.frameCursor f
  nodup : (r.pmm.freeStack ++ r.live).Nodup
  allocated : r.pmm.stats.allocatedFrames + r.pmm.freeStack.length = (r.pmm.frameCursor - c) / 4096
  estimate : r.pmm.stats.freeFramesEstimate =
    r.pmm.freeStack.length + (l - r.pmm.frameCursor) / 4096

variable {r : FrameRun} {p : Pmm}

theorem Fresh.frameInv (hf : Fresh p c l) (hs : PoolShape c l) : FrameInv c l ⟨p, []⟩ := by
  refine ⟨hf.limit, ?_, ?_, ?_, ?_, ?_, ?_, ?_⟩
  all_goals simp only [hf.cursor, hf.stack, hf.allocated, hf.estimate]
  · exact hs.dvd_cursor
  · exact le_rfl
  · exact hs.le
  · simp
  · simp
  · simp
  · simp

variable {a b f cursor : ℕ}

theorem length_le_of_behind {L : List ℕ} (hc : 4096 ∣ c) (hd : 4096 ∣ cursor)
    (hb : ∀ f ∈ L, Behind c cursor f) (hn : L.Nodup) : L.length ≤ (cursor - c) / 4096 := by
  have hsub : L.map (fun f => (f - c) / 4096) ⊆ List.range ((cursor - c) / 4096) := by
    intro i hi
    obtain ⟨f, hf, rfl⟩ := List.mem_map.1 hi
    obtain ⟨h₁, h₂, h₃⟩ := hb f hf
    rw [List.mem_range]
    omega
  have hinj : (L.map fun f => (f - c) / 4096).Nodup := by
    refine (List.nodup_map_iff_inj_on hn).2 fun f hf g hg heq => ?_
    obtain ⟨h₁, -, h₃⟩ := hb f hf
    obtain ⟨h₄, -, h₅⟩ := hb g hg
    omega
  simpa using (hinj.subperm hsub).length_le

theorem estimate_taken (st : MemoryStats) (he : st.freeFramesEstimate ≠ 0) :
    st.taken.freeFramesEstimate + 1 = st.freeFramesEstimate := by
  simp only [MemoryStats.taken, if_pos he]
  omega

theorem FrameInv.pop (hi : FrameInv c l r) (hu : PoolUsable c l) {rest : List ℕ}
    (hstack : r.pmm.freeStack = f :: rest) :
    f ≠ 0 ∧ f ∉ r.live ∧
      FrameInv c l ⟨{ r.pmm with stats := r.pmm.stats.taken, freeStack := rest }, f :: r.live⟩ := by
  have hnodup := hi.nodup
  have hbehind := hi.behind
  have hest := hi.estimate
  have halloc := hi.allocated
  rw [hstack] at hnodup hbehind hest halloc
  rw [List.length_cons] at hest halloc
  rw [List.cons_append, List.nodup_cons] at hnodup
  have hf := hbehind f (by simp)
  refine ⟨?_, fun h => hnodup.1 (List.mem_append_right _ h), ?_⟩
  · rintro rfl
    have := hu.pos (by have := hf.1; omega)
    have := hf.2.1
    have := hi.le
    omega
  · refine ⟨hi.limit, hi.dvd, hi.ge, hi.le, fun g hg => hbehind g (List.perm_middle.mem_iff.1 hg),
      List.perm_middle.nodup_iff.2 (List.nodup_cons.2 hnodup), ?_, ?_⟩
    · simp only [MemoryStats.taken]
      omega
    · have := estimate_taken r.pmm.stats (by omega)
      dsimp only
      omega

theorem FrameInv.bump (hi : FrameInv c l r) (hu : PoolUsable c l) (hstack : r.pmm.freeStack = [])
    (hroom : r.pmm.frameCursor + 4096 ≤ l) :
    r.pmm.frameCursor ≠ 0 ∧ r.pmm.frameCursor ∉ r.live ∧
      FrameInv c l ⟨{ r.pmm with
        stats := r.pmm.stats.taken, frameCursor := r.pmm.frameCursor + 4096 },
        r.pmm.frameCursor :: r.live⟩ := by
  have hd := hi.dvd
  have hge := hi.ge
  have hnodup := hi.nodup
  have hbehind := hi.behind
  have hest := hi.estimate
  have halloc := hi.allocated
  rw [hstack, List.nil_append] at hnodup hbehind
  rw [hstack, List.length_nil] at hest halloc
  have hlive : r.pmm.frameCursor ∉ r.live := fun h => by
    have := (hbehind _ h).2.1
    omega
  refine ⟨fun h0 => ?_, hlive, hi.limit, ?_, ?_, hroom, ?_, ?_, ?_, ?_⟩
  · have := hu.pos (by omega)
    omega
  · dsimp only
    omega
  · dsimp only
    omega
  · dsimp only
    rw [hstack, List.nil_append]
    refine List.forall_mem_cons.2 ⟨⟨hge, by omega, hd⟩, fun g hg => ?_⟩
    obtain ⟨h₁, h₂, h₃⟩ := hbehind g hg
    exact ⟨h₁, by omega, h₃⟩
  · dsimp only
    rw [hstack, List.nil_append]
    exact List.nodup_cons.2 ⟨hlive, hnodup⟩
  · simp only [hstack, MemoryStats.taken, List.length_nil]
    omega
  · have := estimate_taken r.pmm.stats (by omega)
    simp only [hstack, List.length_nil]
    omega

theorem FrameInv.cursor_add (hi : FrameInv c l r) (hu : PoolUsable c l) :
    (r.pmm.frameCursor + pageSize) % word = r.pmm.frameCursor + 4096 := by
  have hlast : lastPage = 0xfffffffffffff000 := rfl
  have hle := hu.le_lastPage
  have hne := hu.ne_lastPage
  have hcl := hi.le
  have hdl := hu.dvd_limit
  have hd := hi.dvd
  rw [word_eq, show pageSize = 4096 from rfl]
  omega

/-- **A frame is taken**, as long as the second counter is not zero. -/
theorem FrameInv.alloc (hi : FrameInv c l r) (hu : PoolUsable c l)
    (he : r.pmm.stats.freeFramesEstimate ≠ 0) :
    ∃ f q, pmmAllocFrame r.pmm = (f, q) ∧ f ≠ 0 ∧ f ∉ r.live ∧ FrameInv c l ⟨q, f :: r.live⟩ ∧
      q.stats.freeFramesEstimate + 1 = r.pmm.stats.freeFramesEstimate := by
  rw [pmmAllocFrame]
  cases hstack : r.pmm.freeStack with
  | cons f rest =>
    obtain ⟨hf0, hlive, hinv⟩ := hi.pop hu hstack
    exact ⟨f, _, rfl, hf0, hlive, hinv, estimate_taken _ he⟩
  | nil =>
    have hest := hi.estimate
    rw [hstack, List.length_nil] at hest
    have hroom : r.pmm.frameCursor + 4096 ≤ l := by
      have := hi.le
      omega
    obtain ⟨hf0, hlive, hinv⟩ := hi.bump hu hstack hroom
    dsimp only
    rw [hi.cursor_add hu, if_neg (by rw [hi.limit]; omega)]
    dsimp only at hinv
    rw [hstack] at hinv
    exact ⟨_, _, rfl, hf0, hlive, hinv, estimate_taken _ he⟩

theorem FrameInv.alloc_zero (hi : FrameInv c l r) (hu : PoolUsable c l)
    (he : r.pmm.stats.freeFramesEstimate = 0) : pmmAllocFrame r.pmm = (0, r.pmm) := by
  have hcl := hi.le
  have hest := hi.estimate
  rw [he] at hest
  have hstack : r.pmm.freeStack = [] := List.length_eq_zero_iff.1 (by omega)
  rw [pmmAllocFrame, hstack]
  dsimp only
  have hdl := hu.dvd_limit
  have hd := hi.dvd
  rw [hi.cursor_add hu, hi.limit, if_pos (by omega)]

theorem FrameInv.free (hi : FrameInv c l r) (hu : PoolUsable c l) (hf : f ∈ r.live) :
    FrameInv c l (r.step (.free f)) := by
  have hb := hi.behind f (List.mem_append_right _ hf)
  have hf0 : f ≠ 0 := by
    rintro rfl
    have := hu.pos (by have := hb.1; omega)
    have := hb.2.1
    have := hi.le
    omega
  have hdvd : ¬(f = 0 ∨ f % pageSize ≠ 0) := by
    have := hb.2.2
    rw [show pageSize = 4096 from rfl]
    omega
  have hlen := length_le_of_behind hu.dvd_cursor hi.dvd hi.behind hi.nodup
  have hpos : 0 < r.live.length := List.length_pos_of_mem hf
  rw [List.length_append, ← hi.allocated] at hlen
  rw [FrameRun.step, pmmFreeFrame, if_neg hdvd]
  by_cases hfull : pmmFreeStackMax ≤ r.pmm.freeStack.length
  · rw [if_pos hfull]
    have hsub : (r.pmm.freeStack ++ r.live.erase f).Sublist (r.pmm.freeStack ++ r.live) :=
      List.erase_sublist.append_left _
    exact ⟨hi.limit, hi.dvd, hi.ge, hi.le, fun g hg => hi.behind g (hsub.subset hg),
      hi.nodup.sublist hsub, hi.allocated, hi.estimate⟩
  · rw [if_neg hfull]
    have hperm : (f :: r.pmm.freeStack ++ r.live.erase f).Perm (r.pmm.freeStack ++ r.live) :=
      List.perm_middle.symm.trans ((List.perm_cons_erase hf).symm.append_left _)
    refine ⟨hi.limit, hi.dvd, hi.ge, hi.le, fun g hg => hi.behind g (hperm.mem_iff.1 hg),
      hperm.nodup_iff.2 hi.nodup, ?_, ?_⟩
    · have := hi.allocated
      dsimp only
      rw [if_pos (by omega), List.length_cons]
      omega
    · have := hi.estimate
      dsimp only
      rw [List.length_cons]
      omega

/-- **One call keeps the invariant.** -/
theorem FrameInv.step (hi : FrameInv c l r) (hu : PoolUsable c l) {op : FrameOp}
    (hv : r.Valid op) : FrameInv c l (r.step op) := by
  cases op with
  | alloc =>
    rw [FrameRun.step]
    by_cases he : r.pmm.stats.freeFramesEstimate = 0
    · rw [hi.alloc_zero hu he]
      exact hi
    · obtain ⟨f, q, heq, hf0, -, hinv, -⟩ := hi.alloc hu he
      rw [heq]
      dsimp only
      rw [if_neg hf0]
      exact hinv
  | free f => exact hi.free hu hv

theorem FrameInv.of_reached (hf : Fresh p c l) (hu : PoolUsable c l)
    (hr : FrameRun.Reached p r) : FrameInv c l r := by
  induction hr with
  | init => exact hf.frameInv hu.toPoolShape
  | step op _ hv ih => exact ih.step hu hv

theorem FrameInv.nthFrame_iff (hi : FrameInv c l r) (hu : PoolUsable c l) (n : ℕ) :
    nthFrame n r.pmm ≠ 0 ↔ n < r.pmm.stats.freeFramesEstimate := by
  induction n generalizing r with
  | zero =>
    rw [nthFrame_zero]
    by_cases he : r.pmm.stats.freeFramesEstimate = 0
    · rw [hi.alloc_zero hu he]
      omega
    · obtain ⟨f, q, heq, hf0, -⟩ := hi.alloc hu he
      rw [heq]
      exact iff_of_true hf0 (by omega)
  | succ n ih =>
    rw [nthFrame_succ]
    by_cases he : r.pmm.stats.freeFramesEstimate = 0
    · have := ih hi
      rw [hi.alloc_zero hu he]
      dsimp only
      omega
    · obtain ⟨f, q, heq, -, -, hinv, hest⟩ := hi.alloc hu he
      have := ih hinv
      rw [heq]
      dsimp only at this ⊢
      omega

/-- **The counters are right** in every state of every run. -/
theorem FrameInv.accounted (hi : FrameInv c l r) (hu : PoolUsable c l) (hf : Fresh p c l) :
    r.Accounted p := by
  refine ⟨fun h0 => ?_, ?_, hi.nthFrame_iff hu⟩
  · by_cases he : r.pmm.stats.freeFramesEstimate = 0
    · rw [hi.alloc_zero hu he] at h0
      exact absurd rfl h0
    · obtain ⟨f, q, heq, -, hlive, -⟩ := hi.alloc hu he
      rw [heq]
      exact hlive
  · have h₁ := hi.allocated
    have h₂ := hi.estimate
    have h₃ := hi.ge
    have h₄ := hi.le
    have h₅ := hi.dvd
    have h₆ := hu.dvd_cursor
    have h₇ := hu.dvd_limit
    rw [hf.limit, hf.cursor]
    omega

/-! ### Pools that cannot be handed out -/

theorem allocs_succ (n : ℕ) (p : Pmm) : allocs (n + 1) p = (pmmAllocFrame (allocs n p)).2 := by
  induction n generalizing p with
  | zero => rfl
  | succ n ih => rw [allocs, ih, allocs]

theorem pmmAllocFrame_of_nil {next : ℕ} (hs : p.freeStack = [])
    (hc : p.frameCursor = cursor) (hnext : (cursor + pageSize) % word = next)
    (hroom : next ≤ p.frameLimit) :
    pmmAllocFrame p = (cursor, { p with stats := p.stats.taken, frameCursor := next }) := by
  rw [pmmAllocFrame, hs]
  dsimp only
  rw [hc, hnext, if_neg (not_lt.2 hroom)]

theorem Fresh.allocs_eq (hf : Fresh p c l) (hl : l ≤ lastPage) (n : ℕ) (hn : c + 4096 * n ≤ l) :
    (allocs n p).frameCursor = c + 4096 * n ∧ (allocs n p).frameLimit = l ∧
      (allocs n p).freeStack = [] := by
  have hlast : lastPage = 0xfffffffffffff000 := rfl
  induction n with
  | zero => exact ⟨hf.cursor, hf.limit, hf.stack⟩
  | succ n ih =>
    obtain ⟨hcursor, hlimit, hstack⟩ := ih (by omega)
    have hmod : (c + 4096 * n + pageSize) % word = c + 4096 * (n + 1) := by
      rw [word_eq, show pageSize = 4096 from rfl]
      omega
    rw [allocs_succ, pmmAllocFrame_of_nil hstack hcursor hmod (by omega)]
    exact ⟨rfl, hlimit, hstack⟩

theorem Fresh.nthFrame_eq (hf : Fresh p c l) (hl : l ≤ lastPage) {n : ℕ}
    (hn : c + 4096 * (n + 1) ≤ l) : nthFrame n p = c + 4096 * n := by
  have hlast : lastPage = 0xfffffffffffff000 := rfl
  obtain ⟨hcursor, hlimit, hstack⟩ := hf.allocs_eq hl n (by omega)
  have hmod : (c + 4096 * n + pageSize) % word = c + 4096 * (n + 1) := by
    rw [word_eq, show pageSize = 4096 from rfl]
    omega
  rw [nthFrame, pmmAllocFrame_of_nil hstack hcursor hmod (by omega)]

theorem Fresh.nthFrame_of_lastPage (hf : Fresh p c lastPage) (hs : PoolShape c lastPage) :
    nthFrame ((lastPage - c) / 4096) p = lastPage ∧
      nthFrame ((lastPage - c) / 4096 + 2) p = 4096 := by
  have hlast : lastPage = 0xfffffffffffff000 := rfl
  have hc := hs.dvd_cursor
  have hle := hs.le
  obtain ⟨hcursor, hlimit, hstack⟩ := hf.allocs_eq le_rfl ((lastPage - c) / 4096) (by omega)
  have hend : c + 4096 * ((lastPage - c) / 4096) = lastPage := by omega
  rw [hend] at hcursor
  rw [nthFrame, nthFrame, allocs_succ, allocs_succ]
  generalize allocs ((lastPage - c) / 4096) p = q at hcursor hlimit hstack
  -- the three calls from the end of the pool on
  have h₀ : pmmAllocFrame q = (lastPage, ⟨q.stats.taken, 0, lastPage, []⟩) := by
    rw [pmmAllocFrame_of_nil hstack hcursor (by norm_num) (Nat.zero_le _), hlimit, hstack]
  have h₁ : pmmAllocFrame ⟨q.stats.taken, 0, lastPage, []⟩ =
      (0, ⟨q.stats.taken.taken, 4096, lastPage, []⟩) :=
    pmmAllocFrame_of_nil rfl rfl (by norm_num) (by norm_num)
  have h₂ : pmmAllocFrame ⟨q.stats.taken.taken, 4096, lastPage, []⟩ =
      (4096, ⟨q.stats.taken.taken.taken, 8192, lastPage, []⟩) :=
    pmmAllocFrame_of_nil rfl rfl (by norm_num) (by norm_num)
  rw [h₀]
  dsimp only
  rw [h₁]
  dsimp only
  rw [h₂]
  exact ⟨rfl, rfl⟩

theorem accounted_iff_usable (hf : Fresh p c l) (hs : PoolShape c l) :
    (∀ r, FrameRun.Reached p r → r.Accounted p) ↔ PoolUsable c l := by
  constructor
  · intro hall
    have hest := (hall _ .init).estimate
    dsimp only at hest
    rw [hf.estimate] at hest
    refine ⟨hs, fun hc => ?_, ?_⟩
    · subst hc
      by_contra hl
      have hdl := hs.dvd_limit
      have h0 := (hest 0).2 (by omega)
      rw [hf.nthFrame_eq hs.le_lastPage (by omega)] at h0
      exact h0 rfl
    · rintro rfl
      have hlt := (hest ((lastPage - c) / 4096)).1 (by rw [(hf.nthFrame_of_lastPage hs).1]; norm_num)
      exact absurd hlt (lt_irrefl _)
  · intro hu r hr
    exact (FrameInv.of_reached hf hu hr).accounted hu hf

/-- **The accounts of the frames** are right in every run exactly when the region fits. -/
theorem accounted_iff {fuel : ℕ} (h : pmmInit fuel k boot = some p) :
    (∀ r, FrameRun.Reached p r → r.Accounted p) ↔
      PoolFits (region boot).1 (region boot).2 (reservedTop k boot) := by
  rw [accounted_iff_usable (fresh_of_pmmInit h) (poolShape_poolOf _ _ (reservedTop_le k boot).2),
    poolUsable_iff (reservedTop_le k boot) (region_start_lt boot) (region_lt boot)]
  rcases region_start boot with h | h
  · exact .inl (Prod.ext_iff.1 h)
  · exact .inr h

/-- A kernel started with one region that ends on a page boundary. -/
theorem accounted_iff_oneEntry :
    ∃ fuel p, pmmInit fuel kernelTo2MiB (oneEntryBoot 0x100000 0x700000) = some p ∧
      ∀ r, FrameRun.Reached p r → r.Accounted p := by
  obtain ⟨fuel, p, h⟩ := exists_pmmInit_oneEntry 0x100000 0x700000
  refine ⟨fuel, p, h, (accounted_iff h).2 ?_⟩
  rw [region_oneEntryBoot_of_fits (by norm_num) (by norm_num) (by norm_num),
    reservedTop_oneEntryBoot]
  norm_num [PoolFits, pageCeil]

/-- **A region that wraps gives a pool that starts at zero**: the call that hands out its first frame
returns zero, and what the second counter says is wrong. -/
theorem not_accounted_of_wrapped_region :
    ∃ fuel p, pmmInit fuel kernelTo2MiB (oneEntryBoot 0xfffffffffffff800 0x180800) = some p ∧
      ¬∀ r, FrameRun.Reached p r → r.Accounted p := by
  obtain ⟨fuel, p, h⟩ := exists_pmmInit_oneEntry 0xfffffffffffff800 0x180800
  have hregion : region (oneEntryBoot 0xfffffffffffff800 0x180800) =
      (0xfffffffffffff800, 0x180000) := by
    rw [region_oneEntryBoot rfl (by norm_num [MmapEntry.usable, MmapEntry.limit,
      MmapEntry.usableSize, MmapEntry.start, sub64])]
    norm_num [MmapEntry.limit, MmapEntry.start]
  have hfresh := fresh_of_pmmInit h
  rw [hregion, reservedTop_oneEntryBoot] at hfresh
  refine ⟨fuel, p, h, fun hall => ?_⟩
  have husable := (accounted_iff_usable hfresh (poolShape_poolOf _ _ (by norm_num))).1 hall
  rw [poolUsable_iff (by norm_num) (by norm_num) (by norm_num) (by norm_num)] at husable
  norm_num [PoolFits, pageCeil] at husable

/-! ### Frames that may be handed out -/

def BootModule.Misses (m : BootModule) (a b : ℕ) : Prop :=
  m.modEnd.toNat ≤ m.modStart.toNat ∨ b ≤ m.modStart.toNat ∨ m.modEnd.toNat ≤ a

def MmapTag.Covers (t : MmapTag) (f : ℕ) : Prop :=
  ∃ m ∈ t.entries, m.type = 1 ∧ m.addr ≤ f ∧ f + 4096 ≤ m.addr + m.len

/-- A frame inside one available region, at or above 1 MiB, that is neither the kernel's nor a
module's. -/
structure FrameOk (k : KernelImage) (boot : BootInfo) (t : MmapTag) (f : ℕ) : Prop where
  covered : t.Covers f
  high : 0x100000 ≤ f
  kernel : f + 4096 ≤ 0x100000 ∨ k.kernelEnd ≤ f
  rootfs : boot.rootfs.Misses f (f + 4096)
  installImage : boot.installImage.Misses f (f + 4096)

/-- `pmm_init` returns, and every frame that the calls after it return may be handed out. -/
def FramesSafe (k : KernelImage) (boot : BootInfo) (t : MmapTag) : Prop :=
  ∃ fuel p, pmmInit fuel k boot = some p ∧
    ∀ n, nthFrame n p ≠ 0 → FrameOk k boot t (nthFrame n p)

/-- Neither the kernel nor a module has a byte between two addresses above 1 MiB. -/
def ReservedMisses (k : KernelImage) (boot : BootInfo) (a b : ℕ) : Prop :=
  k.kernelEnd ≤ a ∧ boot.rootfs.Misses a b ∧ boot.installImage.Misses a b

/-- The pages of the pool of a region may be handed out: the page in which the region ends belongs
to an available region as a whole, and the region ends above the reserved area or has no page in
it. -/
def PagesOk (k : KernelImage) (boot : BootInfo) (t : MmapTag) (s e : ℕ) : Prop :=
  if lastPage < e then True
  else if s ≤ e then
    pageCeil s = pageCeil e ∨
      (4096 ∣ e ∨ t.Covers (pageCeil e - 4096)) ∧
        (pageCeil (reservedTop k boot) < e ∨ ReservedMisses k boot (pageCeil s) (pageCeil e))
  else if s ≤ lastPage then True
  else ∀ f, 4096 ∣ f → pageCeil (reservedTop k boot) ≤ f → f < pageCeil e → t.Covers f

theorem framesOk_iff (hf : Fresh p c l) (hs : PoolShape c l) (hc : c = 0 → l = 0 ∨ 0x100000 ≤ l) :
    (∀ n, nthFrame n p ≠ 0 → FrameOk k boot t (nthFrame n p)) ↔
      PoolUsable c l ∧ ∀ f, 4096 ∣ f → c ≤ f → f < l → FrameOk k boot t f := by
  have hdc := hs.dvd_cursor
  have hdl := hs.dvd_limit
  constructor
  · intro hall
    have hu : PoolUsable c l := by
      refine ⟨hs, fun h0 => ?_, ?_⟩
      · by_contra hl
        have h1 := hf.nthFrame_eq hs.le_lastPage (n := 1) (by have := hc h0; omega)
        have := (hall 1 (by omega)).high
        omega
      · rintro rfl
        have h2 := (hf.nthFrame_of_lastPage hs).2
        have := (hall _ (by rw [h2]; norm_num)).high
        omega
    refine ⟨hu, fun f hd hcf hfl => ?_⟩
    have hn := hf.nthFrame_eq hs.le_lastPage (n := (f - c) / 4096) (by omega)
    rw [show c + 4096 * ((f - c) / 4096) = f by omega] at hn
    rw [← hn]
    refine hall _ ?_
    rw [hn]
    rintro rfl
    have := hu.pos (by omega)
    omega
  · rintro ⟨hu, hall⟩ n h0
    have hlt := ((FrameInv.of_reached hf hu .init).nthFrame_iff hu n).1 h0
    dsimp only at hlt
    rw [hf.estimate] at hlt
    rw [hf.nthFrame_eq hs.le_lastPage (by omega)]
    exact hall _ (by omega) (by omega) (by omega)

theorem covers_of_region (hmap : boot.mmap = some t) (hs : (region boot).1 ≤ f)
    (he : f + 4096 ≤ (region boot).2) : t.Covers f := by
  rw [region, hmap] at hs he
  dsimp only at hs he
  cases hm : t.largest with
  | none =>
    rw [hm] at he
    simp at he
  | some m =>
    rw [hm] at hs he
    have hmem := List.argmax_mem hm
    have husable := List.of_mem_filter hmem
    rw [MmapEntry.usable, decide_eq_true_eq] at husable
    exact ⟨m, List.mem_of_mem_filter hmem, husable.1, (le_max_left _ _).trans hs,
      he.trans (Nat.mod_le _ _)⟩

theorem reserved_of_le (h : pageCeil (reservedTop k boot) ≤ f) :
    k.kernelEnd ≤ f ∧ boot.rootfs.Misses f (f + 4096) ∧
      boot.installImage.Misses f (f + 4096) := by
  have hle := (le_pageCeil _).trans h
  rw [reservedTop, max_le_iff, max_le_iff] at hle
  exact ⟨hle.1, .inr (.inr hle.2.1), .inr (.inr hle.2.2)⟩

theorem BootModule.misses_of_pages {m : BootModule} (ha : 4096 ∣ a) (hb : 4096 ∣ b)
    (hab : a < b) (h : ∀ f, 4096 ∣ f → a ≤ f → f < b → m.Misses f (f + 4096)) : m.Misses a b := by
  by_contra hmiss
  rw [BootModule.Misses, not_or, not_or] at hmiss
  obtain ⟨h₁, h₂, h₃⟩ := hmiss
  -- the page in which the two first meet
  have hpage := h (max a m.modStart.toNat / 4096 * 4096) (Dvd.intro_left _ rfl) (by omega) (by omega)
  rw [BootModule.Misses] at hpage
  omega

theorem BootModule.Misses.mono {m : BootModule} {a' b' : ℕ} (h : m.Misses a b) (ha : a ≤ a')
    (hb : b' ≤ b) : m.Misses a' b' := by
  rw [BootModule.Misses] at *
  omega

theorem pagesOk_of_le (hse : s ≤ e) (hreg : s = 0 ∧ e = 0 ∨ 0x100000 ≤ s)
    (hcover : ∀ f, s ≤ f → f + 4096 ≤ e → t.Covers f)
    (hcursor : cursor = if pageCeil s < pageCeil (reservedTop k boot) ∧
      pageCeil (reservedTop k boot) < e then pageCeil (reservedTop k boot) else pageCeil s) :
    (∀ f, 4096 ∣ f → cursor ≤ f → f < pageCeil e → FrameOk k boot t f) ↔
      pageCeil s = pageCeil e ∨ (4096 ∣ e ∨ t.Covers (pageCeil e - 4096)) ∧
        (pageCeil (reservedTop k boot) < e ∨ ReservedMisses k boot (pageCeil s) (pageCeil e)) := by
  have hs := le_pageCeil s
  have he := le_pageCeil e
  have hds := dvd_pageCeil s
  have hde := dvd_pageCeil e
  have hdR := dvd_pageCeil (reservedTop k boot)
  have hmono := pageCeil_mono hse
  have hdc : 4096 ∣ cursor ∧ pageCeil s ≤ cursor ∧
      (pageCeil s < pageCeil e → cursor < pageCeil e) := by
    rw [hcursor]
    split_ifs with h
    · exact ⟨hdR, by omega, by omega⟩
    · exact ⟨hds, le_rfl, id⟩
  constructor
  · intro hall
    rcases hmono.eq_or_lt with heq | hlt
    · exact .inl heq
    have hlast := hall (pageCeil e - 4096) (by omega) (by have := hdc.2.2 hlt; omega) (by omega)
    refine .inr ⟨.inr hlast.covered, ?_⟩
    by_cases hRe : pageCeil (reservedTop k boot) < e
    · exact .inl hRe
    · rw [if_neg fun h => hRe h.2] at hcursor
      rw [hcursor] at hall
      have hfirst := hall (pageCeil s) hds le_rfl hlt
      have hkernel : k.kernelEnd ≤ pageCeil s := by
        have := hfirst.kernel
        have := hfirst.high
        omega
      exact .inr ⟨hkernel,
        BootModule.misses_of_pages hds hde hlt fun f hd h₁ h₂ => (hall f hd h₁ h₂).rootfs,
        BootModule.misses_of_pages hds hde hlt fun f hd h₁ h₂ => (hall f hd h₁ h₂).installImage⟩
  · rintro (heq | ⟨hpage, hres⟩) f hd hcf hfe
    · omega
    have hcov : t.Covers f := by
      by_cases hin : f + 4096 ≤ e
      · exact hcover f (by omega) hin
      -- only the page in which the region ends is left
      rcases hpage with hdvd | hcov
      · have := pageCeil_of_dvd hdvd
        omega
      · have := pageCeil_lt e
        rwa [show pageCeil e - 4096 = f by omega] at hcov
    have hhigh : 0x100000 ≤ f := by
      have := pageCeil_lt e
      rcases hreg with h | h <;> omega
    by_cases hRf : pageCeil (reservedTop k boot) ≤ f
    · obtain ⟨hk, hr, hi⟩ := reserved_of_le hRf
      exact ⟨hcov, hhigh, .inr hk, hr, hi⟩
    · rcases hres with hRe | ⟨hk, hr, hi⟩
      · rw [hcursor] at hcf
        split_ifs at hcf <;> omega
      · exact ⟨hcov, hhigh, .inr (by omega), hr.mono (by omega) (by omega),
          hi.mono (by omega) (by omega)⟩

/-- **The pages of a pool, from its region.** -/
theorem pagesOk_iff (hmap : boot.mmap = some t)
    (hfits : PoolFits (region boot).1 (region boot).2 (reservedTop k boot)) :
    (∀ f, 4096 ∣ f → (poolOf (region boot).1 (region boot).2 (reservedTop k boot)).1 ≤ f →
        f < (poolOf (region boot).1 (region boot).2 (reservedTop k boot)).2 →
        FrameOk k boot t f) ↔
      PagesOk k boot t (region boot).1 (region boot).2 := by
  have hlast : lastPage = 0xfffffffffffff000 := rfl
  have htop := reservedTop_le k boot
  have hR := le_pageCeil (reservedTop k boot)
  have hstart := region_start boot
  have hcover : ∀ f, (region boot).1 ≤ f → f + 4096 ≤ (region boot).2 → t.Covers f :=
    fun f => covers_of_region hmap
  rw [poolOf_eq htop.2 (region_start_lt boot) (region_lt boot), PagesOk]
  rw [PoolFits] at hfits
  rw [Prod.ext_iff] at hstart
  generalize (region boot).1 = s at *
  generalize (region boot).2 = e at *
  by_cases h₁ : lastPage < e
  · simp only [if_pos h₁, iff_true]
    intro f _ h₂ h₃
    split_ifs at h₂ h₃ <;> omega
  simp only [if_neg h₁] at hfits ⊢
  by_cases h₂ : s ≤ e
  · simp only [if_pos h₂]
    exact pagesOk_of_le h₂ (hstart.imp_right And.left) hcover rfl
  simp only [if_neg h₂] at hfits ⊢
  by_cases h₃ : s ≤ lastPage
  · simp only [if_pos h₃, iff_true]
    intro f _ h₄ h₅
    omega
  · -- the region wraps, and the pool lies below it
    simp only [if_neg h₃] at hfits ⊢
    rw [if_pos ⟨by omega, hfits.1⟩]
    refine forall₄_congr fun f hd hcf hfl => ⟨FrameOk.covered, fun hcov => ?_⟩
    obtain ⟨hk, hr, hi⟩ := reserved_of_le hcf
    exact ⟨hcov, by omega, .inr hk, hr, hi⟩

/-- **Every frame handed out lies in available memory above 1 MiB that is neither the kernel's nor
a module's**, exactly when the map can be walked, its largest region fits and the pages of that
region may be handed out. -/
theorem framesSafe_iff (k : KernelImage) (hmap : boot.mmap = some t) :
    FramesSafe k boot t ↔
      t.Walkable ∧ PoolFits (region boot).1 (region boot).2 (reservedTop k boot) ∧
        PagesOk k boot t (region boot).1 (region boot).2 := by
  have htop := reservedTop_le k boot
  have hstart : (region boot).1 = 0 ∧ (region boot).2 = 0 ∨
      0x100000 ≤ (region boot).1 ∧ 0x100000 < (region boot).2 := by
    have := region_start boot
    rwa [Prod.ext_iff] at this
  have hzero : (poolOf (region boot).1 (region boot).2 (reservedTop k boot)).1 = 0 →
      (poolOf (region boot).1 (region boot).2 (reservedTop k boot)).2 = 0 ∨
        0x100000 ≤ (poolOf (region boot).1 (region boot).2 (reservedTop k boot)).2 := by
    have hs := le_pageCeil (region boot).1
    have he := le_pageCeil (region boot).2
    have he₀ : (region boot).2 = 0 → pageCeil (region boot).2 = 0 := fun h => by
      rw [h]
      exact pageCeil_of_dvd (dvd_zero _)
    rw [poolOf_eq htop.2 (region_start_lt boot) (region_lt boot)]
    split_ifs <;> dsimp only <;> omega
  have hframes : ∀ fuel p, pmmInit fuel k boot = some p →
      ((∀ n, nthFrame n p ≠ 0 → FrameOk k boot t (nthFrame n p)) ↔
        PoolFits (region boot).1 (region boot).2 (reservedTop k boot) ∧
          PagesOk k boot t (region boot).1 (region boot).2) := by
    intro fuel p h
    rw [framesOk_iff (fresh_of_pmmInit h) (poolShape_poolOf _ _ htop.2) hzero,
      poolUsable_iff htop (region_start_lt boot) (region_lt boot) hstart]
    exact and_congr_right fun hfits => pagesOk_iff hmap hfits
  rw [← exists_pmmInit_iff k hmap]
  constructor
  · rintro ⟨fuel, p, h, hall⟩
    exact ⟨⟨fuel, p, h⟩, (hframes fuel p h).1 hall⟩
  · rintro ⟨⟨fuel, p, h⟩, hok⟩
    exact ⟨fuel, p, h, (hframes fuel p h).2 hok⟩

/-- A kernel started with one region that ends on a page boundary. -/
theorem framesSafe_iff_oneEntry :
    FramesSafe kernelTo2MiB (oneEntryBoot 0x100000 0x700000) (oneEntryMap 0x100000 0x700000) := by
  have hmap : (oneEntryBoot 0x100000 0x700000).mmap = some (oneEntryMap 0x100000 0x700000) := rfl
  refine (framesSafe_iff kernelTo2MiB hmap).2 ⟨oneEntryMap_walkable _ _, ?_⟩
  rw [region_oneEntryBoot_of_fits (by norm_num) (by norm_num) (by norm_num), PagesOk,
    reservedTop_oneEntryBoot]
  norm_num [PoolFits, pageCeil]

/-- **A region that does not end on a page boundary is handed out beyond its end**, since the end
is rounded up. -/
theorem not_framesSafe_of_partial_page :
    ¬FramesSafe kernelTo2MiB (oneEntryBoot 0x100000 0x700800) (oneEntryMap 0x100000 0x700800) := by
  rintro ⟨fuel, p, h, hall⟩
  have hfresh := fresh_of_pmmInit h
  rw [region_oneEntryBoot_of_fits (by norm_num) (by norm_num) (by norm_num),
    reservedTop_oneEntryBoot, poolOf_eq (by norm_num) (by norm_num) (by norm_num)] at hfresh
  norm_num [pageCeil] at hfresh
  have hframe := hfresh.nthFrame_eq (n := 1536) (by norm_num) (by norm_num)
  norm_num at hframe
  obtain ⟨m, hm, -, -, hle⟩ := (hall 1536 (by rw [hframe]; norm_num)).covered
  rw [oneEntryMap_entries, List.mem_singleton] at hm
  rw [hm, hframe] at hle
  norm_num at hle

end Tnu.Mm
