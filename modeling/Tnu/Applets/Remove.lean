/-
**The rm command.**

`rm_recursive_path` of `kernel/core/applets.c` removes the first child of a directory until there is none,
and asks nobody whether the child is gone.  Without `-f` the first child that stays ends the loop.  With
`-f` its status is not looked at, so the loop comes back to the same child for ever.

Main results:

* `rm_diverges` — **a node that stays keeps the loop going**;
* `rmRecursivePath_iff` — the function returns, and leaves nothing below the path when it
  reports success, exactly when `RmWhen` holds.
-/

import Mathlib.Data.Finset.Card
import Mathlib.Data.Finset.Filter
import Tnu.Printf
import Tnu.Shell.State
import Tnu.Sys.Unlink

set_option autoImplicit false

namespace Tnu.Applets

open Vfs Sys
open Shell (Sh)

/-! ### The function -/

/-- `applet_path_requires_root_for_mutation`; its table is the one of the system calls. -/
def appletPathRequiresRootForMutation (proc : Process) (path : List Byte) : Bool :=
  match vfsNormalize path proc.cwd.chars vfsPathMax with
  | none => false
  | some normal => pathRequiresRootForMutation normal

/-- `report_permission_denied_if_protected`. -/
def reportPermissionDenied (cmd path : List Byte) (sh : Sh) : Sh × Bool :=
  if isRoot sh.kernel.proc then (sh, false)
  else if appletPathRequiresRootForMutation sh.kernel.proc path = false then (sh, false)
  else (sh.kprintf (cmd ++ lit ": permission denied: requires root: " ++ path ++ [10]), true)

def childPath (normal name : List Byte) : List Byte :=
  if normal = [slash] then ksnprintf vfsPathMax (slash :: name)
  else ksnprintf vfsPathMax (normal ++ slash :: name)

/-- The tail of `rm_recursive_path`. -/
def rmUnlink (path normal : List Byte) (force : Bool) (sh : Sh) : Sh × ℤ :=
  let r := sysUnlink sh.kernel normal
  let sh := { sh with kernel := r.1 }
  if r.2 < 0 then
    if force then (sh, 0)
    else
      let denied := reportPermissionDenied (lit "rm") normal sh
      (if denied.2 then denied.1 else sh.kprintf (lit "rm: failed: " ++ path ++ [10]), 1)
  else (sh, 0)

/-- The loop of `rm_recursive_path` over the first child of `node`; `rm` is the recursive call.  It ends
with no status when the directory is empty, and the function goes on. -/
def rmLoop (rm : List Byte → Sh → Option (Sh × ℤ)) (normal : List Byte) (force : Bool) :
    ℕ → ℕ → Sh → Option (Sh × Option ℤ)
  | 0, _, _ => none
  | fuel + 1, node, sh =>
    match (sh.kernel.vfs.nodes node).firstChild with
    | none => some (sh, none)
    | some c =>
      (rm (childPath normal (sh.kernel.vfs.nodes c).name.chars) sh).bind fun r =>
        if r.2 ≠ 0 ∧ force = false then some (r.1, some 1)
        else
          match vfsLookup r.1.kernel.vfs normal [slash] with
          | none => some (r.1, some 0)
          | some node => rmLoop rm normal force fuel node r.1

/-- `rm_recursive_path`; no result when the fuel runs out. -/
def rmRecursivePath : ℕ → List Byte → Bool → Bool → Sh → Option (Sh × ℤ)
  | 0, _, _, _, _ => none
  | fuel + 1, path, recursive, force, sh =>
    match vfsNormalize path sh.kernel.proc.cwd.chars vfsPathMax with
    | none => some (if force then (sh, 0) else (sh.kprintf (lit "rm: invalid path: " ++ path ++ [10]), 1))
    | some normal =>
      let denied := reportPermissionDenied (lit "rm") normal sh
      if denied.2 then some (denied.1, 1)
      else
        match vfsLookup sh.kernel.vfs normal [slash] with
        | none => some (if force then (sh, 0) else (sh.kprintf (lit "rm: not found: " ++ path ++ [10]), 1))
        | some node =>
          if (sh.kernel.vfs.nodes node).type = .dir then
            if recursive = false then
              some (sh.kprintf (lit "rm: " ++ path ++ lit ": is a directory" ++ [10]), 1)
            else
              (rmLoop (fun child sh => rmRecursivePath fuel child true force sh) normal force (fuel + 1)
                node sh).map fun r =>
                  match r.2 with
                  | some rc => (r.1, rc)
                  | none => if normal = [slash] then (r.1, 0) else rmUnlink path normal force r.1
          else some (rmUnlink path normal force sh)

/-! ### What a call takes away -/

abbrev Comps := List (List Byte)

/-- Nothing is gone but paths of `P` that the caller may remove, and nothing else has changed. -/
structure Pruned (P : Comps → Prop) (s s' : Kernel) : Prop where
  proc : s'.proc = s.proc
  wf : Wf s'.vfs
  count : s'.vfs.nodeCount = s.vfs.nodeCount
  node : ∀ n, (s'.vfs.nodes n).type = (s.vfs.nodes n).type ∧ (s'.vfs.nodes n).mode = (s.vfs.nodes n).mode ∧
    (s'.vfs.nodes n).uid = (s.vfs.nodes n).uid ∧ (s'.vfs.nodes n).gid = (s.vfs.nodes n).gid ∧
    (s'.vfs.nodes n).name = (s.vfs.nodes n).name ∧ (s'.vfs.nodes n).data = (s.vfs.nodes n).data ∧
    (s'.vfs.nodes n).size = (s.vfs.nodes n).size
  sub : ∀ q n, walk s'.vfs rootNode q = some n → walk s.vfs rootNode q = some n
  kept : ∀ q n, walk s.vfs rootNode q = some n → ¬ (P q ∧ MayUnlink s.vfs s.proc q) →
    walk s'.vfs rootNode q = some n

variable {s s' s'' : Kernel} {P Q : Comps → Prop} {cs q : Comps}

theorem Pruned.refl (hs : Wf s.vfs) (P : Comps → Prop) : Pruned P s s where
  proc := rfl
  wf := hs
  count := rfl
  node _ := ⟨rfl, rfl, rfl, rfl, rfl, rfl, rfl⟩
  sub _ _ h := h
  kept _ _ h _ := h

theorem Pruned.mono (h : Pruned P s s') (hPQ : ∀ q, P q → Q q) : Pruned Q s s' :=
  { h with kept := fun q n hq hn => h.kept q n hq fun hp => hn ⟨hPQ q hp.1, hp.2⟩ }

theorem Pruned.mayUnlink (h : Pruned P s s') (hm : MayUnlink s'.vfs s'.proc q) : MayUnlink s.vfs s.proc q := by
  obtain ⟨pc, x, parent, rfl, hw, hdir, hprot, hwrite, hsearch⟩ := hm
  obtain ⟨htype, hmode, huid, hgid, -⟩ := h.node parent
  rw [h.proc] at hprot hwrite hsearch
  exact ⟨pc, x, parent, rfl, h.sub pc parent hw, htype ▸ hdir, hprot,
    (hasPerm_congr hmode huid hgid 2).symm.trans hwrite, (hasPerm_congr hmode huid hgid 1).symm.trans hsearch⟩

theorem Pruned.trans (h : Pruned P s s') (h' : Pruned P s' s'') : Pruned P s s'' where
  proc := h'.proc.trans h.proc
  wf := h'.wf
  count := h'.count.trans h.count
  node n := by
    obtain ⟨a, b, c, d, e, f, g⟩ := h.node n
    obtain ⟨a', b', c', d', e', f', g'⟩ := h'.node n
    exact ⟨a'.trans a, b'.trans b, c'.trans c, d'.trans d, e'.trans e, f'.trans f, g'.trans g⟩
  sub q n hq := h.sub q n (h'.sub q n hq)
  kept q n hq hn := h'.kept q n (h.kept q n hq hn) fun hm => hn ⟨hm.1, h.mayUnlink hm.2⟩

theorem Pruned.pathsFit (h : Pruned P s s') (hfit : PathsFit s.vfs) : PathsFit s'.vfs := hfit.of_walk h.sub

variable {force recursive : Bool} {x path : List Byte} {rm : List Byte → Sh → Option (Sh × ℤ)}
  {v : Pool} {sh sh' : Sh} {r : Sh × Option ℤ} {c m n fuel node fuel' : ℕ}

theorem pruned_sysUnlink (hs : Wf s.vfs) (hp : 0 ∉ path)
    (hres : resolve path s.proc.cwd.chars = some cs) :
    Pruned (· = cs) s (sysUnlink s path).1 := by
  rcases sysUnlink_cases hs hp hres with ⟨rc, -, he⟩ | ⟨v, hmay, hv, he⟩
  · rw [he]
    exact .refl hs _
  · rw [he]
    have hwalk := hv.walk_eq hs
    obtain ⟨pc, x, parent, target, -, -, -, -, hrem⟩ := hv.leaf
    refine ⟨rfl, hrem.wf, hrem.count, fun n => ?_, fun q n hq => ?_, fun q n hq hn => ?_⟩
    · obtain ⟨t, c, y, hnode⟩ := hrem.node n
      have hnode' : ({ s with vfs := v }.sync).vfs.nodes n = _ := hnode
      rw [hnode']
      exact ⟨rfl, rfl, rfl, rfl, rfl, rfl, rfl⟩
    · have hq' : walk v rootNode q = some n := hq
      rw [hwalk] at hq'
      split_ifs at hq'
      exact hq'
    · show walk v rootNode q = some n
      rw [hwalk, if_neg fun e => hn ⟨e, e ▸ hmay⟩, hq]

/-! ### Messages -/

@[simp] theorem kernel_kprintf (sh : Sh) (text : List Byte) : (sh.kprintf text).kernel = sh.kernel := rfl

@[simp] theorem kernel_reportPermissionDenied (cmd path : List Byte) (sh : Sh) :
    (reportPermissionDenied cmd path sh).1.kernel = sh.kernel := by
  unfold reportPermissionDenied
  split_ifs <;> rfl

def Denied (proc : Process) (cs : Comps) : Prop :=
  isRoot proc = false ∧ pathRequiresRootForMutation (pathString cs) = true

theorem reportPermissionDenied_iff (cmd : List Byte) (hcs : Proper cs) (sh : Sh) :
    (reportPermissionDenied cmd (pathString cs) sh).2 = true ↔ Denied sh.kernel.proc cs := by
  have hnorm : appletPathRequiresRootForMutation sh.kernel.proc (pathString cs) =
      pathRequiresRootForMutation (pathString cs) := by
    rw [appletPathRequiresRootForMutation, vfsNormalize_eq (zero_notMem_pathString hcs.valid)
      sh.kernel.proc.cwd.nul_free, resolve_pathString hcs]
    rfl
  rw [reportPermissionDenied, hnorm, Denied]
  cases isRoot sh.kernel.proc <;> cases pathRequiresRootForMutation (pathString cs) <;> simp

theorem not_denied_of_may (h : MayUnlink s.vfs s.proc cs) : ¬ Denied s.proc cs := by
  obtain ⟨-, -, -, -, -, -, hprot, -⟩ := h
  rintro ⟨hroot, hdenied⟩
  rcases hprot with h | h <;> simp_all

/-! ### Paths of children -/

theorem childPath_eq (h : Proper (cs ++ [x])) :
    childPath (pathString cs) x = pathString (cs ++ [x]) := by
  have hfit := h.fits
  rw [pathString_snoc] at hfit ⊢
  rw [childPath]
  by_cases hcs : cs = []
  · subst hcs
    rw [if_pos pathString_nil]
    exact List.take_of_length_le (by simpa using Nat.le_sub_one_of_lt hfit)
  · rw [if_neg fun e => hcs ((pathString_eq_slash h.of_append.valid).1 e), pathString_of_ne_nil hcs]
    exact List.take_of_length_le (Nat.le_sub_one_of_lt hfit)

def Below (cs q : Comps) : Prop := ∃ x t, q = cs ++ x :: t

theorem not_below_self (cs : Comps) : ¬ Below cs cs := by
  rintro ⟨x, t, h⟩
  simp at h

theorem walk_below_of_leaf (hw : walk v rootNode cs = some n)
    (hleaf : (v.nodes n).firstChild = none) (hq : Below cs q) : walk v rootNode q = none := by
  obtain ⟨x, t, rfl⟩ := hq
  have hnone : findChild v n x = none := by simp [findChild, children, hleaf]
  rw [walk_append, hw, Option.bind_some, walk, List.foldlM_cons, hnone]
  rfl

/-! ### What a call that returns has done -/

/-- Nothing is gone but what is at or below the path; nothing is left below it when the status is zero; and
the path itself is gone when the status is zero without `-f`, or when the caller may remove it. -/
structure RmPost (s s' : Kernel) (cs : Comps) (recursive force : Bool) (rc : ℤ) : Prop where
  pruned : Pruned (cs <+: ·) s s'
  below : rc = 0 → ∀ q, Below cs q → walk s'.vfs rootNode q = none
  gone : recursive = true → (rc = 0 ∧ force = false ∧ cs ≠ []) ∨ (force = true ∧ MayUnlink s.vfs s.proc cs) →
    walk s'.vfs rootNode cs = none

theorem rmPost_rmUnlink (recursive : Bool)
    (hloop : Pruned (Below cs) sh.kernel sh'.kernel) (hcs : Proper cs)
    (hw : walk sh'.kernel.vfs rootNode cs = some n) (hleaf : (sh'.kernel.vfs.nodes n).firstChild = none) :
    RmPost sh.kernel (rmUnlink path (pathString cs) force sh').1.kernel cs recursive force
      (rmUnlink path (pathString cs) force sh').2 := by
  have h0 := zero_notMem_pathString hcs.valid
  have hres : resolve (pathString cs) sh'.kernel.proc.cwd.chars = some cs := resolve_pathString hcs
  have hker : (rmUnlink path (pathString cs) force sh').1.kernel = (sysUnlink sh'.kernel (pathString cs)).1 := by
    simp only [rmUnlink]
    split_ifs <;> simp
  have hpruned := pruned_sysUnlink hloop.wf h0 hres
  have hbelow (q : Comps) (hq : Below cs q) :
      walk (sysUnlink sh'.kernel (pathString cs)).1.vfs rootNode q = none := by
    cases hq' : walk (sysUnlink sh'.kernel (pathString cs)).1.vfs rootNode q with
    | none => rfl
    | some m => exact absurd (hpruned.sub q m hq') (by rw [walk_below_of_leaf hw hleaf hq]; simp)
  refine ⟨?_, fun _ q hq => by rw [hker]; exact hbelow q hq, fun _ hgone => ?_⟩
  · rw [hker]
    refine (hloop.mono ?_).trans (hpruned.mono ?_)
    · rintro q ⟨x, t, rfl⟩
      exact ⟨x :: t, rfl⟩
    · rintro q rfl
      exact List.prefix_rfl
  · rw [hker]
    -- the call has worked: its status says so, or the caller has the rights
    have hworked : ∃ v, Unlinked sh'.kernel cs v ∧
        sysUnlink sh'.kernel (pathString cs) = ({ sh'.kernel with vfs := v }.sync, 0) := by
      rcases hgone with ⟨hrc, hforce, -⟩ | ⟨-, hmay⟩
      · rcases sysUnlink_cases hloop.wf h0 hres with ⟨rc, hneg, he⟩ | ⟨v, -, hv, he⟩
        · rw [rmUnlink, he] at hrc
          simp only [if_pos hneg, hforce, Bool.false_eq_true, if_false] at hrc
          exact absurd hrc (by decide)
        · exact ⟨v, hv, he⟩
      · refine sysUnlink_of_leaf hloop.wf h0 hres ?_ hw hleaf
        obtain ⟨pc, x, parent, rfl, hpc, hdir, hprot, hwrite, hsearch⟩ := hmay
        obtain ⟨htype, hmode, huid, hgid, -⟩ := hloop.node parent
        have hnot : ¬ Below (pc ++ [x]) pc := by
          rintro ⟨y, t, he⟩
          simpa using congrArg List.length he
        rw [← hloop.proc] at hprot hwrite hsearch
        exact ⟨pc, x, parent, rfl, hloop.kept pc parent hpc fun hm => hnot hm.1, htype.trans hdir, hprot,
          (hasPerm_congr hmode huid hgid 2).trans hwrite, (hasPerm_congr hmode huid hgid 1).trans hsearch⟩
    obtain ⟨v, hv, he⟩ := hworked
    rw [he]
    exact (hv.walk_eq hloop.wf cs).trans (if_pos rfl)

theorem rmLoop_post
    (hrm : ∀ (x : List Byte) (sh : Sh) (r : Sh × ℤ), Wf sh.kernel.vfs → PathsFit sh.kernel.vfs →
      Proper (cs ++ [x]) → rm (pathString (cs ++ [x])) sh = some r →
      RmPost sh.kernel r.1.kernel (cs ++ [x]) true force r.2) (fuel : ℕ)
    (hs : Wf sh.kernel.vfs) (hfit : PathsFit sh.kernel.vfs)
    (hw : walk sh.kernel.vfs rootNode cs = some node)
    (h : rmLoop rm (pathString cs) force fuel node sh = some r) :
    Pruned (Below cs) sh.kernel r.1.kernel ∧ walk r.1.kernel.vfs rootNode cs = some node ∧
      (r.2 = none → (r.1.kernel.vfs.nodes node).firstChild = none) ∧
      ∀ rc, r.2 = some rc → rc = 1 ∧ force = false := by
  induction fuel generalizing node sh with
  | zero => simp [rmLoop] at h
  | succ fuel ih =>
    rw [rmLoop] at h
    cases hc : (sh.kernel.vfs.nodes node).firstChild with
    | none =>
      rw [hc] at h
      obtain rfl := Option.some.inj h
      exact ⟨.refl hs _, hw, fun _ => hc, by simp⟩
    | some c =>
      rw [hc] at h
      dsimp only at h
      have hwc := walk_firstChild hs hw hc
      have hproper := hfit _ _ hwc
      rw [childPath_eq hproper, Option.bind_eq_some_iff] at h
      obtain ⟨r₁, hr₁, h⟩ := h
      have hpost := hrm _ _ _ hs hfit hproper hr₁
      have hpruned : Pruned (Below cs) sh.kernel r₁.1.kernel := hpost.pruned.mono fun q hq => by
        obtain ⟨t, rfl⟩ := hq
        exact ⟨_, t, by rw [List.append_assoc]; rfl⟩
      have hw₁ := hpruned.kept cs node hw fun hm => not_below_self cs hm.1
      split_ifs at h with hstop
      · obtain rfl := Option.some.inj h
        exact ⟨hpruned, hw₁, by simp, fun rc hrc => ⟨(Option.some.inj hrc).symm, hstop.2⟩⟩
      · rw [vfsLookup_pathString _ hproper.of_append (by decide), hw₁] at h
        obtain ⟨hpruned', hw', hend, hrc⟩ := ih hpruned.wf (hpruned.pathsFit hfit) hw₁ h
        exact ⟨hpruned.trans hpruned', hw', hend, hrc⟩

theorem rmPost_of_same {rc : ℤ} (hs : Wf sh.kernel.vfs)
    (hker : sh'.kernel = sh.kernel)
    (hbelow : rc = 0 → ∀ q, Below cs q → walk sh.kernel.vfs rootNode q = none)
    (hgone : recursive = true → (rc = 0 ∧ force = false ∧ cs ≠ []) ∨
      (force = true ∧ MayUnlink sh.kernel.vfs sh.kernel.proc cs) → walk sh.kernel.vfs rootNode cs = none) :
    RmPost sh.kernel sh'.kernel cs recursive force rc := by
  rw [hker]
  exact ⟨.refl hs _, hbelow, hgone⟩

theorem walk_below_of_none (hw : walk v rootNode cs = none) (hq : Below cs q) :
    walk v rootNode q = none := by
  obtain ⟨x, t, rfl⟩ := hq
  rw [walk_append, hw, Option.bind_none]

/-- **What a call that returns has done.** -/
theorem rmPost_of_returns (fuel : ℕ)
    {r : Sh × ℤ} (hs : Wf sh.kernel.vfs) (hfit : PathsFit sh.kernel.vfs) (hp : 0 ∉ path)
    (hres : resolve path sh.kernel.proc.cwd.chars = some cs)
    (h : rmRecursivePath fuel path recursive force sh = some r) :
    RmPost sh.kernel r.1.kernel cs recursive force r.2 := by
  induction fuel generalizing path cs recursive sh r with
  | zero => simp [rmRecursivePath] at h
  | succ fuel ih =>
    have hproper := proper_of_resolve hp sh.kernel.proc.cwd.nul_free hres
    have hnorm : vfsNormalize path sh.kernel.proc.cwd.chars vfsPathMax = some (pathString cs) :=
      normalizeForProcess_eq hp hres
    rw [rmRecursivePath, hnorm] at h
    dsimp only at h
    by_cases hdenied : (reportPermissionDenied (lit "rm") (pathString cs) sh).2 = true
    · rw [if_pos hdenied] at h
      obtain rfl := Option.some.inj h
      refine rmPost_of_same hs (kernel_reportPermissionDenied _ _ _) (fun h => absurd h Int.one_ne_zero) ?_
      rintro - (⟨hrc, -⟩ | ⟨-, hmay⟩)
      · exact absurd hrc Int.one_ne_zero
      · exact absurd ((reportPermissionDenied_iff _ hproper sh).1 hdenied) (not_denied_of_may hmay)
    rw [if_neg hdenied, vfsLookup_pathString _ hproper (by decide)] at h
    cases hw : walk sh.kernel.vfs rootNode cs with
    | none =>
      rw [hw] at h
      obtain rfl := Option.some.inj h
      refine rmPost_of_same hs ?_ (fun _ q hq => walk_below_of_none hw hq) fun _ _ => hw
      cases force <;> rfl
    | some node =>
      rw [hw] at h
      dsimp only at h
      by_cases hdir : (sh.kernel.vfs.nodes node).type = .dir
      · rw [if_pos hdir] at h
        cases recursive with
        | false =>
          obtain rfl := Option.some.inj h
          exact rmPost_of_same hs rfl (fun h => absurd h Int.one_ne_zero) fun h => absurd h (by decide)
        | true =>
          rw [if_neg (by decide), Option.map_eq_some_iff] at h
          obtain ⟨r', hloop, rfl⟩ := h
          obtain ⟨hpruned, hw', hend, hrc⟩ := rmLoop_post (fun x sh r hs hfit hx hr =>
            ih hs hfit (zero_notMem_pathString hx.valid) (resolve_pathString hx) hr) _ hs hfit hw hloop
          cases hr' : r'.2 with
          | some rc =>
            obtain ⟨rfl, hforce⟩ := hrc rc hr'
            refine ⟨hpruned.mono ?_, fun h => absurd h Int.one_ne_zero, ?_⟩
            · rintro q ⟨x, t, rfl⟩
              exact ⟨x :: t, rfl⟩
            · rintro - (⟨hrc, -⟩ | ⟨h, -⟩)
              · exact absurd hrc Int.one_ne_zero
              · rw [hforce] at h
                cases h
          | none =>
            have hleaf := hend hr'
            by_cases hroot : pathString cs = [slash]
            · obtain rfl := (pathString_eq_slash hproper.valid).1 hroot
              rw [if_pos hroot]
              refine ⟨hpruned.mono fun q _ => List.nil_prefix,
                fun _ q hq => walk_below_of_leaf hw' hleaf hq, ?_⟩
              rintro - (⟨-, -, h⟩ | ⟨-, pc, x, -, h, -⟩)
              · exact absurd rfl h
              · simp at h
            · rw [if_neg hroot]
              exact rmPost_rmUnlink true hpruned hproper hw' hleaf
      · rw [if_neg hdir] at h
        obtain rfl := Option.some.inj h
        exact rmPost_rmUnlink recursive (.refl hs _) hproper hw (firstChild_of_not_dir hs hw hdir)

/-! ### A node that stays -/

theorem rmLoop_diverges (hq : Below cs q)
    (hrm : ∀ (x : List Byte) (sh : Sh) (r : Sh × ℤ), Wf sh.kernel.vfs → PathsFit sh.kernel.vfs →
      Proper (cs ++ [x]) → rm (pathString (cs ++ [x])) sh = some r →
      RmPost sh.kernel r.1.kernel (cs ++ [x]) true true r.2) (fuel : ℕ)
    (hs : Wf sh.kernel.vfs) (hfit : PathsFit sh.kernel.vfs) (hw : walk sh.kernel.vfs rootNode cs = some node)
    (hm : walk sh.kernel.vfs rootNode q = some m) (hstays : ¬ MayUnlink sh.kernel.vfs sh.kernel.proc q) :
    rmLoop rm (pathString cs) true fuel node sh = none := by
  cases h : rmLoop rm (pathString cs) true fuel node sh with
  | none => rfl
  | some r =>
    obtain ⟨hpruned, hw', hend, hrc⟩ := rmLoop_post hrm fuel hs hfit hw h
    have hkept := hpruned.kept q m hm fun hp => hstays hp.2
    cases hr : r.2 with
    | none =>
      rw [walk_below_of_leaf hw' (hend hr) hq] at hkept
      cases hkept
    | some rc => exact absurd (hrc rc hr).2 (by decide)

/-- **A node that the caller may not remove keeps the loop going for ever**, when both options are given. -/
theorem rm_diverges (hs : Wf sh.kernel.vfs) (hfit : PathsFit sh.kernel.vfs)
    (hp : 0 ∉ path) (hres : resolve path sh.kernel.proc.cwd.chars = some cs)
    (hdenied : ¬ Denied sh.kernel.proc cs) (hq : Below cs q)
    (hm : walk sh.kernel.vfs rootNode q = some m) (hstays : ¬ MayUnlink sh.kernel.vfs sh.kernel.proc q)
    (fuel : ℕ) : rmRecursivePath fuel path true true sh = none := by
  cases fuel with
  | zero => rfl
  | succ fuel =>
    have hproper := proper_of_resolve hp sh.kernel.proc.cwd.nul_free hres
    have hnorm : vfsNormalize path sh.kernel.proc.cwd.chars vfsPathMax = some (pathString cs) :=
      normalizeForProcess_eq hp hres
    have hallowed : ¬ (reportPermissionDenied (lit "rm") (pathString cs) sh).2 = true :=
      fun h => hdenied ((reportPermissionDenied_iff _ hproper sh).1 h)
    rw [rmRecursivePath, hnorm]
    dsimp only
    rw [if_neg hallowed, vfsLookup_pathString _ hproper (by decide)]
    cases hw : walk sh.kernel.vfs rootNode cs with
    | none =>
      rw [walk_below_of_none hw hq] at hm
      cases hm
    | some node =>
      have hdir : (sh.kernel.vfs.nodes node).type = .dir := by
        by_contra h
        rw [walk_below_of_leaf hw (firstChild_of_not_dir hs hw h) hq] at hm
        cases hm
      dsimp only
      rw [if_pos hdir, if_neg (by decide), rmLoop_diverges hq (fun x sh r hs hfit hx hr =>
        rmPost_of_returns fuel hs hfit (zero_notMem_pathString hx.valid) (resolve_pathString hx) hr) _ hs hfit
        hw hm hstays]
      rfl

/-! ### Returning -/

theorem rmLoop_mono {rm' : List Byte → Sh → Option (Sh × ℤ)} {normal : List Byte}
    (hrm : ∀ path sh r, rm path sh = some r → rm' path sh = some r)
    (hle : fuel ≤ fuel') (h : rmLoop rm normal force fuel node sh = some r) :
    rmLoop rm' normal force fuel' node sh = some r := by
  induction fuel generalizing fuel' node sh with
  | zero => simp [rmLoop] at h
  | succ fuel ih =>
    obtain ⟨fuel', rfl⟩ := Nat.exists_eq_succ_of_ne_zero (by omega : fuel' ≠ 0)
    rw [rmLoop] at h ⊢
    cases hc : (sh.kernel.vfs.nodes node).firstChild with
    | none =>
      rw [hc] at h
      exact h
    | some c =>
      rw [hc] at h
      dsimp only at h ⊢
      obtain ⟨r₁, hr₁, h⟩ := Option.bind_eq_some_iff.1 h
      refine Option.bind_eq_some_iff.2 ⟨r₁, hrm _ _ _ hr₁, ?_⟩
      split_ifs at h ⊢ with hstop
      · exact h
      · cases hl : vfsLookup r₁.1.kernel.vfs normal [slash] with
        | none =>
          rw [hl] at h
          exact h
        | some node =>
          rw [hl] at h
          exact ih (by omega) h

theorem rm_mono {r : Sh × ℤ}
    (hle : fuel ≤ fuel') (h : rmRecursivePath fuel path recursive force sh = some r) :
    rmRecursivePath fuel' path recursive force sh = some r := by
  induction fuel generalizing fuel' path recursive sh r with
  | zero => simp [rmRecursivePath] at h
  | succ fuel ih =>
    obtain ⟨fuel', rfl⟩ := Nat.exists_eq_succ_of_ne_zero (by omega : fuel' ≠ 0)
    rw [rmRecursivePath] at h ⊢
    cases hnorm : vfsNormalize path sh.kernel.proc.cwd.chars vfsPathMax with
    | none =>
      rw [hnorm] at h
      exact h
    | some normal =>
      rw [hnorm] at h
      dsimp only at h ⊢
      by_cases hdenied : (reportPermissionDenied (lit "rm") normal sh).2 = true
      · rw [if_pos hdenied] at h ⊢
        exact h
      rw [if_neg hdenied] at h ⊢
      cases hl : vfsLookup sh.kernel.vfs normal [slash] with
      | none =>
        rw [hl] at h
        exact h
      | some node =>
        rw [hl] at h
        dsimp only at h ⊢
        by_cases hdir : (sh.kernel.vfs.nodes node).type = .dir
        · rw [if_pos hdir] at h ⊢
          cases recursive with
          | false => exact h
          | true =>
            rw [if_neg (by decide)] at h ⊢
            obtain ⟨r', hloop, hr⟩ := Option.map_eq_some_iff.1 h
            exact Option.map_eq_some_iff.2
              ⟨r', rmLoop_mono (fun path sh r hr => ih (Nat.le_of_succ_le_succ hle) hr) hle hloop, hr⟩
        · rw [if_neg hdir] at h ⊢
          exact h

open Classical in
noncomputable def sizeBelow (v : Pool) (cs : Comps) : ℕ :=
  ((Finset.range v.nodeCount).filter fun n => ∃ q, Below cs q ∧ walk v rootNode q = some n).card

theorem sizeBelow_lt {v' : Pool} {ds : Comps} (hs : Wf v)
    (hcount : v'.nodeCount = v.nodeCount) (hc : walk v rootNode (cs ++ [x]) = some c)
    (hsub : ∀ q n, Below ds q → walk v' rootNode q = some n →
      Below cs q ∧ walk v rootNode q = some n ∧ q ≠ cs ++ [x]) :
    sizeBelow v' ds < sizeBelow v cs := by
  classical
  refine Finset.card_lt_card (Finset.ssubset_iff_of_subset ?_ |>.2 ⟨c, ?_, ?_⟩)
  · intro n hn
    simp only [Finset.mem_filter, Finset.mem_range, hcount] at hn ⊢
    obtain ⟨hlt, q, hq, hw⟩ := hn
    exact ⟨hlt, q, (hsub q n hq hw).1, (hsub q n hq hw).2.1⟩
  · simp only [Finset.mem_filter, Finset.mem_range]
    exact ⟨hs.walk_lt _ hs.count_pos hc, _, ⟨x, [], rfl⟩, hc⟩
  · simp only [Finset.mem_filter, Finset.mem_range, not_and]
    rintro - ⟨q, hq, hw⟩
    obtain ⟨-, hw', hne⟩ := hsub q c hq hw
    exact hne (hs.walk_injective hw' hc)

theorem sizeBelow_child (hs : Wf v)
    (hc : walk v rootNode (cs ++ [x]) = some c) : sizeBelow v (cs ++ [x]) < sizeBelow v cs := by
  refine sizeBelow_lt hs rfl hc fun q n hq hw => ?_
  obtain ⟨y, t, rfl⟩ := hq
  exact ⟨⟨x, y :: t, by simp⟩, hw, by simp⟩

theorem sizeBelow_gone (h : Pruned P s s') (hs : Wf s.vfs)
    (hc : walk s.vfs rootNode (cs ++ [x]) = some c) (hgone : walk s'.vfs rootNode (cs ++ [x]) = none) :
    sizeBelow s'.vfs cs < sizeBelow s.vfs cs := by
  refine sizeBelow_lt hs h.count hc fun q n hq hw => ⟨hq, h.sub q n hw, ?_⟩
  rintro rfl
  rw [hgone] at hw
  cases hw

/-- With `-f` the caller may remove everything below the path. -/
def MayClear (s : Kernel) (cs : Comps) (force : Bool) : Prop :=
  force = true → ∀ q n, Below cs q → walk s.vfs rootNode q = some n → MayUnlink s.vfs s.proc q

theorem rmLoop_returns {k : ℕ}
    (ih : ∀ (x : List Byte) (sh : Sh), Wf sh.kernel.vfs → PathsFit sh.kernel.vfs → Proper (cs ++ [x]) →
      sizeBelow sh.kernel.vfs (cs ++ [x]) < k → MayClear sh.kernel (cs ++ [x]) force →
      ∃ fuel r, rmRecursivePath fuel (pathString (cs ++ [x])) true force sh = some r)
    (hs : Wf sh.kernel.vfs) (hfit : PathsFit sh.kernel.vfs)
    (hw : walk sh.kernel.vfs rootNode cs = some node) (hk : sizeBelow sh.kernel.vfs cs ≤ k)
    (hmay : MayClear sh.kernel cs force) :
    ∃ f g r, rmLoop (fun child sh => rmRecursivePath f child true force sh) (pathString cs) force g node sh =
      some r := by
  generalize hj : sizeBelow sh.kernel.vfs cs = j
  induction j using Nat.strong_induction_on generalizing sh node with
  | _ j ihj =>
    cases hc : (sh.kernel.vfs.nodes node).firstChild with
    | none => exact ⟨0, 1, (sh, none), by rw [rmLoop, hc]⟩
    | some c =>
      have hwc := walk_firstChild hs hw hc
      generalize hx : (sh.kernel.vfs.nodes c).name.chars = x at hwc
      have hproper := hfit _ _ hwc
      have hmayc : MayClear sh.kernel (cs ++ [x]) force := fun hf q n hq =>
        hmay hf q n (by
          obtain ⟨y, t, rfl⟩ := hq
          exact ⟨x, y :: t, by simp⟩)
      have hsize := sizeBelow_child hs hwc
      obtain ⟨f₁, r₁, hr₁⟩ := ih x sh hs hfit hproper (by omega) hmayc
      have hpost := rmPost_of_returns f₁ hs hfit (zero_notMem_pathString hproper.valid)
        (resolve_pathString hproper) hr₁
      by_cases hstop : r₁.2 ≠ 0 ∧ force = false
      · refine ⟨f₁, 1, (r₁.1, some 1), ?_⟩
        simp only [rmLoop, hc, hx, childPath_eq hproper, hr₁, Option.bind_some, if_pos hstop]
      -- the child is gone: its call says so, or the caller may remove it
      have hgone : walk r₁.1.kernel.vfs rootNode (cs ++ [x]) = none := by
        refine hpost.gone rfl ?_
        cases force with
        | false => exact .inl ⟨by simpa using hstop, rfl, by simp⟩
        | true => exact .inr ⟨rfl, hmay rfl _ c ⟨x, [], rfl⟩ hwc⟩
      have hpruned : Pruned (Below cs) sh.kernel r₁.1.kernel := hpost.pruned.mono fun q hq => by
        obtain ⟨t, rfl⟩ := hq
        exact ⟨x, t, by simp⟩
      have hw₁ := hpruned.kept cs node hw fun hm => not_below_self cs hm.1
      have hless := sizeBelow_gone hpruned hs hwc hgone
      have hmay₁ : MayClear r₁.1.kernel cs force := fun hf q n hq hn => by
        obtain ⟨pc, y, parent, rfl, hpc, hdir, hprot, hwrite, hsearch⟩ := hmay hf q n hq (hpruned.sub q n hn)
        obtain ⟨parent', hpc', -⟩ := hpruned.wf.walk_snoc_eq_some hn
        obtain rfl : parent' = parent := Option.some.inj ((hpruned.sub pc _ hpc').symm.trans hpc)
        obtain ⟨htype, hmode, huid, hgid, -⟩ := hpruned.node parent'
        rw [← hpruned.proc] at hprot hwrite hsearch
        exact ⟨pc, y, parent', rfl, hpc', htype.trans hdir, hprot, (hasPerm_congr hmode huid hgid 2).trans hwrite,
          (hasPerm_congr hmode huid hgid 1).trans hsearch⟩
      obtain ⟨f, g, r, hr⟩ := ihj _ (by omega) hpruned.wf (hpruned.pathsFit hfit) hw₁ (by omega) hmay₁ rfl
      refine ⟨max f₁ f, g + 1, r, ?_⟩
      rw [rmLoop, hc]
      dsimp only
      rw [hx, childPath_eq hproper, rm_mono (le_max_left f₁ f) hr₁, Option.bind_some, if_neg hstop,
        vfsLookup_pathString _ hproper.of_append (by decide), hw₁]
      exact rmLoop_mono (fun path sh r hr => rm_mono (le_max_right f₁ f) hr) le_rfl hr

theorem rm_returns_of_denied (hp : 0 ∉ path)
    (hres : resolve path sh.kernel.proc.cwd.chars = some cs) (hdenied : Denied sh.kernel.proc cs) :
    ∃ r, rmRecursivePath 1 path true force sh = some r := by
  have hproper := proper_of_resolve hp sh.kernel.proc.cwd.nul_free hres
  have hnorm : vfsNormalize path sh.kernel.proc.cwd.chars vfsPathMax = some (pathString cs) :=
    normalizeForProcess_eq hp hres
  rw [rmRecursivePath, hnorm]
  exact ⟨_, if_pos ((reportPermissionDenied_iff _ hproper sh).2 hdenied)⟩

/-- **The function returns** when the caller may remove everything below the path, or `-f` is not given. -/
theorem rm_returns (hs : Wf sh.kernel.vfs)
    (hfit : PathsFit sh.kernel.vfs) (hp : 0 ∉ path) (hres : resolve path sh.kernel.proc.cwd.chars = some cs)
    (hmay : MayClear sh.kernel cs force) :
    ∃ fuel r, rmRecursivePath fuel path true force sh = some r := by
  generalize hk : sizeBelow sh.kernel.vfs cs = k
  induction k using Nat.strong_induction_on generalizing path cs sh with
  | _ k ih =>
    have hproper := proper_of_resolve hp sh.kernel.proc.cwd.nul_free hres
    have hnorm : vfsNormalize path sh.kernel.proc.cwd.chars vfsPathMax = some (pathString cs) :=
      normalizeForProcess_eq hp hres
    by_cases hdenied : (reportPermissionDenied (lit "rm") (pathString cs) sh).2 = true
    · exact ⟨1, rm_returns_of_denied hp hres ((reportPermissionDenied_iff _ hproper sh).1 hdenied)⟩
    cases hw : walk sh.kernel.vfs rootNode cs with
    | none =>
      refine ⟨1, if force then (sh, 0) else (sh.kprintf (lit "rm: not found: " ++ path ++ [10]), 1), ?_⟩
      rw [rmRecursivePath, hnorm]
      dsimp only
      rw [if_neg hdenied, vfsLookup_pathString _ hproper (by decide), hw]
    | some node =>
      by_cases hdir : (sh.kernel.vfs.nodes node).type = .dir
      · obtain ⟨f, g, r, hr⟩ := rmLoop_returns (fun x sh hs hfit hx hsize hmay =>
          ih _ hsize hs hfit (zero_notMem_pathString hx.valid) (resolve_pathString hx) hmay rfl) hs hfit hw
          hk.le hmay
        have hr' := rmLoop_mono (fun path sh r h => rm_mono (le_max_left f g) h)
          (Nat.le_succ_of_le (le_max_right f g)) hr
        refine ⟨max f g + 1, ?_⟩
        rw [rmRecursivePath, hnorm]
        dsimp only
        rw [if_neg hdenied, vfsLookup_pathString _ hproper (by decide), hw]
        dsimp only
        rw [if_pos hdir, if_neg (by decide), hr', Option.map_some]
        exact ⟨_, rfl⟩
      · refine ⟨1, rmUnlink path (pathString cs) force sh, ?_⟩
        rw [rmRecursivePath, hnorm]
        dsimp only
        rw [if_neg hdenied, vfsLookup_pathString _ hproper (by decide), hw]
        exact if_neg hdir

theorem rm_returns_of_not_recursive (path : List Byte) (force : Bool) (sh : Sh) :
    ∃ r, rmRecursivePath 1 path false force sh = some r := by
  rw [rmRecursivePath]
  cases vfsNormalize path sh.kernel.proc.cwd.chars vfsPathMax with
  | none => exact ⟨_, rfl⟩
  | some normal =>
    dsimp only
    by_cases hdenied : (reportPermissionDenied (lit "rm") normal sh).2 = true
    · exact ⟨_, if_pos hdenied⟩
    rw [if_neg hdenied]
    cases vfsLookup sh.kernel.vfs normal [slash] with
    | none => exact ⟨_, rfl⟩
    | some node =>
      dsimp only
      by_cases hdir : (sh.kernel.vfs.nodes node).type = .dir
      · rw [if_pos hdir, if_pos rfl]
        exact ⟨_, rfl⟩
      · rw [if_neg hdir]
        exact ⟨_, rfl⟩

/-! ### The law -/

/-- The function returns, and when it reports success nothing is left below the path. -/
def RmLaw (sh : Sh) (path : CString) (recursive force : Bool) : Prop :=
  ∃ fuel r, rmRecursivePath fuel path.chars recursive force sh = some r ∧
    (r.2 = 0 → ∀ cs, resolve path.chars sh.kernel.proc.cwd.chars = some cs →
      ∀ q, Below cs q → walk r.1.kernel.vfs rootNode q = none)

/-- With `-r` and `-f`, the caller is refused at once or may remove everything below the path. -/
def RmWhen (sh : Sh) (path : CString) (recursive force : Bool) : Prop :=
  recursive = true → force = true → ∀ cs, resolve path.chars sh.kernel.proc.cwd.chars = some cs →
    Denied sh.kernel.proc cs ∨
      ∀ q n, Below cs q → walk sh.kernel.vfs rootNode q = some n → MayUnlink sh.kernel.vfs sh.kernel.proc q

/-- **When recursive removal keeps its law**, on every tree. -/
theorem rmRecursivePath_iff {sh : Sh} (hs : Wf sh.kernel.vfs) (hfit : PathsFit sh.kernel.vfs) (path : CString)
    (recursive force : Bool) : RmLaw sh path recursive force ↔ RmWhen sh path recursive force := by
  have hpost {cs : Comps} {fuel : ℕ} {r : Sh × ℤ} (hres : resolve path.chars sh.kernel.proc.cwd.chars = some cs)
      (h : rmRecursivePath fuel path.chars recursive force sh = some r) :=
    rmPost_of_returns fuel hs hfit path.nul_free hres h
  constructor
  · rintro ⟨fuel, r, hr, -⟩ rfl rfl cs hres
    by_cases hdenied : Denied sh.kernel.proc cs
    · exact .inl hdenied
    · refine .inr fun q n hq hn => ?_
      by_contra hstays
      rw [rm_diverges hs hfit path.nul_free hres hdenied hq hn hstays] at hr
      cases hr
  · intro hwhen
    have hreturns : ∃ fuel r, rmRecursivePath fuel path.chars recursive force sh = some r := by
      cases recursive with
      | false => exact ⟨1, rm_returns_of_not_recursive path.chars force sh⟩
      | true =>
        cases hres : resolve path.chars sh.kernel.proc.cwd.chars with
        | none =>
          have hnorm : vfsNormalize path.chars sh.kernel.proc.cwd.chars vfsPathMax = none := by
            rw [vfsNormalize_eq path.nul_free sh.kernel.proc.cwd.nul_free, hres]
            rfl
          exact ⟨1, _, by rw [rmRecursivePath, hnorm]⟩
        | some cs =>
          by_cases hdenied : Denied sh.kernel.proc cs
          · exact ⟨1, rm_returns_of_denied path.nul_free hres hdenied⟩
          · exact rm_returns hs hfit path.nul_free hres fun hf =>
              ((hwhen rfl hf cs hres).resolve_left hdenied)
    obtain ⟨fuel, r, hr⟩ := hreturns
    exact ⟨fuel, r, hr, fun hrc cs hres => (hpost hres hr).below hrc⟩

def shellOn (vfs : Pool) : Sh where
  kernel := { userKernel with vfs := vfs }
  db := ⟨fun _ => User.newRecord (lit "alice") 1000 1000 (lit "/home/alice") (lit "/bin/tsh"), 1, 0⟩
  console := ⟨false, 0, 0, [], []⟩
  ops := fun _ => []
  pipes := fun _ => []

/-- An empty directory. -/
theorem rmRecursivePath_tmp : RmLaw (shellOn vfsInit) ⟨lit "/tmp", by decide⟩ true true := by
  have hwf : Wf (shellOn vfsInit).kernel.vfs := wf_vfsInit
  refine (rmRecursivePath_iff hwf (pathsFit_of_reachable .init) _ _ _).2 ?_
  rintro - - cs hres
  have htmp : resolve (lit "/tmp") (shellOn vfsInit).kernel.proc.cwd.chars = some [lit "tmp"] := by
    decide +kernel
  obtain rfl := Option.some.inj (htmp.symm.trans hres)
  have hw : walk vfsInit rootNode [lit "tmp"] = some 8 := by decide +kernel
  have hleaf : (vfsInit.nodes 8).firstChild = none := by decide +kernel
  refine .inr fun q n hq hn => ?_
  rw [show (shellOn vfsInit).kernel.vfs = vfsInit from rfl, walk_below_of_leaf hw hleaf hq] at hn
  cases hn

/-- `/tmp/d` of root, with the file `f`. -/
def rootsDir : Pool :=
  (vfsCreateFile (vfsMkdir vfsInit (lit "/tmp/d") [slash] (vfsSIfdir ||| 0o755) 0 0).1 (lit "/tmp/d/f") [slash]
    (vfsSIfreg ||| 0o644) 0 0).1

theorem reachable_rootsDir : Reachable rootsDir :=
  .step (.createFile ⟨lit "/tmp/d/f", by decide⟩ ⟨[slash], by decide⟩ (vfsSIfreg ||| 0o644) 0 0)
    (.step (.mkdir ⟨lit "/tmp/d", by decide⟩ ⟨[slash], by decide⟩ (vfsSIfdir ||| 0o755) 0 0) .init rfl) rfl

/-- **A user's `rm -rf` of root's directory does not return.** -/
theorem not_rmLaw : ¬ ∀ sh : Sh, Wf sh.kernel.vfs → PathsFit sh.kernel.vfs →
    ∀ (path : CString) (recursive force : Bool), RmLaw sh path recursive force := by
  intro h
  obtain ⟨fuel, r, hr, -⟩ := h (shellOn rootsDir) (wf_of_reachable reachable_rootsDir)
    (pathsFit_of_reachable reachable_rootsDir) ⟨lit "/tmp/d", by decide⟩ true true
  have hres : resolve (lit "/tmp/d") (shellOn rootsDir).kernel.proc.cwd.chars = some [lit "tmp", lit "d"] := by
    decide +kernel
  have hdenied : ¬ Denied (shellOn rootsDir).kernel.proc [lit "tmp", lit "d"] := by
    rintro ⟨-, hprot⟩
    revert hprot
    decide +kernel
  have hdir : walk rootsDir rootNode [lit "tmp", lit "d"] = some 11 := by decide +kernel
  have hfile : walk rootsDir rootNode [lit "tmp", lit "d", lit "f"] = some 12 := by decide +kernel
  have hstays : ¬ MayUnlink rootsDir (shellOn rootsDir).kernel.proc [lit "tmp", lit "d", lit "f"] := by
    rintro ⟨pc, x, parent, hcs, hw, -, -, hwrite, -⟩
    obtain ⟨rfl, -⟩ := List.append_inj' (show [lit "tmp", lit "d"] ++ [lit "f"] = pc ++ [x] from hcs) rfl
    obtain rfl := Option.some.inj (hdir.symm.trans hw)
    revert hwrite
    decide +kernel
  rw [rm_diverges (wf_of_reachable reachable_rootsDir) (pathsFit_of_reachable reachable_rootsDir) (by decide) hres
    hdenied ⟨lit "f", [], rfl⟩ hfile hstays] at hr
  cases hr

end Tnu.Applets
