/-
**Sorting and searching in the C library.**

`qsort` of `libc/src/posix_extra.c` inserts the elements one after the other: a copy of the element
is kept aside, the greater ones before it are moved up, and the copy is put where the last of them
was.  `bsearch` halves the interval that can still hold the key.  An element is `size` bytes, and
elements are read and written through functions that fail outside the array.

Main definitions:

* `qsort`, `bsearch` — the two functions.

Main result:

* `sorting_searching` — **the array is sorted, and elements are found in it**.
-/

import Tnu.CString
import Tnu.Lib.Insertion

set_option autoImplicit false

namespace Tnu.Libc.Sort

variable {size : ℕ}

/-! ### The functions -/

abbrev Element (size : ℕ) := Fin size → Byte

/-- Where the array of `nmemb` elements of `size` bytes lies. -/
structure SortArray (size : ℕ) where
  base : ℕ
  nmemb : ℕ

/-- The element at `b + i * size`. -/
def block (a : SortArray size) (mem : ℕ → Byte) (i : ℕ) : Element size := fun k => mem (a.base + i * size + k)

/-- The memory with an element written at `b + i * size`. -/
def store (a : SortArray size) (mem : ℕ → Byte) (i : ℕ) (x : Element size) : ℕ → Byte := fun b =>
  if h : a.base + i * size ≤ b ∧ b < a.base + i * size + size then
    x ⟨b - (a.base + i * size), by omega⟩
  else mem b

def read (a : SortArray size) (mem : ℕ → Byte) (i : ℕ) : Option (Element size) :=
  if i < a.nmemb then some (block a mem i) else none

def write (a : SortArray size) (mem : ℕ → Byte) (i : ℕ) (x : Element size) : Option (ℕ → Byte) :=
  if i < a.nmemb then some (store a mem i x) else none

section Functions

variable (compar : Element size → Element size → ℤ) (a : SortArray size)

/-- `while (j > 0 && compar(b + (j - 1) * size, tmp) > 0) { … }`, and the copy after it. -/
def place (tmp : Element size) : ℕ → (ℕ → Byte) → Option (ℕ → Byte)
  | 0, mem => write a mem 0 tmp
  | j + 1, mem => do
    let x ← read a mem j
    if compar x tmp > 0 then place tmp j (← write a mem (j + 1) x) else write a mem (j + 1) tmp

/-- `for (size_t i = 1; i < nmemb; i++) { … }`, `left` elements before the end. -/
def rounds : ℕ → (ℕ → Byte) → Option (ℕ → Byte)
  | 0, mem => some mem
  | left + 1, mem => do
    let i := a.nmemb - (left + 1)
    rounds left (← place compar a (← read a mem i) i mem)

/-- `granted`: whether `malloc(size)` gives the room for the copy. -/
def qsort (granted : Bool) (mem : ℕ → Byte) : Option (ℕ → Byte) :=
  if granted then rounds compar a (a.nmemb - 1) mem else some mem

/-- The loop of `bsearch`: the place of the element, or `NULL`. -/
def bsearchLoop (mem : ℕ → Byte) (key : Element size) (lo hi : ℕ) : Option (Option ℕ) :=
  if lo < hi then do
    let mid := lo + (hi - lo) / 2
    let c := compar key (← read a mem mid)
    if c = 0 then return some mid
    if c < 0 then bsearchLoop mem key lo mid else bsearchLoop mem key (mid + 1) hi
  else return none
  termination_by hi - lo

def bsearch (mem : ℕ → Byte) (key : Element size) : Option (Option ℕ) :=
  bsearchLoop compar a mem key 0 a.nmemb

/-- **A comparison that is a total preorder**: its sign turns with its arguments. -/
structure TotalPreorder : Prop where
  flip : ∀ x y, 0 < compar x y ↔ compar y x < 0
  trans : ∀ x y z, compar x y ≤ 0 → compar y z ≤ 0 → compar x z ≤ 0

/-- The elements of the array, the first `n` of them. -/
def elements (mem : ℕ → Byte) (n : ℕ) : List (Element size) := (List.range n).map (block a mem)

def Frame (mem mem' : ℕ → Byte) : Prop :=
  ∀ b, b < a.base ∨ a.base + a.nmemb * size ≤ b → mem' b = mem b

end Functions

/-! ### Elements of an array -/

variable {compar : Element size → Element size → ℤ} {a : SortArray size} {mem mem' : ℕ → Byte} {i j n : ℕ}
  {x tmp : Element size}

theorem block_store_self (a : SortArray size) (mem : ℕ → Byte) (i : ℕ) (x : Element size) :
    block a (store a mem i x) i = x := by
  funext k
  have hk := k.isLt
  rw [block, store, dif_pos ⟨by omega, by omega⟩]
  congr 1
  exact Fin.ext (Nat.add_sub_cancel_left _ _)

theorem block_store_of_ne (h : j ≠ i) : block a (store a mem i x) j = block a mem j := by
  funext k
  have hk := k.isLt
  rw [block, store, dif_neg]
  · rfl
  · rintro ⟨hlow, hhigh⟩
    rcases lt_or_gt_of_ne h with hlt | hgt
    · have := Nat.mul_le_mul_right size (show j + 1 ≤ i from hlt)
      rw [add_one_mul] at this
      omega
    · have := Nat.mul_le_mul_right size (show i + 1 ≤ j from hgt)
      rw [add_one_mul] at this
      omega

theorem frame_store (h : i < a.nmemb) : Frame a mem (store a mem i x) := by
  intro b hb
  have := Nat.mul_le_mul_right size (show i + 1 ≤ a.nmemb from h)
  rw [add_one_mul] at this
  exact dif_neg (by omega)

theorem Frame.trans {mem'' : ℕ → Byte} (h : Frame a mem mem') (h' : Frame a mem' mem'') :
    Frame a mem mem'' := fun b hb => (h' b hb).trans (h b hb)

theorem elements_succ (a : SortArray size) (mem : ℕ → Byte) (n : ℕ) :
    elements a mem (n + 1) = elements a mem n ++ [block a mem n] := by
  rw [elements, List.range_succ, List.map_append]
  rfl

theorem elements_congr (h : ∀ i < n, block a mem' i = block a mem i) :
    elements a mem' n = elements a mem n :=
  List.map_congr_left fun i hi => h i (List.mem_range.1 hi)

theorem elements_store (a : SortArray size) (mem : ℕ → Byte) (n : ℕ) (x : Element size) :
    elements a (store a mem n x) (n + 1) = elements a mem n ++ [x] := by
  rw [elements_succ, block_store_self, elements_congr fun i hi => block_store_of_ne (by omega)]

/-! ### Sorting -/

section Key

variable {κ : Type} [LinearOrder κ] {key : Element size → κ}

/-- **One element goes where `Insertion.insert` puts it**, and the elements behind it stay. -/
theorem place_eq (tmp : Element size) (mem : ℕ → Byte) (hkey : ∀ x y, key x < key y ↔ 0 < compar y x) (hj : j < a.nmemb) :
    ∃ mem', place compar a tmp j mem = some mem' ∧
      elements a mem' (j + 1) = Insertion.insert key (elements a mem j) tmp ∧
      (∀ i, j < i → block a mem' i = block a mem i) ∧ Frame a mem mem' := by
  induction j generalizing mem with
  | zero =>
    refine ⟨store a mem 0 tmp, if_pos hj, ?_, fun i hi => block_store_of_ne (by omega), frame_store hj⟩
    rw [elements_store]
    rfl
  | succ j ih =>
    have hread : read a mem j = some (block a mem j) := if_pos (by omega)
    rw [place, hread, Option.bind_eq_bind, Option.bind_some, elements_succ a mem j, Insertion.insert_concat]
    split_ifs with hpos hlt hlt
    · -- the element before is greater: it moves up, and the rest is the shorter array
      obtain ⟨mem', hrun, hels, hbehind, hframe⟩ :=
        @ih (store a mem (j + 1) (block a mem j)) (by omega)
      refine ⟨mem', ?_, ?_, fun i hi => ?_, (frame_store hj).trans hframe⟩
      · rw [write, if_pos hj]
        exact hrun
      · rw [elements_succ a mem' (j + 1), hels, hbehind (j + 1) (by omega), block_store_self,
          elements_congr fun i hi => block_store_of_ne (by omega)]
      · rw [hbehind i (by omega), block_store_of_ne (by omega)]
    · exact absurd ((hkey _ _).2 hpos) hlt
    · exact absurd ((hkey _ _).1 hlt) hpos
    · refine ⟨store a mem (j + 1) tmp, if_pos hj, ?_, fun i hi => block_store_of_ne (by omega), frame_store hj⟩
      rw [elements_store, elements_succ]

theorem rounds_eq (hkey : ∀ x y, key x < key y ↔ 0 < compar y x) {left : ℕ} {src : List (Element size)}
    (hleft : left ≤ a.nmemb) (h : Insertion.StablySorted key (elements a mem (a.nmemb - left)) src) :
    ∃ mem', rounds compar a left mem = some mem' ∧
      Insertion.StablySorted key (elements a mem' a.nmemb)
        (src ++ (List.range' (a.nmemb - left) left).map (block a mem)) ∧ Frame a mem mem' := by
  induction left generalizing mem src with
  | zero =>
    refine ⟨mem, rfl, ?_, fun _ _ => rfl⟩
    rw [List.range'_zero, List.map_nil, List.append_nil]
    exact h
  | succ left ih =>
    obtain ⟨i, hi⟩ : ∃ i, a.nmemb = i + (left + 1) := ⟨a.nmemb - (left + 1), by omega⟩
    have hat : a.nmemb - (left + 1) = i := by omega
    have hnext : a.nmemb - left = i + 1 := by omega
    rw [hat] at h ⊢
    rw [hnext] at ih
    obtain ⟨mem₁, hplace, hels, hbehind, hframe⟩ :=
      place_eq (block a mem i) mem hkey (show i < a.nmemb by omega)
    have hsorted := h.insert (block a mem i)
    rw [← hels] at hsorted
    obtain ⟨mem', hrun, hdone, hframe'⟩ := ih (by omega) hsorted
    refine ⟨mem', ?_, ?_, hframe.trans hframe'⟩
    · rw [rounds, hat, read, if_pos (by omega)]
      simp only [Option.bind_eq_bind, Option.bind_some]
      rw [hplace, Option.bind_some, hrun]
    · have hrest : (List.range' (i + 1) left).map (block a mem₁) =
          (List.range' (i + 1) left).map (block a mem) :=
        List.map_congr_left fun k hk => hbehind k (by
          have := List.mem_range'_1.1 hk
          omega)
      rwa [hrest, List.append_assoc, List.singleton_append, ← List.map_cons, ← List.range'_succ] at hdone

end Key

/-! ### Searching -/

theorem TotalPreorder.total (h : TotalPreorder compar) (x y : Element size) :
    compar x y ≤ 0 ∨ compar y x ≤ 0 := by
  have := h.flip x y
  omega

theorem TotalPreorder.lt_of_lt_of_le (h : TotalPreorder compar) {x y z : Element size} (hxy : compar x y < 0)
    (hyz : compar y z ≤ 0) : compar x z < 0 := by
  by_contra hxz
  have hzx : compar z x ≤ 0 := by
    have := h.flip z x
    omega
  have hyx := h.trans y z x hyz hzx
  have := h.flip y x
  omega

theorem TotalPreorder.pos_of_pos_of_le (h : TotalPreorder compar) {x y z : Element size} (hxy : 0 < compar x y)
    (hzy : compar z y ≤ 0) : 0 < compar x z := by
  by_contra hxz
  have := h.trans x z y (by omega) hzy
  omega

def SortedBy (compar : Element size → Element size → ℤ) (a : SortArray size) (mem : ℕ → Byte) : Prop :=
  ∀ i j, i < j → j < a.nmemb → compar (block a mem i) (block a mem j) ≤ 0

theorem bsearchLoop_eq (h : TotalPreorder compar) (hsorted : SortedBy compar a mem) (key : Element size)
    (lo hi : ℕ) (hhi : hi ≤ a.nmemb) (hbelow : ∀ i < lo, 0 < compar key (block a mem i))
    (habove : ∀ i, hi ≤ i → i < a.nmemb → compar key (block a mem i) < 0) :
    ∃ found, bsearchLoop compar a mem key lo hi = some found ∧
      (∀ i, found = some i → i < a.nmemb ∧ compar key (block a mem i) = 0) ∧
      (found = none → ∀ i < a.nmemb, compar key (block a mem i) ≠ 0) := by
  induction hn : hi - lo using Nat.strong_induction_on generalizing lo hi with
  | _ n ih =>
    subst hn
    rw [bsearchLoop]
    by_cases hlt : lo < hi
    · have hmid : lo + (hi - lo) / 2 < hi := by omega
      rw [if_pos hlt]
      simp only [read, if_pos (hmid.trans_le hhi), Option.bind_eq_bind, Option.bind_some]
      split_ifs with hzero hneg
      · refine ⟨_, rfl, fun i hi' => ?_, nofun⟩
        obtain rfl := Option.some.inj hi'
        exact ⟨by omega, hzero⟩
      · -- the element in the middle is greater, and so are those behind it
        refine ih _ (by omega) lo _ (by omega) hbelow (fun i hge hi' => ?_) rfl
        rcases hge.eq_or_lt with rfl | hgt
        · exact hneg
        · exact h.lt_of_lt_of_le hneg (hsorted _ i hgt hi')
      · have hpos : 0 < compar key (block a mem (lo + (hi - lo) / 2)) := by omega
        refine ih _ (by omega) _ hi hhi (fun i hlt' => ?_) habove rfl
        rcases (Nat.le_of_lt_succ hlt').eq_or_lt with rfl | hless
        · exact hpos
        · exact h.pos_of_pos_of_le hpos (hsorted i _ hless (by omega))
    · rw [if_neg hlt]
      refine ⟨none, rfl, nofun, fun _ i hi' => ?_⟩
      rcases lt_or_ge i lo with hlow | hhigh
      · exact (hbelow i hlow).ne'
      · exact (habove i (by omega) hi').ne

theorem sortedBy_iff : SortedBy compar a mem ↔
    (elements a mem a.nmemb).Pairwise fun x y => compar x y ≤ 0 := by
  rw [elements, List.pairwise_map, List.pairwise_iff_getElem]
  constructor
  · intro h i j hi hj hij
    simp only [List.getElem_range]
    exact h i j hij (by rwa [List.length_range] at hj)
  · intro h i j hij hj
    have := h i j (by rw [List.length_range]; omega) (by rwa [List.length_range]) hij
    simpa only [List.getElem_range] using this

/-- **`qsort` sorts**: the elements are the same, in order, and equal ones stand as they stood. -/
theorem qsort_eq (h : TotalPreorder compar) (a : SortArray size) (mem : ℕ → Byte) :
    ∃ mem', qsort compar a true mem = some mem' ∧ Frame a mem mem' ∧
      (elements a mem' a.nmemb).Perm (elements a mem a.nmemb) ∧ SortedBy compar a mem' ∧
      ∀ x : Element size, (elements a mem' a.nmemb).filter (fun y => compar y x = 0) =
        (elements a mem a.nmemb).filter fun y => compar y x = 0 := by
  obtain ⟨κ, _, key, hle⟩ := Insertion.exists_key (fun x y => compar x y ≤ 0) h.total h.trans
  have hlt : ∀ x y, key x < key y ↔ 0 < compar y x := by
    intro x y
    rw [← not_le, hle, not_le]
  have heq : ∀ x y, key x = key y ↔ compar x y = 0 := by
    intro x y
    rw [le_antisymm_iff, hle, hle]
    have := h.flip y x
    have := h.flip x y
    omega
  have hfirst : Insertion.StablySorted key (elements a mem (a.nmemb - (a.nmemb - 1)))
      (elements a mem (a.nmemb - (a.nmemb - 1))) := by
    have hshort : a.nmemb - (a.nmemb - 1) = 0 ∨ a.nmemb - (a.nmemb - 1) = 1 := by omega
    refine ⟨List.Perm.refl _, ?_, fun _ => rfl⟩
    rcases hshort with h0 | h1
    · rw [h0]
      exact List.Pairwise.nil
    · rw [h1]
      exact List.pairwise_singleton _ _
  obtain ⟨mem', hrun, hsorted, hframe⟩ := rounds_eq hlt (Nat.sub_le _ _) hfirst
  have hsrc : elements a mem (a.nmemb - (a.nmemb - 1)) ++
      (List.range' (a.nmemb - (a.nmemb - 1)) (a.nmemb - 1)).map (block a mem) =
        elements a mem a.nmemb := by
    have hadd : a.nmemb - (a.nmemb - 1) + (a.nmemb - 1) = a.nmemb := by omega
    have happend : List.range' 0 (a.nmemb - (a.nmemb - 1)) ++ List.range' (a.nmemb - (a.nmemb - 1)) (a.nmemb - 1) =
        List.range' 0 a.nmemb := by
      conv_rhs => rw [← hadd, ← List.range'_append_1, Nat.zero_add]
    rw [elements, elements, ← List.map_append, List.range_eq_range', List.range_eq_range', happend]
  rw [hsrc] at hsorted
  refine ⟨mem', hrun, hframe, hsorted.perm, sortedBy_iff.2 ?_, fun x => ?_⟩
  · exact hsorted.sorted.imp fun hxy => (hle _ _).1 hxy
  · have := hsorted.stable (key x)
    simpa only [heq] using this

/-- **The array is sorted, and elements are found in it**, whatever the comparison and the size; no
byte outside the array is read or written. -/
theorem sorting_searching (h : TotalPreorder compar) (a : SortArray size) (mem : ℕ → Byte) :
    (∃ mem', qsort compar a true mem = some mem' ∧ Frame a mem mem' ∧
      (elements a mem' a.nmemb).Perm (elements a mem a.nmemb) ∧ SortedBy compar a mem' ∧
      ∀ x : Element size, (elements a mem' a.nmemb).filter (fun y => compar y x = 0) =
        (elements a mem a.nmemb).filter fun y => compar y x = 0) ∧
      (SortedBy compar a mem → ∀ key, ∃ found, bsearch compar a mem key = some found ∧
        (∀ i, found = some i → i < a.nmemb ∧ compar key (block a mem i) = 0) ∧
        (found = none → ∀ i < a.nmemb, compar key (block a mem i) ≠ 0)) := by
  refine ⟨qsort_eq h a mem, fun hsorted key => bsearchLoop_eq h hsorted key 0 a.nmemb le_rfl ?_ ?_⟩
  · exact fun i hi => absurd hi (Nat.not_lt_zero i)
  · exact fun i hge hlt => absurd hlt (not_lt.2 hge)

def compareBytes (x y : Element 1) : ℤ := (x 0).toNat - (y 0).toNat

theorem sorting_searching_bytes : ∃ mem', qsort compareBytes ⟨2, 3⟩ true (fun b => UInt8.ofNat (9 - b)) = some mem' ∧
    SortedBy compareBytes ⟨2, 3⟩ mem' := by
  have horder : TotalPreorder compareBytes :=
    { flip := fun x y => by
        rw [compareBytes, compareBytes]
        omega
      trans := fun x y z hxy hyz => by
        rw [compareBytes] at *
        omega }
  obtain ⟨⟨mem', hrun, -, -, hsorted, -⟩, -⟩ :=
    sorting_searching horder ⟨2, 3⟩ fun b => UInt8.ofNat (9 - b)
  exact ⟨mem', hrun, hsorted⟩

end Tnu.Libc.Sort
