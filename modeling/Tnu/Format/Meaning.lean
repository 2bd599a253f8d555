/-
**What a format string stands for.**

A format string is read letter by letter, by an automaton: outside of a conversion a letter stands
for itself, and a percent sign opens one; inside, flags, width and length gather in a `Directive`
until a letter comes that continues none of them, which is the letter of the conversion.  A string
that ends inside a conversion is not complete.  The expansion puts the text of each conversion,
taken at its argument, in its place.

The arguments are the 8-byte slots `va_arg` takes one after the other; the strings they may point
to are given by a function.

Main definitions:

* `Directive`, `next`, `Complete` — reading;
* `Item`, `items` — the conversions and their arguments;
* `Item.text`, `expansion` — what they stand for.

Main results:

* `items_some`, `foldl_next_some` — a conversion is read up to its letter;
* `length_spec_le` — and the letters it takes are behind it.
-/

import Tnu.Printf

set_option autoImplicit false

namespace Tnu.Format

def ch (c : Char) : Byte := UInt8.ofNat c.toNat

/-! ### Reading a conversion -/

/-- What stands between the percent sign and the letter of a conversion. -/
structure Directive where
  left : Bool
  zero : Bool
  width : ℕ
  long : Bool
  deriving DecidableEq

def Directive.plain : Directive := ⟨false, false, 0, false⟩

/-- How far a conversion has been read: nothing, the minus sign, digits, one `l`, all of it. -/
inductive Stage
  | start | signed | sized | ell | full
  deriving DecidableEq

def isDigit (c : Byte) : Bool := ch '0' ≤ c && c ≤ ch '9'

/-- A letter of the length, or none that continues the conversion. -/
def growLength (d : Directive) (c : Byte) : Option (Stage × Directive) :=
  if c = ch 'l' then some (.ell, { d with long := true })
  else if c = ch 'z' then some (.full, { d with long := true })
  else none

def growWidth (d : Directive) (c : Byte) : Option (Stage × Directive) :=
  if isDigit c then some (.sized, { d with width := d.width * 10 + (c.toNat - 48) })
  else growLength d c

def growZero (d : Directive) (c : Byte) : Option (Stage × Directive) :=
  if c = ch '0' then some (.sized, { d with zero := true }) else growWidth d c

def grow : Stage → Directive → Byte → Option (Stage × Directive)
  | .start, d, c => if c = ch '-' then some (.signed, { d with left := true }) else growZero d c
  | .signed, d, c => growZero d c
  | .sized, d, c => growWidth d c
  | .ell, d, c => if c = ch 'l' then some (.full, d) else none
  | .full, _, _ => none

/-- One letter, outside (`none`) or inside of a conversion. -/
def next : Option (Stage × Directive) → Byte → Option (Stage × Directive)
  | none, c => if c = ch '%' then some (.start, .plain) else none
  | some (st, d), c => grow st d c

def Complete (s : List Byte) : Prop := s.foldl next none = none

instance (s : List Byte) : Decidable (Complete s) := by
  unfold Complete
  infer_instance

def spec : Stage → Directive → List Byte → Directive × List Byte
  | _, d, [] => (d, [])
  | st, d, c :: s =>
    match grow st d c with
    | some (st', d') => spec st' d' s
    | none => (d, c :: s)

/-! ### Conversions and their arguments -/

/-- The slots of a `va_list`, from the next one on. -/
abbrev Slots := ℕ → UInt64

def Slots.rest (ap : Slots) : Slots := fun n => ap (n + 1)

/-- What the letter of a conversion asks for. -/
inductive Case
  | percent | char | string | signed | unsigned (base : ℕ) (upper : Bool) | pointer | double | other
  deriving DecidableEq

/-- The conversions of `kvsnprintf`. -/
def caseOf (c : Byte) : Case :=
  if c = ch '%' then .percent
  else if c = ch 'c' then .char
  else if c = ch 's' then .string
  else if c = ch 'd' ∨ c = ch 'i' then .signed
  else if c = ch 'u' then .unsigned 10 false
  else if c = ch 'o' then .unsigned 8 false
  else if c = ch 'x' then .unsigned 16 false
  else if c = ch 'X' then .unsigned 16 true
  else if c = ch 'p' then .pointer
  else .other

def Case.takes : Case → Bool
  | .percent | .other => false
  | _ => true

/-- A letter of the string that stands for itself, or a conversion with the slot it finds. -/
inductive Item
  | lit (c : Byte)
  | conv (d : Directive) (c : Byte) (arg : UInt64)
  deriving DecidableEq

def items : Option (Stage × Directive) → List Byte → Slots → List Item
  | _, [], _ => []
  | none, c :: s, ap =>
    if c = ch '%' then items (some (.start, .plain)) s ap else .lit c :: items none s ap
  | some (st, d), c :: s, ap =>
    match grow st d c with
    | some x => items (some x) s ap
    | none => .conv d c (ap 0) :: items none s (if (caseOf c).takes then ap.rest else ap)

/-! ### Texts -/

def digit (upper : Bool) (d : ℕ) : Byte :=
  if d < 10 then UInt8.ofNat (48 + d) else UInt8.ofNat ((if upper then 55 else 87) + d)

def numeral (base : ℕ) (upper : Bool) (n : ℕ) : List Byte :=
  if n = 0 then [ch '0'] else (Nat.digits base n).reverse.map (digit upper)

def integer (z : ℤ) : List Byte :=
  if z < 0 then ch '-' :: numeral 10 false z.natAbs else numeral 10 false z.natAbs

def signOf (text : List Byte) : List Byte :=
  if text.head? = some (ch '-') then [ch '-'] else []

/-- A text in its field: on the left, or on the right behind blanks, or behind zeros that follow
the sign. -/
def padded (d : Directive) (text : List Byte) : List Byte :=
  let gap := d.width - text.length
  if d.left then text ++ List.replicate gap (ch ' ')
  else if d.zero then
    signOf text ++ List.replicate gap (ch '0') ++ text.drop (signOf text).length
  else List.replicate gap (ch ' ') ++ text

/-- The integer in a slot: all of it, or an `int`. -/
def signedArg (long : Bool) (v : UInt64) : ℤ :=
  (v.toNat : ℤ).bmod (if long then 2 ^ 64 else 2 ^ 32)

/-- The number in a slot: all of it, or an `unsigned int`. -/
def unsignedArg (long : Bool) (v : UInt64) : ℕ := if long then v.toNat else v.toNat % 2 ^ 32

def stringArg (str : UInt64 → CString) (v : UInt64) : List Byte :=
  if v = 0 then lit "(null)" else (str v).chars

def Item.text (str : UInt64 → CString) : Item → List Byte
  | .lit c => [c]
  | .conv d c v =>
    match caseOf c with
    | .percent => [ch '%']
    | .char => padded d [v.toUInt8]
    | .string => padded d (stringArg str v)
    | .signed => padded d (integer (signedArg d.long v))
    | .unsigned base upper => padded d (numeral base upper (unsignedArg d.long v))
    | .pointer => [ch '0', ch 'x'] ++ padded d (numeral 16 false v.toNat)
    | _ => [ch '%', c]

def expansion (str : UInt64 → CString) (s : List Byte) (ap : Slots) : List Byte :=
  (items none s ap).flatMap (Item.text str)

/-! ### A conversion is read up to its letter -/

theorem items_some (st : Stage) (d : Directive) (s : List Byte) (ap : Slots) :
    items (some (st, d)) s ap =
      match spec st d s with
      | (_, []) => []
      | (d', c :: s') =>
        .conv d' c (ap 0) :: items none s' (if (caseOf c).takes then ap.rest else ap) := by
  induction s generalizing st d with
  | nil => rfl
  | cons c s ih =>
    rw [items, spec]
    cases hg : grow st d c with
    | none => rfl
    | some x => exact ih x.1 x.2

theorem foldl_next_some (st : Stage) (d : Directive) (s : List Byte) :
    s.foldl next (some (st, d)) = none ↔
      ∃ c s', (spec st d s).2 = c :: s' ∧ s'.foldl next none = none := by
  induction s generalizing st d with
  | nil => simp [spec]
  | cons c s ih =>
    rw [List.foldl_cons, next, spec]
    cases hg : grow st d c with
    | none => simp
    | some x => exact ih x.1 x.2

theorem spec_start_minus (d : Directive) (s : List Byte) :
    spec .start d (ch '-' :: s) = spec .signed { d with left := true } s := rfl

theorem spec_start_of_ne {c : Byte} (hc : c ≠ ch '-') (d : Directive) (s : List Byte) :
    spec .start d (c :: s) = spec .signed d (c :: s) := by
  rw [spec, spec, grow, grow, if_neg hc]

theorem spec_signed_zero (d : Directive) (s : List Byte) :
    spec .signed d (ch '0' :: s) = spec .sized { d with zero := true } s := rfl

theorem spec_signed_of_ne {c : Byte} (hc : c ≠ ch '0') (d : Directive) (s : List Byte) :
    spec .signed d (c :: s) = spec .sized d (c :: s) := by
  rw [spec, spec, grow, grow, growZero, if_neg hc]

theorem length_spec_le (st : Stage) (d : Directive) (s : List Byte) :
    (spec st d s).2.length ≤ s.length := by
  induction s generalizing st d with
  | nil => exact le_rfl
  | cons c s ih =>
    rw [spec]
    cases hg : grow st d c with
    | none => exact le_rfl
    | some x => exact (ih x.1 x.2).trans (by simp)

theorem mem_of_mem_spec {st : Stage} {d : Directive} {s : List Byte} {b : Byte}
    (h : b ∈ (spec st d s).2) : b ∈ s := by
  induction s generalizing st d with
  | nil => exact h
  | cons c s ih =>
    rw [spec] at h
    cases hg : grow st d c with
    | none => rwa [hg] at h
    | some x =>
      rw [hg] at h
      exact List.mem_cons_of_mem c (ih h)

end Tnu.Format
