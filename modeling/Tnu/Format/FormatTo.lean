/-
**The formatter of the C library.**

`format_to` of `userspace/libc/src/stdio.c`.  It reads more than `kvsnprintf` — every flag in any
order, a star for the width, a precision — and does less with it: the width is the least number of
digits when the flag for zeros is there, and nothing otherwise, and there is one set of digits.
On the conversions that both formatters have code for, the two read the same.

Main definitions:

* `emitChar`, `emitUnsignedWidth`, `parseLibcSpec` — the helpers.

Main result:

* `vsnprintf_eq` — **a complete string of such conversions is read up to its
  terminator**.
-/

import Tnu.Format.Kvsnprintf

set_option autoImplicit false

namespace Tnu.Format

open BoundedText

/-! ### The source -/

/-- `struct format_out`; a stream is what has been written to it. -/
structure FormatOut where
  buf : Option (ℕ → Byte)
  size : ℕ
  pos : ℕ
  stream : Option (List Byte)

def emitChar (o : FormatOut) (c : Byte) : FormatOut :=
  match o.buf with
  | some m =>
    if o.size ≠ 0 then
      if o.pos + 1 < o.size then
        { o with buf := some (Function.update m o.pos c), pos := o.pos + 1 }
      else { o with pos := o.pos + 1 }
    else { o with stream := o.stream.map (· ++ [c]), pos := o.pos + 1 }
  | none => { o with stream := o.stream.map (· ++ [c]), pos := o.pos + 1 }

/-- `emit_string`, and every loop that puts out a text. -/
def emitString (o : FormatOut) (s : List Byte) : FormatOut := s.foldl emitChar o

def emitStringN (o : FormatOut) (s : List Byte) (precision : ℤ) : FormatOut :=
  emitString o (if precision < 0 then s else s.take precision.toNat)

def emitUnsignedWidth (o : FormatOut) (value base : ℕ) (alt : Bool) (width precision : ℤ)
    (zeroPad : Bool) : FormatOut :=
  let o := if alt = true ∧ base = 16 then emitString o [ch '0', ch 'x'] else o
  let digits := unsignedToString base false value
  let minDigits := if 0 ≤ precision then precision else if zeroPad then width else 0
  emitString (emitString o (List.replicate (minDigits - digits.length).toNat (ch '0'))) digits

/-- The flags `format_to` steps over. -/
def isFlag (c : Byte) : Bool :=
  c == ch ' ' || c == ch '#' || c == ch '+' || c == ch '-' || c == ch '0'

def parseFlags (alt zeroPad : Bool) : List Byte → Option (Bool × Bool × List Byte)
  | [] => none
  | c :: p =>
    if isFlag c then
      if c = ch '#' then parseFlags true zeroPad p
      else if c = ch '0' then parseFlags alt true p
      else parseFlags alt zeroPad p
    else some (alt, zeroPad, c :: p)

/-- A star takes a number from the arguments; digits may follow it. -/
def parseNumber (p : List Byte) (ap : Slots) : Option (ℤ × List Byte × Slots) := do
  let c ← p.head?
  if c = ch '*' then
    let (n, p) ← parseWidth (signedArg false (ap 0)) p.tail
    some (n, p, ap.rest)
  else
    let (n, p) ← parseWidth 0 p
    some (n, p, ap)

/-- A conversion as `format_to` keeps it; its three long lengths are all of 8 bytes. -/
structure LibcSpec where
  alt : Bool
  zeroPad : Bool
  width : ℤ
  precision : ℤ
  long : Bool

/-- `format_to` from behind a percent sign to the letter of the conversion. -/
def parseLibcSpec (p : List Byte) (ap : Slots) : Option (LibcSpec × List Byte × Slots) := do
  let (alt, zeroPad, p) ← parseFlags false false p
  let (width, p, ap) ← parseNumber p ap
  let c ← p.head?
  let (precision, p, ap) ← if c = ch '.' then parseNumber p.tail ap else some (-1, p, ap)
  let (long, p) ← parseLength p
  some (⟨alt, zeroPad, width, precision, long⟩, p, ap)

/-- The `switch` of `format_to`: a percent sign has been dealt with before. -/
def libcCaseOf (c : Byte) : Case :=
  if c = ch 'c' then .char
  else if c = ch 's' then .string
  else if c = ch 'd' ∨ c = ch 'i' then .signed
  else if c = ch 'u' then .unsigned 10 false
  else if c = ch 'o' then .unsigned 8 false
  else if c = ch 'x' ∨ c = ch 'X' then .unsigned 16 false
  else if c = ch 'p' then .pointer
  else if c = ch 'f' then .double
  else .other

/-- What `format_to` does in it. -/
def libcConvert (str : UInt64 → CString) (o : FormatOut) (ap : Slots) (sp : LibcSpec)
    (c : Byte) : FormatOut × Slots :=
  match libcCaseOf c with
  | .char => (emitChar o (ap 0).toUInt8, ap.rest)
  | .string => (emitStringN o (stringArg str (ap 0)) sp.precision, ap.rest)
  | .signed =>
    let value := signedArg sp.long (ap 0)
    let o := if value < 0 then emitChar o (ch '-') else o
    (emitUnsignedWidth o value.natAbs 10 false sp.width sp.precision sp.zeroPad, ap.rest)
  | .unsigned base _ =>
    (emitUnsignedWidth o (unsignedArg sp.long (ap 0)) base sp.alt sp.width sp.precision
      sp.zeroPad, ap.rest)
  | .pointer =>
    (emitUnsignedWidth o (ap 0).toNat 16 true sp.width sp.precision sp.zeroPad, ap.rest)
  | .double => (emitString o (lit "0.000000"), ap.rest)
  | _ => (emitChar (emitChar o (ch '%')) c, ap)

/-- The loop of `format_to`. -/
def formatToLoop (str : UInt64 → CString) :
    ℕ → List Byte → Slots → FormatOut → Option FormatOut
  | 0, _, _, _ => none
  | fuel + 1, fmt, ap, o => do
      let c ← fmt.head?
      if c = 0 then some o
      else if c ≠ ch '%' then formatToLoop str fuel fmt.tail ap (emitChar o c)
      else
        let c ← fmt.tail.head?
        if c = ch '%' then formatToLoop str fuel fmt.tail.tail ap (emitChar o (ch '%'))
        else
          let (sp, p, ap) ← parseLibcSpec fmt.tail ap
          let c ← p.head?
          let (o, ap) := libcConvert str o ap sp c
          formatToLoop str fuel p.tail ap o

/-- `format_to`: what it leaves, and the value that is returned. -/
def formatTo (str : UInt64 → CString) (o : FormatOut) (fmt : CString) (ap : Slots) :
    Option (FormatOut × ℤ) := do
  let o ← formatToLoop str (fmt.chars.length + 2) (fmt.chars ++ [0]) ap o
  let buf := o.buf.map fun m =>
    if o.size ≠ 0 then Function.update m (if o.pos < o.size then o.pos else o.size - 1) 0 else m
  some ({ o with buf := buf }, wrap o.pos)

/-- `vsnprintf`: the memory from the buffer on, and the value that is returned. -/
def vsnprintf (str : UInt64 → CString) (size : ℕ) (buf : ℕ → Byte) (fmt : CString)
    (ap : Slots) : Option ((ℕ → Byte) × ℤ) := do
  let (o, ret) ← formatTo str ⟨some buf, size, 0, none⟩ fmt ap
  some (o.buf.getD buf, ret)

/-! ### Output -/

/-- **A text that is put out letter by letter is stored**, as much of it as fits. -/
theorem foldl_emitChar (size : ℕ) (buf : ℕ → Byte) (text : List Byte) :
    emitString ⟨some buf, size, 0, none⟩ text =
      ⟨some (BoundedText.store buf 0 (text.take (size - 1))), size, text.length, none⟩ := by
  -- letter by letter, the last one at the end
  induction text using List.reverseRecOn with
  | nil => simp [emitString, BoundedText.store]
  | append_singleton text c ih =>
    have hfold : emitString ⟨some buf, size, 0, none⟩ (text ++ [c]) =
        emitChar (emitString ⟨some buf, size, 0, none⟩ text) c := by
      rw [emitString, List.foldl_append]
      rfl
    have hlen : (text ++ [c]).length = text.length + 1 := by simp
    rw [hfold, ih, emitChar]
    dsimp only
    by_cases h0 : size = 0
    · subst h0
      simp [BoundedText.store]
    rw [if_pos h0, hlen]
    by_cases hroom : text.length + 1 < size
    · rw [if_pos hroom, List.take_of_length_le (by omega), List.take_of_length_le (by omega),
        store_snoc, Nat.zero_add]
    · rw [if_neg hroom, List.take_append_of_le_length (by omega)]

theorem emitString_append (o : FormatOut) (s t : List Byte) :
    emitString o (s ++ t) = emitString (emitString o s) t := List.foldl_append

/-! ### Reading a conversion -/

/-- What both formatters have code for: no percent sign behind flags, no field for a character or a
string, and for a number a field of zeros only. -/
def Directive.Shared (d : Directive) : Case → Prop
  | .percent => d = .plain
  | .char | .string => d.left = false ∧ d.width = 0
  | .signed | .unsigned _ _ | .pointer => d.left = false ∧ (d.zero = false → d.width = 0)
  | _ => False

instance (d : Directive) (k : Case) : Decidable (d.Shared k) := by
  cases k <;> unfold Directive.Shared <;> infer_instance

def Item.Shared : Item → Prop
  | .lit _ => True
  | .conv d c _ => d.Shared (caseOf c)

instance : DecidablePred Item.Shared
  | .lit _ => inferInstanceAs (Decidable True)
  | .conv d c _ => inferInstanceAs (Decidable (d.Shared (caseOf c)))

theorem letter_of_caseOf {c : Byte} (hc : caseOf c ≠ .other) :
    isFlag c = false ∧ c ≠ ch '*' ∧ c ≠ ch '.' ∧ c ≠ 0 := by
  have hne : ∀ b : Byte, caseOf b = .other → c ≠ b := by
    rintro b hb rfl
    exact hc hb
  have hflag : isFlag c = false := by
    simp only [isFlag, Bool.or_eq_false_iff, beq_eq_false_iff_ne]
    exact ⟨⟨⟨⟨hne _ (by decide), hne _ (by decide)⟩, hne _ (by decide)⟩, hne _ (by decide)⟩,
      hne _ (by decide)⟩
  exact ⟨hflag, hne _ (by decide), hne _ (by decide), hne _ (by decide)⟩

theorem letter_of_spec {d d' : Directive} {s s' : List Byte} {c : Byte} (hc : caseOf c ≠ .other)
    (hs : spec .sized d s = (d', c :: s')) {b : Byte} (hb : b ∈ s.head?) :
    (b ≠ ch '0' → isFlag b = false) ∧ b ≠ ch '*' ∧ b ≠ ch '.' := by
  cases s with
  | nil => simp at hb
  | cons a s =>
    obtain rfl : a = b := by simpa using hb
    rw [spec, grow] at hs
    cases hg : growWidth d a with
    | none =>
      rw [hg] at hs
      obtain rfl : a = c := by simpa using (congrArg (fun x => x.2.head?) hs)
      obtain ⟨h₁, h₂, h₃, -⟩ := letter_of_caseOf hc
      exact ⟨fun _ => h₁, h₂, h₃⟩
    | some x =>
      -- a digit or a letter of the length
      have hletter : isDigit a = true ∨ a = ch 'l' ∨ a = ch 'z' := by
        by_contra hno
        rw [not_or, not_or] at hno
        rw [growWidth, if_neg hno.1, growLength, if_neg hno.2.1, if_neg hno.2.2] at hg
        exact absurd hg (by simp)
      rcases hletter with hd | rfl | rfl
      · have hrange : 48 ≤ a.toNat ∧ a.toNat ≤ 57 := by
          rw [isDigit, Bool.and_eq_true, decide_eq_true_eq, decide_eq_true_eq] at hd
          exact ⟨UInt8.le_iff_toNat_le.1 hd.1, UInt8.le_iff_toNat_le.1 hd.2⟩
        have hne : ∀ b : Byte, b.toNat < 48 → a ≠ b := by
          rintro b hb rfl
          omega
        refine ⟨fun h0 => ?_, hne _ (by decide), hne _ (by decide)⟩
        simp only [isFlag, Bool.or_eq_false_iff, beq_eq_false_iff_ne]
        exact ⟨⟨⟨⟨hne _ (by decide), hne _ (by decide)⟩, hne _ (by decide)⟩,
          hne _ (by decide)⟩, h0⟩
      · decide
      · decide

theorem parseFlags_zero (alt zeroPad : Bool) (p : List Byte) :
    parseFlags alt zeroPad (ch '0' :: p) = parseFlags alt true p := rfl

theorem parseFlags_minus (alt zeroPad : Bool) (p : List Byte) :
    parseFlags alt zeroPad (ch '-' :: p) = parseFlags alt zeroPad p := rfl

section Reading

variable {d d' : Directive} {s s' : List Byte} {c : Byte}

theorem parseFlags_sized (hc : caseOf c ≠ .other) (hs : spec .sized d s = (d', c :: s'))
    (hw : d.width = 0) {alt zeroPad : Bool} (hz : zeroPad = true ∨ s.head? ≠ some (ch '0')) :
    ∃ r, parseFlags alt zeroPad (s ++ [0]) = some (alt, zeroPad, r ++ [0]) ∧
      spec .sized d r = (d', c :: s') := by
  induction s with
  | nil => simp [spec] at hs
  | cons a s ih =>
    rw [List.cons_append]
    by_cases ha : a = ch '0'
    · obtain rfl | hne := hz
      · rw [ha, parseFlags_zero]
        refine ih ?_ (.inl rfl)
        have hsame : spec .sized d (ch '0' :: s) =
            spec .sized { d with width := d.width * 10 + 0 } s := rfl
        rw [ha, hsame, hw, Nat.zero_mul, Nat.add_zero, ← hw] at hs
        exact hs
      · exact absurd (congrArg some ha) hne
    · obtain ⟨hflag, -, -⟩ := letter_of_spec hc hs (b := a) rfl
      rw [parseFlags, hflag ha]
      exact ⟨a :: s, rfl, hs⟩

theorem parseFlags_signed (hc : caseOf c ≠ .other) (hs : spec .signed d s = (d', c :: s'))
    (hw : d.width = 0) (hz : d.zero = false) (alt : Bool) :
    ∃ r zero, parseFlags alt false (s ++ [0]) = some (alt, zero, r ++ [0]) ∧
      spec .sized { d with zero := zero } r = (d', c :: s') := by
  have hsame : { d with zero := false } = d := by rw [← hz]
  cases s with
  | nil => simp [spec] at hs
  | cons a s =>
    by_cases ha : a = ch '0'
    · rw [ha, spec_signed_zero] at hs
      obtain ⟨r, hflags, hspec⟩ := @parseFlags_sized _ _ _ _ _ hc hs hw alt _ (.inl rfl)
      refine ⟨r, true, ?_, hspec⟩
      rw [ha, List.cons_append, parseFlags_zero]
      exact hflags
    · rw [spec_signed_of_ne ha] at hs
      obtain ⟨r, hflags, hspec⟩ := @parseFlags_sized _ _ _ _ _ hc hs hw alt false
        (.inr (by simpa using ha))
      exact ⟨r, false, hflags, by rw [hsame]; exact hspec⟩

theorem parseFlags_start (hc : caseOf c ≠ .other) (hs : spec .start .plain s = (d', c :: s')) :
    ∃ r left zero, parseFlags false false (s ++ [0]) = some (false, zero, r ++ [0]) ∧
      spec .sized ⟨left, zero, 0, false⟩ r = (d', c :: s') := by
  cases s with
  | nil => simp [spec] at hs
  | cons a s =>
    by_cases ha : a = ch '-'
    · rw [ha, spec_start_minus] at hs
      obtain ⟨r, zero, hflags, hspec⟩ := parseFlags_signed hc hs rfl rfl false
      refine ⟨r, true, zero, ?_, hspec⟩
      rw [ha, List.cons_append, parseFlags_minus]
      exact hflags
    · rw [spec_start_of_ne ha] at hs
      obtain ⟨r, zero, hflags, hspec⟩ := parseFlags_signed hc hs rfl rfl false
      exact ⟨r, false, zero, hflags, hspec⟩

/-- **Both formatters read a conversion of the kernel in the same way.** -/
theorem parseLibcSpec_eq (hc : caseOf c ≠ .other) (hs : spec .start .plain s = (d', c :: s'))
    (ap : Slots) :
    parseLibcSpec (s ++ [0]) ap =
      some (⟨false, d'.zero, wrap d'.width, -1, d'.long⟩, c :: s' ++ [0], ap) := by
  obtain ⟨r, left, zero, hflags, hsized⟩ := parseFlags_start hc hs
  obtain ⟨w, r', hparse, hspec, hhead⟩ := parseWidth_eq ⟨left, zero, 0, false⟩ r
  have hsized' := hspec ▸ hsized
  obtain ⟨t, hlength, hend⟩ := parseLength_eq (d := ⟨left, zero, w, false⟩) hhead rfl
  rw [hsized'] at hlength hend
  obtain ⟨hd, rfl⟩ : d' = ⟨left, zero, w, d'.long⟩ ∧ c :: s' = t := Prod.mk.inj hend
  have hwidth : parseNumber (r ++ [0]) ap = some (wrap w, r' ++ [0], ap) := by
    have h0 : wrap ((0 : ℕ) : ℤ) = 0 := rfl
    rw [h0] at hparse
    cases r with
    | nil => simp [spec] at hsized
    | cons a r =>
      obtain ⟨-, hstar, -⟩ := letter_of_spec hc hsized (b := a) rfl
      rw [List.cons_append] at hparse ⊢
      simp [parseNumber, hstar, hparse]
  rw [parseLibcSpec, hflags]
  simp only [Option.bind_eq_bind, Option.bind_some, hwidth]
  cases r' with
  | nil => simp [spec] at hsized'
  | cons a r' =>
    obtain ⟨-, -, hpoint⟩ := letter_of_spec hc hsized' (b := a) rfl
    simp only [List.cons_append, List.head?_cons, Option.bind_some, if_neg hpoint]
    rw [List.cons_append] at hlength
    rw [hlength, hd]
    rfl

end Reading

/-! ### What is put out -/

/-- A number in a field of zeros, as `emit_unsigned_width` has it without a precision. -/
def zerosText (d : Directive) (digits : List Byte) : List Byte :=
  List.replicate ((if d.zero then wrap d.width else 0) - digits.length).toNat (ch '0') ++ digits

/-- What `format_to` puts out for a conversion both formatters have code for. -/
def Item.emitted (str : UInt64 → CString) : Item → List Byte
  | .lit c => [c]
  | .conv d c v =>
    match libcCaseOf c with
    | .char => [v.toUInt8]
    | .string => stringArg str v
    | .signed =>
      let value := signedArg d.long v
      (if value < 0 then [ch '-'] else []) ++
        zerosText d (unsignedToString 10 false value.natAbs)
    | .unsigned base _ => zerosText d (unsignedToString base false (unsignedArg d.long v))
    | .pointer => [ch '0', ch 'x'] ++ zerosText d (unsignedToString 16 false v.toNat)
    | _ => [ch '%']

def Case.small : Case → Case
  | .unsigned base _ => .unsigned base false
  | k => k

theorem libcCaseOf_eq {c : Byte} (hc : caseOf c ≠ .other) (hp : c ≠ ch '%') :
    libcCaseOf c = (caseOf c).small := by
  have hletter : c = ch 'c' ∨ c = ch 's' ∨ (c = ch 'd' ∨ c = ch 'i') ∨ c = ch 'u' ∨ c = ch 'o' ∨
      c = ch 'x' ∨ c = ch 'X' ∨ c = ch 'p' := by
    by_contra hno
    simp only [not_or] at hno
    refine hc ?_
    rw [caseOf, if_neg hp]
    simp [hno]
  rcases hletter with rfl | rfl | (rfl | rfl) | rfl | rfl | rfl | rfl | rfl <;> rfl

theorem libcConvert_eq (str : UInt64 → CString) (o : FormatOut) (ap : Slots) (d : Directive)
    {c : Byte} (hc : caseOf c ≠ .other) (hp : c ≠ ch '%') :
    libcConvert str o ap ⟨false, d.zero, wrap d.width, -1, d.long⟩ c =
      (emitString o (Item.emitted str (.conv d c (ap 0))),
        if (caseOf c).takes then ap.rest else ap) := by
  have hcase := libcCaseOf_eq hc hp
  rw [libcConvert, Item.emitted]
  cases hk : caseOf c with
  | percent =>
    simp only [caseOf] at hk
    split_ifs at hk
    exact absurd ‹_› hp
  | char =>
    rw [hk] at hcase
    simp [hcase, Case.small, Case.takes, emitString]
  | string =>
    rw [hk] at hcase
    simp [hcase, Case.small, emitStringN, Case.takes]
  | signed =>
    rw [hk] at hcase
    simp only [hcase, Case.small]
    generalize signedArg d.long (ap 0) = value
    by_cases hv : value < 0
    · simp [hv, emitUnsignedWidth, zerosText, Case.takes, emitString]
    · simp [hv, emitUnsignedWidth, zerosText, Case.takes, emitString]
  | unsigned base upper =>
    rw [hk] at hcase
    simp [hcase, Case.small, emitUnsignedWidth, zerosText, Case.takes, emitString]
  | pointer =>
    rw [hk] at hcase
    simp [hcase, Case.small, emitUnsignedWidth, zerosText, Case.takes, emitString]
  | double =>
    simp only [caseOf] at hk
    split_ifs at hk
  | other => exact absurd hk hc

/-! ### The whole string -/

theorem le_grow {st : Stage} {d : Directive} {c : Byte} {x : Stage × Directive}
    (hg : grow st d c = some x) :
    (d.left → x.2.left) ∧ (d.zero → x.2.zero) ∧ (d.long → x.2.long) ∧ d.width ≤ x.2.width := by
  have hlength : ∀ {x}, growLength d c = some x →
      (d.left → x.2.left) ∧ (d.zero → x.2.zero) ∧ (d.long → x.2.long) ∧ d.width ≤ x.2.width := by
    intro x h
    rw [growLength] at h
    split_ifs at h <;> obtain rfl := Option.some.inj h <;> simp
  have hwidth : ∀ {x}, growWidth d c = some x →
      (d.left → x.2.left) ∧ (d.zero → x.2.zero) ∧ (d.long → x.2.long) ∧ d.width ≤ x.2.width := by
    intro x h
    rw [growWidth] at h
    split_ifs at h
    · obtain rfl := Option.some.inj h
      refine ⟨id, id, id, ?_⟩
      dsimp only
      omega
    · exact hlength h
  have hzero : ∀ {x}, growZero d c = some x →
      (d.left → x.2.left) ∧ (d.zero → x.2.zero) ∧ (d.long → x.2.long) ∧ d.width ≤ x.2.width := by
    intro x h
    rw [growZero] at h
    split_ifs at h
    · obtain rfl := Option.some.inj h
      simp
    · exact hwidth h
  cases st with
  | start =>
    rw [grow] at hg
    split_ifs at hg
    · obtain rfl := Option.some.inj hg
      simp
    · exact hzero hg
  | signed => exact hzero hg
  | sized => exact hwidth hg
  | ell =>
    rw [grow] at hg
    split_ifs at hg
    obtain rfl := Option.some.inj hg
    exact ⟨id, id, id, le_rfl⟩
  | full => exact absurd hg (by simp [grow])

theorem le_spec (st : Stage) (d : Directive) (s : List Byte) :
    (d.left → (spec st d s).1.left) ∧ (d.zero → (spec st d s).1.zero) ∧
      (d.long → (spec st d s).1.long) ∧ d.width ≤ (spec st d s).1.width := by
  induction s generalizing st d with
  | nil => exact ⟨id, id, id, le_rfl⟩
  | cons c s ih =>
    rw [spec]
    cases hg : grow st d c with
    | none => exact ⟨id, id, id, le_rfl⟩
    | some x =>
      obtain ⟨hl, hz, ho, hw⟩ := ih x.1 x.2
      have hgrow := le_grow hg
      exact ⟨fun h => hl (hgrow.1 h), fun h => hz (hgrow.2.1 h), fun h => ho (hgrow.2.2.1 h),
        hgrow.2.2.2.trans hw⟩

theorem eq_cons_of_plain {s s' : List Byte} {c : Byte}
    (h : spec .start .plain s = (.plain, c :: s')) : s = c :: s' := by
  cases s with
  | nil => simp [spec] at h
  | cons a s =>
    rw [spec] at h
    cases hg : grow .start .plain a with
    | none =>
      rw [hg] at h
      exact (Prod.mk.inj h).2
    | some x =>
      rw [hg] at h
      obtain ⟨hl, hz, ho, hw⟩ := le_spec x.1 x.2 s
      have hx : spec x.1 x.2 s = (.plain, c :: s') := h
      rw [hx] at hl hz ho hw
      -- every letter that continues the conversion leaves a mark
      have hmark : x.2.left ∨ x.2.zero ∨ x.2.long ∨ 0 < x.2.width := by
        simp only [grow, growZero, growWidth, growLength] at hg
        split_ifs at hg with h₁ h₂ h₃ <;> obtain rfl := Option.some.inj hg
        · simp
        · simp
        · have hlt : 48 < a.toNat := by
            rw [isDigit, Bool.and_eq_true, decide_eq_true_eq] at h₃
            have hle := UInt8.le_iff_toNat_le.1 h₃.1
            have hne : a.toNat ≠ 48 := fun h => h₂ (UInt8.toNat_inj.1 h)
            have h48 : (ch '0').toNat = 48 := rfl
            omega
          simp [Directive.plain]
          omega
        · simp
        · simp
      rcases hmark with h | h | h | h
      · exact absurd (hl h) (by simp [Directive.plain])
      · exact absurd (hz h) (by simp [Directive.plain])
      · exact absurd (ho h) (by simp [Directive.plain])
      · exact absurd (h.trans_le hw) (by simp [Directive.plain])

theorem caseOf_percent : caseOf (ch '%') = .percent := rfl

theorem eq_of_caseOf_percent {c : Byte} (h : caseOf c = .percent) : c = ch '%' := by
  by_contra hc
  rw [caseOf, if_neg hc] at h
  split_ifs at h

/-- **The loop reads a complete string of shared conversions up to its terminator.** -/
theorem formatToLoop_eq (str : UInt64 → CString) {fuel : ℕ} {s : List Byte} {ap : Slots}
    (o : FormatOut) (h0 : 0 ∉ s) (hfuel : s.length < fuel) (hcomplete : Complete s)
    (hshared : ∀ x ∈ items none s ap, x.Shared) :
    formatToLoop str fuel (s ++ [0]) ap o =
      some (emitString o ((items none s ap).flatMap (Item.emitted str))) := by
  induction fuel generalizing s ap o with
  | zero => omega
  | succ fuel ih =>
    cases s with
    | nil => rfl
    | cons c s =>
      rw [List.mem_cons, not_or] at h0
      rw [List.length_cons] at hfuel
      rw [formatToLoop]
      simp only [List.cons_append, List.head?_cons, List.tail_cons, Option.bind_eq_bind,
        Option.bind_some]
      rw [if_neg (Ne.symm h0.1)]
      by_cases hc : c = ch '%'
      · rw [if_neg (by simp [hc])]
        rw [hc, complete_cons_percent] at hcomplete
        obtain ⟨b, s', hspec, hrest⟩ := hcomplete
        have hlen := length_spec_le .start .plain s
        have hmem : 0 ∉ (spec .start .plain s).2 := fun h => h0.2 (mem_of_mem_spec h)
        have hitems := items_some .start .plain s ap
        have hwhole : items none (c :: s) ap = items (some (.start, .plain)) s ap := by
          rw [items, if_pos hc]
        obtain ⟨d, hd⟩ : ∃ d, spec .start .plain s = (d, b :: s') := ⟨_, Prod.ext rfl hspec⟩
        rw [hspec, List.length_cons] at hlen
        rw [hspec, List.mem_cons, not_or] at hmem
        rw [hd] at hitems
        rw [hwhole, hitems] at hshared ⊢
        rw [List.forall_mem_cons] at hshared
        rw [List.flatMap_cons, emitString_append]
        obtain ⟨hfirst, hothers⟩ := hshared
        by_cases hb : b = ch '%'
        · -- a percent sign, right behind the first one
          rw [hb] at hd hfirst
          have hplain : d = .plain := hfirst
          rw [hplain] at hd
          rw [eq_cons_of_plain hd, hb]
          simp only [List.cons_append, List.head?_cons, Option.bind_some, List.tail_cons,
            if_true]
          rw [hb] at hothers
          exact ih _ hmem.2 (by omega) hrest hothers
        · have hother : caseOf b ≠ .other := fun h => by
            rw [Item.Shared, h] at hfirst
            exact hfirst
          have hspecial : (s ++ [0]).head? ≠ some (ch '%') := by
            cases s with
            | nil => simp [spec] at hspec
            | cons a s =>
              intro ha
              obtain rfl : a = ch '%' := by simpa using ha
              have hstop : spec .start .plain (ch '%' :: s) = (.plain, ch '%' :: s) := rfl
              rw [hstop] at hspec
              exact hb (List.cons.inj hspec).1.symm
          have hparse := parseLibcSpec_eq hother hd ap
          obtain ⟨a, t, hat⟩ : ∃ a t, s ++ [0] = a :: t := by
            cases s with
            | nil => exact ⟨0, [], rfl⟩
            | cons a s => exact ⟨a, s ++ [0], rfl⟩
          rw [hat] at hspecial hparse ⊢
          simp only [List.head?_cons, Option.bind_some]
          rw [if_neg (by simpa using hspecial), hparse]
          simp only [List.cons_append, Option.bind_some, List.head?_cons, List.tail_cons,
            libcConvert_eq str o ap d hother hb]
          exact ih _ hmem.2 (by omega) hrest hothers
      · rw [if_pos hc]
        rw [items, if_neg hc] at hshared ⊢
        rw [List.forall_mem_cons] at hshared
        rw [List.flatMap_cons, emitString_append,
          ih _ h0.2 (by omega) ((complete_cons_of_ne hc s).1 hcomplete) hshared.2]
        rfl

/-- **The library's formatter**: of a complete string of shared conversions it leaves the text it
puts out, cut, and the length of that text. -/
theorem vsnprintf_eq (str : UInt64 → CString) (size : ℕ) (buf : ℕ → Byte) {fmt : CString}
    {ap : Slots} (hcomplete : Complete fmt.chars)
    (hshared : ∀ x ∈ items none fmt.chars ap, x.Shared) :
    vsnprintf str size buf fmt ap =
      some (final 0 size buf ((items none fmt.chars ap).flatMap (Item.emitted str)),
        wrap ((items none fmt.chars ap).flatMap (Item.emitted str)).length) := by
  rw [vsnprintf, formatTo, formatToLoop_eq str _ fmt.nul_free (by omega) hcomplete hshared]
  generalize (items none fmt.chars ap).flatMap (Item.emitted str) = text
  rw [foldl_emitChar]
  simp only [Option.bind_eq_bind, Option.bind_some, Option.map_some, Option.getD_some]
  congr 2
  rw [final]
  by_cases h0 : size = 0
  · subst h0
    simp [BoundedText.store]
  · have hmin : (if text.length < size then text.length else size - 1) =
        min (size - 1) text.length := by
      split_ifs <;> omega
    rw [if_pos h0, if_neg h0, hmin, store_snoc, Nat.zero_add, List.length_take]

end Tnu.Format
