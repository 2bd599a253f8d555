/-
**The kernel's formatter.**

`kvsnprintf` of `kernel/lib/printf.c`.  A pointer into the format string is the list of the bytes
from it on, up to the terminator and with it: to read where nothing is left is to read behind the
string, and ends the run with `none`.  An `int` wraps at 32 bits.

Main definitions:

* `outChar`, `outPadded`, `parseSpec` — the helpers.

Main result:

* `kvsnprintf_eq` — **a complete format string is read up to its terminator, and no
  other is**.
-/

import Tnu.Format.Meaning
import Tnu.Lib.BoundedText

set_option autoImplicit false

namespace Tnu.Format

open BoundedText

/-- The value of an `int`. -/
def wrap (x : ℤ) : ℤ := x.bmod (2 ^ 32)

/-! ### The source -/

/-- `buf` and `*buf`, `*remaining` and `*written` of `kvsnprintf`; the pointer counts from the
start of the buffer. -/
structure Out where
  buf : ℕ → Byte
  out : ℕ
  remaining : ℕ
  written : ℤ

def outChar (o : Out) (c : Byte) : Out :=
  if 1 < o.remaining then
    ⟨Function.update o.buf o.out c, o.out + 1, o.remaining - 1, wrap (o.written + 1)⟩
  else { o with written := wrap (o.written + 1) }

/-- `out_string`, and every loop that puts out a text. -/
def outString (o : Out) (s : List Byte) : Out := s.foldl outChar o

/-- What `unsigned_to_string` leaves in a buffer of more than 32 bytes. -/
def unsignedToString (base : ℕ) (upper : Bool) (value : ℕ) : List Byte :=
  (outDigits base value).map (digit upper)

def outPadded (o : Out) (s : List Byte) (width : ℤ) (left : Bool) (pad : Byte) : Out :=
  let len := wrap s.length
  let (o, s, len, width) :=
    if left = false ∧ pad = ch '0' ∧ s.head? = some (ch '-') then
      (outChar o (ch '-'), s.tail, wrap (len - 1), wrap (width - 1))
    else (o, s, len, width)
  let o := if left then o else outString o (List.replicate (width - len).toNat pad)
  let o := outString o s
  if left then outString o (List.replicate (width - len).toNat (ch ' ')) else o

/-- `out_signed`; `tmp` has room for the sign and the digits. -/
def outSigned (o : Out) (value : ℤ) (width : ℤ) (left : Bool) (pad : Byte) : Out :=
  outPadded o
    (if value < 0 then ch '-' :: unsignedToString 10 false value.natAbs
     else unsignedToString 10 false value.natAbs) width left pad

def outUnsigned (o : Out) (value base : ℕ) (upper : Bool) (width : ℤ) (left : Bool)
    (pad : Byte) : Out :=
  outPadded o (unsignedToString base upper value) width left pad

/-- `parse_width`, from a width read before. -/
def parseWidth (width : ℤ) : List Byte → Option (ℤ × List Byte)
  | [] => none
  | c :: p =>
    if isDigit c then parseWidth (wrap (width * 10 + (c.toNat - 48))) p
    else some (width, c :: p)

/-- The flags, the width and the length of a conversion, as `kvsnprintf` keeps them. -/
structure Spec where
  left : Bool
  pad : Byte
  width : ℤ
  long : Bool

/-- The length of a conversion: `l`, `ll` or `z`. -/
def parseLength (p : List Byte) : Option (Bool × List Byte) := do
  let c ← p.head?
  if c = ch 'l' then
    let c ← p.tail.head?
    if c = ch 'l' then some (true, p.tail.tail) else some (true, p.tail)
  else if c = ch 'z' then some (true, p.tail)
  else some (false, p)

/-- `kvsnprintf` from behind a percent sign to the letter of the conversion. -/
def parseSpec (p : List Byte) : Option (Spec × List Byte) := do
  let c ← p.head?
  let (left, p) := if c = ch '-' then (true, p.tail) else (false, p)
  let c ← p.head?
  let (pad, p) := if c = ch '0' then (ch '0', p.tail) else (ch ' ', p)
  let (width, p) ← parseWidth 0 p
  let (long, p) ← parseLength p
  some (⟨left, pad, width, long⟩, p)

/-- The `switch` of `kvsnprintf`. -/
def convert (str : UInt64 → CString) (o : Out) (ap : Slots) (sp : Spec) (c : Byte) : Out × Slots :=
  match caseOf c with
  | .percent => (outChar o (ch '%'), ap)
  | .char => (outPadded o (cstr [(ap 0).toUInt8]) sp.width sp.left sp.pad, ap.rest)
  | .string =>
    if 0 < sp.width then (outPadded o (stringArg str (ap 0)) sp.width sp.left sp.pad, ap.rest)
    else (outString o (stringArg str (ap 0)), ap.rest)
  | .signed => (outSigned o (signedArg sp.long (ap 0)) sp.width sp.left sp.pad, ap.rest)
  | .unsigned base upper =>
    (outUnsigned o (unsignedArg sp.long (ap 0)) base upper sp.width sp.left sp.pad, ap.rest)
  | .pointer =>
    (outUnsigned (outString o [ch '0', ch 'x']) (ap 0).toNat 16 false sp.width sp.left sp.pad,
      ap.rest)
  | _ => (outChar (outChar o (ch '%')) c, ap)

/-- The loop of `kvsnprintf`. -/
def kvsnprintfLoop (str : UInt64 → CString) : ℕ → List Byte → Slots → Out → Option Out
  | 0, _, _, _ => none
  | fuel + 1, fmt, ap, o => do
      let c ← fmt.head?
      if c = 0 then some o
      else if c ≠ ch '%' then kvsnprintfLoop str fuel fmt.tail ap (outChar o c)
      else
        let (sp, p) ← parseSpec fmt.tail
        let c ← p.head?
        let (o, ap) := convert str o ap sp c
        -- `fmt++` of the loop, whatever letter it stands on
        kvsnprintfLoop str fuel p.tail ap o

/-- `kvsnprintf`: the memory from the buffer on, and the value that is returned. -/
def kvsnprintf (str : UInt64 → CString) (size : ℕ) (buf : ℕ → Byte) (fmt : CString)
    (ap : Slots) : Option ((ℕ → Byte) × ℤ) := do
  let o ← kvsnprintfLoop str (fmt.chars.length + 2) (fmt.chars ++ [0]) ap ⟨buf, 0, size, 0⟩
  some (if 0 < size then Function.update o.buf o.out 0 else o.buf, o.written)

/-! ### Output -/

theorem wrap_wrap_add (x y : ℤ) : wrap (wrap x + y) = wrap (x + y) := by
  rw [wrap, wrap, wrap, Int.bmod_add_bmod]

theorem wrap_of_lt {x : ℤ} (h0 : 0 ≤ x) (h : x < 2 ^ 31) : wrap x = x := by
  rw [wrap, Int.bmod_eq_of_le] <;> omega

/-- **A text that is put out letter by letter is stored**, as much of it as fits. -/
theorem foldl_outChar (size : ℕ) (buf : ℕ → Byte) (text : List Byte) :
    outString ⟨buf, 0, size, 0⟩ text =
      ⟨BoundedText.store buf 0 (text.take (size - 1)), min text.length (size - 1),
        size - min text.length (size - 1), wrap text.length⟩ := by
  -- letter by letter, the last one at the end
  induction text using List.reverseRecOn with
  | nil => simp [outString, BoundedText.store, wrap]
  | append_singleton text c ih =>
    have hfold : outString ⟨buf, 0, size, 0⟩ (text ++ [c]) =
        outChar (outString ⟨buf, 0, size, 0⟩ text) c := by
      rw [outString, List.foldl_append]
      rfl
    rw [hfold, ih, outChar]
    dsimp only
    have hwritten : wrap (wrap text.length + 1) = wrap (text ++ [c]).length := by
      rw [wrap_wrap_add]
      simp
    by_cases hroom : text.length < size - 1
    · have hlen : (text ++ [c]).length = text.length + 1 := by simp
      rw [if_pos (by omega), hwritten, List.take_of_length_le (by omega),
        List.take_of_length_le (by omega), store_snoc, hlen,
        Nat.min_eq_left (by omega), Nat.min_eq_left (by omega), Nat.zero_add]
      congr 1
    · have hlen : (text ++ [c]).length = text.length + 1 := by simp
      rw [if_neg (by omega), hwritten, List.take_append_of_le_length (by omega), hlen,
        Nat.min_eq_right (by omega), Nat.min_eq_right (by omega)]

theorem outString_final (size : ℕ) (buf : ℕ → Byte) (text : List Byte) :
    (let o := outString ⟨buf, 0, size, 0⟩ text
     (if 0 < size then Function.update o.buf o.out 0 else o.buf, o.written)) =
      (final 0 size buf text, wrap text.length) := by
  rw [foldl_outChar, final]
  by_cases h0 : size = 0
  · subst h0
    simp [BoundedText.store]
  · dsimp only
    rw [if_pos (by omega), if_neg h0, store_snoc, Nat.zero_add, List.length_take, Nat.min_comm]

/-! ### Reading a conversion -/

def Directive.kept (d : Directive) : Spec :=
  ⟨d.left, if d.zero then ch '0' else ch ' ', wrap d.width, d.long⟩

theorem parseWidth_eq (d : Directive) (s : List Byte) :
    ∃ (w : ℕ) (s' : List Byte), parseWidth (wrap d.width) (s ++ [0]) = some (wrap w, s' ++ [0]) ∧
      spec .sized d s = spec .sized { d with width := w } s' ∧
      (∀ c ∈ s'.head?, isDigit c = false) := by
  induction s generalizing d with
  | nil => exact ⟨d.width, [], rfl, rfl, by simp⟩
  | cons c s ih =>
    by_cases hc : isDigit c = true
    · obtain ⟨w, s', hparse, hspec, hhead⟩ := ih { d with width := d.width * 10 + (c.toNat - 48) }
      refine ⟨w, s', ?_, ?_, hhead⟩
      · have hge : 48 ≤ c.toNat := by
          rw [isDigit, Bool.and_eq_true, decide_eq_true_eq] at hc
          exact UInt8.le_iff_toNat_le.1 hc.1
        have hstep : wrap (wrap d.width * 10 + (c.toNat - 48)) =
            wrap ((d.width * 10 + (c.toNat - 48) : ℕ) : ℤ) := by
          rw [wrap, wrap, wrap, ← Int.bmod_add_bmod, Int.bmod_mul_bmod, Int.bmod_add_bmod]
          congr 1
          omega
        rw [List.cons_append, parseWidth, if_pos hc, hstep]
        exact hparse
      · rw [spec, grow, growWidth, if_pos hc]
        exact hspec
    · refine ⟨d.width, c :: s, ?_, rfl, ?_⟩
      · rw [List.cons_append, parseWidth, if_neg hc]
      · simpa using hc

theorem parseLength_eq {d : Directive} {s : List Byte} (hhead : ∀ c ∈ s.head?, isDigit c = false)
    (hd : d.long = false) :
    ∃ s', parseLength (s ++ [0]) = some ((spec .sized d s).1.long, s' ++ [0]) ∧
      spec .sized d s = ({ d with long := (spec .sized d s).1.long }, s') := by
  have hfull : ∀ (d : Directive) (s : List Byte), spec .full d s = (d, s) := fun d s => by
    cases s <;> rfl
  have h0l : (0 : Byte) ≠ ch 'l' := by decide
  have h0z : (0 : Byte) ≠ ch 'z' := by decide
  have hzl : ch 'z' ≠ ch 'l' := by decide
  cases s with
  | nil => exact ⟨[], by simp [parseLength, spec, hd, h0l, h0z], by simp [spec]⟩
  | cons c s =>
    have hc : isDigit c = false := hhead c rfl
    rw [spec, grow, growWidth, if_neg (by simp [hc]), growLength]
    by_cases hl : c = ch 'l'
    · rw [if_pos hl]
      dsimp only
      cases s with
      | nil => exact ⟨[], by simp [parseLength, spec, hl, h0l], rfl⟩
      | cons c' s =>
        rw [spec, grow]
        by_cases hl' : c' = ch 'l'
        · rw [if_pos hl']
          dsimp only
          rw [hfull]
          exact ⟨s, by simp [parseLength, hl, hl'], rfl⟩
        · rw [if_neg hl']
          exact ⟨c' :: s, by simp [parseLength, hl, hl'], rfl⟩
    · rw [if_neg hl]
      by_cases hz : c = ch 'z'
      · rw [if_pos hz]
        dsimp only
        rw [hfull]
        exact ⟨s, by simp [parseLength, hz, hzl], rfl⟩
      · rw [if_neg hz]
        refine ⟨c :: s, by simp [parseLength, hl, hz, hd], ?_⟩
        dsimp only

theorem parseWidth_bind {d : Directive} (hw : d.width = 0) (hl : d.long = false) (s : List Byte)
    (left : Bool) (pad : Byte) :
    (do
      let (width, p) ← parseWidth 0 (s ++ [0])
      let (long, p) ← parseLength p
      some ((⟨left, pad, width, long⟩ : Spec), p)) =
      some (⟨left, pad, wrap (spec .sized d s).1.width, (spec .sized d s).1.long⟩,
        (spec .sized d s).2 ++ [0]) ∧
    (spec .sized d s).1.left = d.left ∧ (spec .sized d s).1.zero = d.zero := by
  obtain ⟨w, s', hparse, hspec, hhead⟩ := parseWidth_eq d s
  obtain ⟨s'', hlength, hend⟩ := parseLength_eq (d := { d with width := w }) hhead hl
  have h0 : wrap d.width = 0 := by
    rw [hw]
    rfl
  rw [h0] at hparse
  rw [hspec, hend, hparse]
  rw [hend] at hlength
  refine ⟨?_, rfl, rfl⟩
  simp only [Option.bind_eq_bind, Option.bind_some, hlength]

/-- **The nested loops read a conversion up to its letter**, or to the terminator. -/
theorem parseSpec_eq (s : List Byte) :
    parseSpec (s ++ [0]) =
      some ((spec .start .plain s).1.kept, (spec .start .plain s).2 ++ [0]) := by
  have h0m : (0 : Byte) ≠ ch '-' := by decide
  have h0z : (0 : Byte) ≠ ch '0' := by decide
  -- from behind the minus sign on
  have hsigned : ∀ (d : Directive) (s : List Byte), d.zero = false → d.width = 0 →
      d.long = false →
      (do
        let c ← (s ++ [0]).head?
        let (pad, p) := if c = ch '0' then (ch '0', (s ++ [0]).tail) else (ch ' ', s ++ [0])
        let (width, p) ← parseWidth 0 p
        let (long, p) ← parseLength p
        some ((⟨d.left, pad, width, long⟩ : Spec), p)) =
      some ((spec .signed d s).1.kept, (spec .signed d s).2 ++ [0]) := by
    intro d s hz hw hl
    cases s with
    | nil =>
      obtain ⟨hbind, -, -⟩ := parseWidth_bind hw hl [] d.left (ch ' ')
      rw [List.nil_append] at hbind
      simp only [List.nil_append, List.head?_cons, Option.bind_eq_bind, Option.bind_some, if_neg h0z]
      refine hbind.trans ?_
      simp [spec, Directive.kept, hz]
    | cons c s =>
      simp only [List.cons_append, List.head?_cons, Option.bind_eq_bind, Option.bind_some,
        List.tail_cons]
      by_cases hc : c = ch '0'
      · obtain ⟨hbind, hleft, hzero⟩ :=
          parseWidth_bind (d := { d with zero := true }) hw hl s d.left (ch '0')
        rw [if_pos hc, hc, spec_signed_zero]
        refine hbind.trans ?_
        simp [Directive.kept, hleft, hzero]
      · obtain ⟨hbind, hleft, hzero⟩ := parseWidth_bind hw hl (c :: s) d.left (ch ' ')
        rw [if_neg hc, spec_signed_of_ne hc]
        refine hbind.trans ?_
        simp [Directive.kept, hleft, hzero, hz]
  cases s with
  | nil =>
    have hs := hsigned .plain [] rfl rfl rfl
    rw [parseSpec]
    simp only [List.nil_append, List.head?_cons, Option.bind_eq_bind, Option.bind_some,
      if_neg h0m]
    exact hs
  | cons c s =>
    rw [parseSpec]
    simp only [List.cons_append, List.head?_cons, Option.bind_eq_bind, Option.bind_some,
      List.tail_cons]
    by_cases hc : c = ch '-'
    · rw [if_pos hc, hc, spec_start_minus]
      exact hsigned { Directive.plain with left := true } s rfl rfl rfl
    · rw [if_neg hc, spec_start_of_ne hc]
      exact hsigned .plain (c :: s) rfl rfl rfl

/-! ### What is put out -/

/-- What `out_padded` puts out. -/
def fieldText (s : List Byte) (width : ℤ) (left : Bool) (pad : Byte) : List Byte :=
  let len := wrap s.length
  if left then s ++ List.replicate (width - len).toNat (ch ' ')
  else if pad = ch '0' ∧ s.head? = some (ch '-') then
    ch '-' :: (List.replicate (wrap (width - 1) - wrap (len - 1)).toNat pad ++ s.tail)
  else List.replicate (width - len).toNat pad ++ s

theorem outString_append (o : Out) (s t : List Byte) :
    outString o (s ++ t) = outString (outString o s) t := List.foldl_append

theorem outPadded_eq (o : Out) (s : List Byte) (width : ℤ) (left : Bool) (pad : Byte) :
    outPadded o s width left pad = outString o (fieldText s width left pad) := by
  rw [outPadded, fieldText]
  cases left with
  | true => simp [outString_append]
  | false =>
    by_cases hsign : pad = ch '0' ∧ s.head? = some (ch '-')
    · simp only [hsign, and_self, if_true, Bool.false_eq_true, if_false]
      rw [← outString_append]
      rfl
    · simp only [hsign, and_false, if_false, Bool.false_eq_true]
      rw [← outString_append]

/-- What the `switch` puts out for a conversion, and the loop for a letter. -/
def Item.stored (str : UInt64 → CString) : Item → List Byte
  | .lit c => [c]
  | .conv d c v =>
    let sp := d.kept
    let field := fun s => fieldText s sp.width sp.left sp.pad
    match caseOf c with
    | .percent => [ch '%']
    | .char => field (cstr [v.toUInt8])
    | .string => if 0 < sp.width then field (stringArg str v) else stringArg str v
    | .signed =>
      let value := signedArg sp.long v
      field (if value < 0 then ch '-' :: unsignedToString 10 false value.natAbs
        else unsignedToString 10 false value.natAbs)
    | .unsigned base upper => field (unsignedToString base upper (unsignedArg sp.long v))
    | .pointer => [ch '0', ch 'x'] ++ field (unsignedToString 16 false v.toNat)
    | _ => [ch '%', c]

theorem convert_eq (str : UInt64 → CString) (o : Out) (ap : Slots) (d : Directive) (c : Byte) :
    convert str o ap d.kept c =
      (outString o (Item.stored str (.conv d c (ap 0))),
        if (caseOf c).takes then ap.rest else ap) := by
  rw [convert, Item.stored]
  cases hc : caseOf c with
  | percent => rfl
  | char => simp [outPadded_eq, Case.takes]
  | string =>
    by_cases hw : 0 < d.kept.width
    · simp [hw, outPadded_eq, Case.takes]
    · simp [hw, Case.takes]
  | signed => simp [outSigned, outPadded_eq, Case.takes]
  | unsigned base upper => simp [outUnsigned, outPadded_eq, Case.takes]
  | pointer =>
    simp only [outUnsigned, outPadded_eq, ← outString_append]
    rfl
  | double =>
    -- no letter of the kernel's table is this case
    simp only [caseOf] at hc
    split_ifs at hc
  | other => rfl

/-! ### The whole string -/

theorem complete_cons_of_ne {c : Byte} (hc : c ≠ ch '%') (s : List Byte) :
    Complete (c :: s) ↔ Complete s := by
  rw [Complete, List.foldl_cons, next, if_neg hc, ← Complete]

theorem complete_cons_percent (s : List Byte) :
    Complete (ch '%' :: s) ↔ ∃ c s', (spec .start .plain s).2 = c :: s' ∧ Complete s' := by
  rw [Complete, List.foldl_cons, next, if_pos rfl, foldl_next_some]
  rfl

/-- **The loop reads a complete string up to its terminator**, and any other behind it. -/
theorem kvsnprintfLoop_eq (str : UInt64 → CString) {fuel : ℕ} {s : List Byte} (ap : Slots)
    (o : Out) (h0 : 0 ∉ s) (hfuel : s.length < fuel) :
    kvsnprintfLoop str fuel (s ++ [0]) ap o =
      if Complete s then some (outString o ((items none s ap).flatMap (Item.stored str)))
      else none := by
  induction fuel generalizing s ap o with
  | zero => omega
  | succ fuel ih =>
    cases s with
    | nil => rfl
    | cons c s =>
      rw [List.mem_cons, not_or] at h0
      rw [List.length_cons] at hfuel
      rw [kvsnprintfLoop]
      simp only [List.cons_append, List.head?_cons, List.tail_cons, Option.bind_eq_bind,
        Option.bind_some]
      rw [if_neg (Ne.symm h0.1)]
      by_cases hc : c = ch '%'
      · rw [if_neg (by simp [hc]), parseSpec_eq, hc]
        simp only [Option.bind_some]
        have hlen := length_spec_le .start .plain s
        have hmem : 0 ∉ (spec .start .plain s).2 := fun h => h0.2 (mem_of_mem_spec h)
        have hitems := items_some .start .plain s ap
        have hcomplete := complete_cons_percent s
        cases hrest : spec .start .plain s with
        | mk d r =>
          rw [hrest] at hlen hmem hitems hcomplete
          have hwhole : items none (ch '%' :: s) ap = items (some (.start, .plain)) s ap := by
            rw [items, if_pos rfl]
          rw [hwhole, hitems]
          cases r with
          | nil =>
            -- the conversion has no letter: the loop steps over the terminator
            rw [if_neg (by rw [hcomplete]; simp)]
            cases fuel <;> rfl
          | cons c' s' =>
            rw [List.length_cons] at hlen
            rw [List.mem_cons, not_or] at hmem
            simp only [List.cons_append, List.head?_cons, Option.bind_some,
              List.tail_cons, convert_eq]
            rw [ih _ _ hmem.2 (by omega), List.flatMap_cons, outString_append]
            have hiff : Complete (ch '%' :: s) ↔ Complete s' := by
              rw [hcomplete]
              constructor
              · rintro ⟨c, t, heq, ht⟩
                obtain ⟨rfl, rfl⟩ := List.cons.inj heq
                exact ht
              · exact fun h => ⟨c', s', rfl, h⟩
            simp only [hiff]
      · rw [if_pos hc, ih ap _ h0.2 (by omega)]
        simp only [complete_cons_of_ne hc]
        rw [items, if_neg hc, List.flatMap_cons, outString_append]
        rfl

/-- **The kernel's formatter**: of a complete format string it leaves the text it puts out, cut,
and the length of that text; it reads behind any other. -/
theorem kvsnprintf_eq (str : UInt64 → CString) (size : ℕ) (buf : ℕ → Byte) (fmt : CString)
    (ap : Slots) :
    kvsnprintf str size buf fmt ap =
      if Complete fmt.chars then
        some (final 0 size buf ((items none fmt.chars ap).flatMap (Item.stored str)),
          wrap ((items none fmt.chars ap).flatMap (Item.stored str)).length)
      else none := by
  rw [kvsnprintf, kvsnprintfLoop_eq str ap _ fmt.nul_free (by omega)]
  by_cases hc : Complete fmt.chars
  · rw [if_pos hc, if_pos hc, ← outString_final]
    rfl
  · rw [if_neg hc, if_neg hc]
    rfl

end Tnu.Format
