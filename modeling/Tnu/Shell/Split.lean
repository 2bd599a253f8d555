/-
**Splitting a command line.**

`split_args` of `kernel/shell/tsh.c` cuts a line into tokens, in place.  Blanks separate tokens,
quotes keep blanks and operators in a token and are taken out of it, and an operator is a token of
its own.  Only an operator's token lies outside the line: its text is copied into a slot of the
static `op_token_storage`, which the next line that is split fills anew.

Main result:

* `splitArgs_spells` — **a line is split into its words**.
-/

import Tnu.CString

set_option autoImplicit false

namespace Tnu.Shell

/-! ### Tokens -/

abbrev lineMax : ℕ := 256

abbrev argvMax : ℕ := 48

def isBlank (c : Byte) : Bool := c = 32 || c = 9

def isQuote (c : Byte) : Bool := c = 39 || c = 34

/-- A pointer in `argv`: to a string in the line, or to a slot of `op_token_storage`. -/
inductive Token
  | text (chars : List Byte)
  | op (slot : ℕ)
  deriving DecidableEq, Repr

/-- `op_token_storage`. -/
abbrev OpStorage := ℕ → List Byte

def Token.chars (ops : OpStorage) : Token → List Byte
  | .text chars => chars
  | .op slot => ops slot

/-- `shell_operator_len`; behind the end of the line it reads the terminator. -/
def shellOperatorLen (p : List Byte) : ℕ :=
  let c := p.headD 0
  let d := p.tail.headD 0
  if c = 38 ∧ d = 38 ∨ c = 61 ∧ d = 61 ∨ c = 33 ∧ d = 61 then 2
  else if c = 124 ∨ c = 60 ∨ c = 62 then 1
  else 0

/-- What ended a token. -/
inductive TokenEnd
  /-- The end of the line, or a blank with the rest of the line behind it. -/
  | blank (rest : List Byte)
  | operator (op rest : List Byte)
  deriving DecidableEq, Repr

/-- The inner loop of `split_args`: the characters of a token and what ended it; `quote` is the
quote the loop is in. -/
def scanToken : Option Byte → List Byte → List Byte × TokenEnd
  | _, [] => ([], .blank [])
  | none, c :: cs =>
    if isQuote c then scanToken (some c) cs
    else if isBlank c then ([], .blank cs)
    else if 0 < shellOperatorLen (c :: cs) then
      ([], .operator ((c :: cs).take (shellOperatorLen (c :: cs)))
        ((c :: cs).drop (shellOperatorLen (c :: cs))))
    else (c :: (scanToken none cs).1, (scanToken none cs).2)
  | some q, c :: cs =>
    if c = q then scanToken none cs
    else (c :: (scanToken (some q) cs).1, (scanToken (some q) cs).2)

/-- The outer loop of `split_args`, with `room` more entries of `argv` to fill. -/
def splitLoop : ℕ → ℕ → OpStorage → List Byte → List Token × OpStorage
  | 0, _, ops, _ => ([], ops)
  | room + 1, opSlot, ops, line =>
    match line.dropWhile isBlank with
    | [] => ([], ops)
    | c :: cs =>
      if 0 < shellOperatorLen (c :: cs) then
        let r := splitLoop room (opSlot + 1)
          (Function.update ops (opSlot % argvMax) ((c :: cs).take (shellOperatorLen (c :: cs))))
          ((c :: cs).drop (shellOperatorLen (c :: cs)))
        (.op (opSlot % argvMax) :: r.1, r.2)
      else
        match scanToken none (c :: cs) with
        | (chars, .blank rest) =>
          let r := splitLoop room opSlot ops rest
          (.text chars :: r.1, r.2)
        | (chars, .operator op rest) =>
          let ops := Function.update ops (opSlot % argvMax) op
          match room with
          | 0 => ([.text chars], ops)
          | room + 1 =>
            let r := splitLoop room (opSlot + 1) ops rest
            (.text chars :: .op (opSlot % argvMax) :: r.1, r.2)

/-- `split_args`: `argv`, and what it leaves in `op_token_storage`. -/
def splitArgs (ops : OpStorage) (line : List Byte) : List Token × OpStorage :=
  splitLoop (argvMax - 1) 0 ops line

/-! ### Words -/

/-- A word of a command line: its text, and the quote that stands around it. -/
structure Word where
  quote : Option Byte
  text : List Byte
  deriving DecidableEq, Repr

def Word.render (w : Word) : List Byte :=
  match w.quote with
  | none => w.text
  | some q => q :: w.text ++ [q]

/-- A plain word has no character that means something to `split_args`; a quoted word does not
contain its quote. -/
def Word.Ok (w : Word) : Prop :=
  match w.quote with
  | none => w.text ≠ [] ∧ (∀ c ∈ w.text, isQuote c = false ∧ isBlank c = false) ∧
      ∀ t ∈ w.text.tails, shellOperatorLen t = 0
  | some q => isQuote q = true ∧ q ∉ w.text

def Gap (line : List Byte) : Prop := ∀ c ∈ line.head?, isBlank c = true

/-- The lines that spell a list of words, with any blanks between them. -/
inductive Spells : List Word → List Byte → Prop
  | nil {gap : List Byte} (hgap : ∀ c ∈ gap, isBlank c = true) : Spells [] gap
  | cons {w : Word} {ws : List Word} {gap line : List Byte} (hgap : ∀ c ∈ gap, isBlank c = true)
      (hw : w.Ok) (hline : Gap line) (hws : Spells ws line) :
      Spells (w :: ws) (gap ++ (w.render ++ line))

variable {w : Word} {ws : List Word} {line rest : List Byte}

theorem shellOperatorLen_append {c : Byte} {cs : List Byte} (hline : Gap line)
    (h : shellOperatorLen (c :: cs) = 0) : shellOperatorLen (c :: cs ++ line) = 0 := by
  cases cs with
  | cons d cs => exact h
  | nil =>
    have hd : line.headD 0 ≠ 38 ∧ line.headD 0 ≠ 61 := by
      cases line with
      | nil => decide
      | cons b rest =>
        have hb : isBlank b = true := hline b (by simp)
        simp only [isBlank, Bool.or_eq_true, decide_eq_true_eq] at hb
        rcases hb with rfl | rfl
        · exact ⟨(by decide : (32 : Byte) ≠ 38), (by decide : (32 : Byte) ≠ 61)⟩
        · exact ⟨(by decide : (9 : Byte) ≠ 38), (by decide : (9 : Byte) ≠ 61)⟩
    simp only [shellOperatorLen, List.headD_cons, List.tail_cons, List.headD_nil] at h
    simp only [shellOperatorLen, List.cons_append, List.nil_append, List.headD_cons, List.tail_cons,
      hd.1, hd.2, and_false, or_false, if_false]
    split_ifs at h ⊢ <;> simp_all

theorem scanToken_gap (hline : Gap line) : scanToken none line = ([], .blank line.tail) := by
  cases line with
  | nil => rfl
  | cons b rest =>
    have hb : isBlank b = true := hline b (by simp)
    have hq : isQuote b = false := by
      simp only [isBlank, Bool.or_eq_true, decide_eq_true_eq] at hb
      rcases hb with rfl | rfl <;> rfl
    simp only [scanToken, hq, hb, Bool.false_eq_true, if_false, if_true, List.tail_cons]

theorem scanToken_plain : ∀ {cs : List Byte}, Gap line →
    (∀ c ∈ cs, isQuote c = false ∧ isBlank c = false) → (∀ t ∈ cs.tails, shellOperatorLen t = 0) →
    scanToken none (cs ++ line) = (cs, .blank line.tail) := by
  intro cs hline
  induction cs with
  | nil => intro _ _; exact scanToken_gap hline
  | cons c cs ih =>
    intro hchars hops
    obtain ⟨hq, hb⟩ := hchars c (by simp)
    have hop : shellOperatorLen (c :: cs ++ line) = 0 :=
      shellOperatorLen_append hline (hops (c :: cs) (by simp))
    have hrest := ih (fun d hd => hchars d (by simp [hd]))
      (fun t ht => hops t (by rw [List.mem_tails] at ht ⊢; exact ht.trans (List.suffix_cons c cs)))
    rw [List.cons_append] at hop ⊢
    simp only [scanToken, hq, hb, hop, hrest, Bool.false_eq_true, if_false, lt_irrefl]

theorem scanToken_quoted {q : Byte} : ∀ {cs : List Byte}, q ∉ cs →
    scanToken (some q) (cs ++ q :: line) = (cs ++ (scanToken none line).1, (scanToken none line).2) := by
  intro cs
  induction cs with
  | nil => intro _; simp [scanToken]
  | cons c cs ih =>
    intro hq
    have hc : c ≠ q := fun e => hq (by simp [e])
    rw [List.cons_append, scanToken, if_neg hc, ih (fun h => hq (by simp [h]))]
    rfl

/-- **A word is scanned whole, and without its quotes.** -/
theorem scanToken_render (hw : w.Ok) (hline : Gap line) :
    scanToken none (w.render ++ line) = (w.text, .blank line.tail) := by
  obtain ⟨quote, text⟩ := w
  cases quote with
  | none => exact scanToken_plain hline hw.2.1 hw.2.2
  | some q =>
    have hq : isQuote q = true := hw.1
    simp only [Word.render, List.cons_append, List.append_assoc, List.nil_append, scanToken, hq,
      if_true]
    rw [scanToken_quoted hw.2, scanToken_gap hline, List.append_nil]

theorem Word.Ok.render_head (hw : w.Ok) (hline : Gap line) :
    ∃ c cs, w.render ++ line = c :: cs ∧ isBlank c = false ∧ shellOperatorLen (c :: cs) = 0 := by
  obtain ⟨quote, text⟩ := w
  cases quote with
  | none =>
    obtain ⟨hne, hchars, hops⟩ := hw
    cases text with
    | nil => exact absurd rfl hne
    | cons c cs =>
      exact ⟨c, cs ++ line, rfl, (hchars c (by simp)).2,
        shellOperatorLen_append hline (hops (c :: cs) (by simp))⟩
  | some q =>
    have hq : isQuote q = true := hw.1
    refine ⟨q, text ++ q :: line, by simp [Word.render], ?_, ?_⟩
    · simp only [isQuote, Bool.or_eq_true, decide_eq_true_eq] at hq
      rcases hq with rfl | rfl <;> rfl
    · simp only [isQuote, Bool.or_eq_true, decide_eq_true_eq] at hq
      rcases hq with rfl | rfl <;> rfl

theorem splitLoop_tail (room opSlot : ℕ) (ops : OpStorage) (hline : Gap line) :
    splitLoop room opSlot ops line.tail = splitLoop room opSlot ops line := by
  cases line with
  | nil => rfl
  | cons b rest =>
    have hb : isBlank b = true := hline b (by simp)
    cases room with
    | zero => simp only [splitLoop]
    | succ room => simp only [splitLoop, List.tail_cons, List.dropWhile_cons, hb, if_true]

theorem splitLoop_spells (opSlot : ℕ) (ops : OpStorage) (h : Spells ws line) :
    ∀ room, ws.length ≤ room →
      splitLoop room opSlot ops line = (ws.map fun w => .text w.text, ops) := by
  induction h with
  | nil hgap =>
    intro room _
    cases room with
    | zero => simp only [splitLoop, List.map_nil]
    | succ room =>
      have hdrop := List.dropWhile_eq_nil_iff.2 hgap
      simp only [splitLoop, hdrop, List.map_nil]
  | @cons w ws gap line hgap hw hline hws ih =>
    intro room hroom
    obtain ⟨room, rfl⟩ : ∃ n, room = n + 1 := ⟨room - 1, by simp at hroom; omega⟩
    obtain ⟨c, cs, hcs, hc, hop⟩ := hw.render_head hline
    have hdrop : (gap ++ (w.render ++ line)).dropWhile isBlank = c :: cs := by
      rw [List.dropWhile_append_of_pos hgap, hcs, List.dropWhile_cons_of_neg (by simp [hc])]
    have hscan := scanToken_render hw hline
    rw [hcs] at hscan
    have hrec := ih room (by simpa using hroom)
    simp only [splitLoop, hdrop, hop, hscan, lt_irrefl, if_false, splitLoop_tail room opSlot ops hline,
      hrec, List.map_cons]

/-- **A line is split into its words.** -/
theorem splitArgs_spells (ops : OpStorage) (h : Spells ws line) (hlen : ws.length < argvMax) :
    splitArgs ops line = (ws.map fun w => .text w.text, ops) :=
  splitLoop_spells 0 ops h (argvMax - 1) (Nat.le_sub_one_of_lt hlen)

end Tnu.Shell
