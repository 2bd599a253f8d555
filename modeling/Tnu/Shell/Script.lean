/-
**Expanding a line of a script.**

`script_expand_line` of `kernel/shell/tsh.c` copies a line of a script into a buffer and replaces what a `$`
starts: a positional parameter, all of them, the status of the last command, or a variable.  A `$` in front of
anything else stays, together with the character behind it; these two are written after a check that is right
for one, so that the terminator behind them may miss the buffer.

Main definitions:

* `ScriptItem`, `lineItems` — what the line is made of;
* `expansion` — the whole text.

Main results:

* `source_lineItems` — the items are the whole line;
* `emitItem_leaves` — **an item is appended**, unless it is the one that spoils the buffer;
* `expandLaw_iff` — **the expansion stays in the buffer exactly when no such item starts in front of its
  last two places**.
-/

import Tnu.CString
import Tnu.Printf
import Tnu.Lib.Buffer

set_option autoImplicit false

namespace Tnu.Shell

/-! ### What a line is made of -/

/-- A character, or what a `$` starts. -/
inductive ScriptItem
  /-- A character that stands for itself. -/
  | char (c : Byte)
  /-- `$0` to `$9`. -/
  | param (index : ℕ)
  /-- `$@`. -/
  | params
  /-- `$?`. -/
  | status
  /-- A variable. -/
  | var (key : List Byte)
  /-- A `$` in front of anything else. -/
  | other (next : Byte)
  /-- A `$` at the end of the line. -/
  | dollar

/-- `$`. -/
def dollarSign : Byte := 36

def isDigitChar (c : Byte) : Bool := 48 ≤ c && c ≤ 57

def startsName (c : Byte) : Bool := (65 ≤ c && c ≤ 90) || (97 ≤ c && c ≤ 122) || c = 95

def inName (c : Byte) : Bool := startsName c || isDigitChar c

/-- The characters of a name behind the first one; `key` holds 31 characters. -/
def nameTail (rest : List Byte) : List Byte := (rest.takeWhile inName).take 30

/-- The item that starts with `c`, and what is left of the line. -/
def readItem (c : Byte) (rest : List Byte) : ScriptItem × List Byte :=
  if c ≠ dollarSign then (.char c, rest)
  else
    match rest with
    | [] => (.dollar, [])
    | next :: rest =>
      if isDigitChar next then (.param (next.toNat - 48), rest)
      else if next = 64 then (.params, rest)
      else if next = 63 then (.status, rest)
      else if startsName next then (.var (next :: nameTail rest), rest.drop (nameTail rest).length)
      else (.other next, rest)

def readItems : ℕ → List Byte → List ScriptItem
  | 0, _ => []
  | _ + 1, [] => []
  | fuel + 1, c :: rest => (readItem c rest).1 :: readItems fuel (readItem c rest).2

def lineItems (line : List Byte) : List ScriptItem := readItems line.length line

def ScriptItem.source : ScriptItem → List Byte
  | .char c => [c]
  | .param index => [dollarSign, UInt8.ofNat (48 + index)]
  | .params => [dollarSign, 64]
  | .status => [dollarSign, 63]
  | .var key => dollarSign :: key
  | .other next => [dollarSign, next]
  | .dollar => [dollarSign]

/-! ### The source -/

/-- The buffer, and the position in it. -/
structure ScriptOut where
  buf : List Byte
  pos : ℕ

/-- `out[pos++] = c`. -/
def ScriptOut.put (o : ScriptOut) (c : Byte) : Option ScriptOut := (Buffer.put o.buf o.pos c).map fun buf => ⟨buf, o.pos + 1⟩

/-- `out[pos] = '\0'`. -/
def ScriptOut.stop (o : ScriptOut) : Option ScriptOut := (Buffer.put o.buf o.pos 0).map fun buf => ⟨buf, o.pos⟩

def scriptAppend (o : ScriptOut) : List Byte → Option ScriptOut
  | [] => o.stop
  | c :: text => if o.pos + 1 < o.buf.length then (o.put c).bind fun o => scriptAppend o text else o.stop

/-- What the expansion looks at: the parameters, the status, the variables and the user. -/
structure ScriptVars where
  argv : List CString
  status : ℤ
  envs : List (CString × CString)
  userName : CString
  userHome : CString

/-- `%d`. -/
def decimalText (n : ℤ) : List Byte := (if n < 0 then [45] else []) ++ unsignedToString 10 n.natAbs

def envGetValue (v : ScriptVars) (key : List Byte) : Option (List Byte) :=
  (v.envs.find? fun e => e.1.chars = key).map fun e => e.2.chars

def varText (v : ScriptVars) (key : List Byte) : List Byte :=
  match envGetValue v key with
  | some value => value
  | none => if key = lit "USER" then v.userName.chars else if key = lit "HOME" then v.userHome.chars else []

/-- The loop over the parameters from the first one on; a blank goes in front of the later ones. -/
def appendParams (o : ScriptOut) : Bool → List CString → Option ScriptOut
  | _, [] => some o
  | later, a :: as =>
    (if later then scriptAppend o [32] else some o).bind fun o =>
      (scriptAppend o a.chars).bind fun o => appendParams o true as

/-- The body of the loop of `script_expand_line`. -/
def emitItem (v : ScriptVars) (o : ScriptOut) : ScriptItem → Option ScriptOut
  | .char c => (o.put c).bind ScriptOut.stop
  | .param index =>
    match v.argv[index]? with
    | some a => scriptAppend o a.chars
    | none => some o
  | .params => appendParams o false v.argv.tail
  | .status => scriptAppend o (ksnprintf 16 (decimalText v.status))
  | .var key => scriptAppend o (varText v key)
  | .other next => ((o.put dollarSign).bind fun o => o.put next).bind ScriptOut.stop
  | .dollar => o.put dollarSign

def emitItems (v : ScriptVars) : List ScriptItem → ScriptOut → Option ScriptOut
  | [], o => o.stop
  | x :: xs, o => if o.pos + 1 < o.buf.length then (emitItem v o x).bind (emitItems v xs) else o.stop

/-- `script_expand_line`; the buffer has as many bytes as `out_size` says. -/
def scriptExpandLine (v : ScriptVars) (line : CString) (out : List Byte) : Option (List Byte) :=
  (Buffer.put out 0 0).bind fun out => (emitItems v (lineItems line.chars) ⟨out, 0⟩).map ScriptOut.buf

/-! ### What it should do -/

def itemText (v : ScriptVars) : ScriptItem → List Byte
  | .char c => [c]
  | .param index => ((v.argv[index]?).map CString.chars).getD []
  | .params => [32].intercalate (v.argv.tail.map CString.chars)
  | .status => ksnprintf 16 (decimalText v.status)
  | .var key => varText v key
  | .other next => [dollarSign, next]
  | .dollar => [dollarSign]

def expansion (v : ScriptVars) (items : List ScriptItem) : List Byte := items.flatMap (itemText v)

/-- Nothing but the buffer is written, and it holds the expansion or the front of it, and a terminator. -/
def ExpandLaw (v : ScriptVars) (line : CString) (out : List Byte) : Prop :=
  ∃ out' text rest, scriptExpandLine v line out = some out' ∧ out'.length = out.length ∧ out' = text ++ 0 :: rest ∧
    text <+: expansion v (lineItems line.chars)

/-- A `$` that stays, with a character behind it, comes in front of the last two places of the buffer. -/
def DollarAtEnd (v : ScriptVars) (line : CString) (size : ℕ) : Prop :=
  ∃ front next rest, lineItems line.chars = front ++ .other next :: rest ∧ (expansion v front).length + 2 = size

/-! ### One item -/

variable {v : ScriptVars} {o : ScriptOut} {text : List Byte}

def ScriptOut.Shows (o : ScriptOut) (text : List Byte) : Prop := Buffer.Shows text o.buf o.pos

/-- A step that leaves a buffer of the same size, which shows a text. -/
def Leaves (o : ScriptOut) (r : Option ScriptOut) (text : List Byte) : Prop :=
  ∃ o', r = some o' ∧ o'.buf.length = o.buf.length ∧ o'.Shows text

theorem Leaves.bind {r : Option ScriptOut} {f : ScriptOut → Option ScriptOut} {text' : List Byte}
    (h : Leaves o r text)
    (hf : ∀ o', o'.buf.length = o.buf.length → o'.Shows text → Leaves o' (f o') text') :
    Leaves o (r.bind f) text' := by
  obtain ⟨o₁, rfl, hlen₁, hshows₁⟩ := h
  obtain ⟨o₂, hr, hlen₂, hshows₂⟩ := hf o₁ hlen₁ hshows₁
  exact ⟨o₂, hr, hlen₂.trans hlen₁, hshows₂⟩

theorem put_leaves (h : o.Shows text) (hroom : o.pos + 1 < o.buf.length) (c : Byte) :
    Leaves o (o.put c) (text ++ [c]) := by
  obtain ⟨buf, hput, hlen, hshows⟩ := Buffer.Shows.grow h hroom c
  exact ⟨⟨buf, o.pos + 1⟩, by rw [ScriptOut.put, hput]; rfl, hlen, hshows⟩

theorem stop_leaves (h : o.Shows text) : Leaves o o.stop text := by
  obtain ⟨rest, hput, hshows⟩ := Buffer.Shows.stop h 0
  exact ⟨⟨_, o.pos⟩, by rw [ScriptOut.stop, hput]; rfl, Buffer.length_put hput, hshows⟩

theorem scriptAppend_leaves (h : o.Shows text) (l : List Byte) : Leaves o (scriptAppend o l) (text ++ l) := by
  induction l generalizing o text with
  | nil =>
    rw [List.append_nil]
    exact stop_leaves h
  | cons c l ih =>
    rw [scriptAppend]
    split_ifs with hroom
    · refine (put_leaves h hroom c).bind fun o' _ hshows => ?_
      simpa using ih hshows
    · exact stop_leaves (Buffer.Shows.full h hroom _)

theorem appendParams_leaves (h : o.Shows text) (later : Bool) (as : List CString) :
    Leaves o (appendParams o later as)
      (text ++ (if later ∧ as ≠ [] then [32] else []) ++ [32].intercalate (as.map CString.chars)) := by
  induction as generalizing o text later with
  | nil => exact ⟨o, rfl, rfl, by simpa using h⟩
  | cons a as ih =>
    rw [appendParams]
    have hblank : Leaves o (if later then scriptAppend o [32] else some o)
        (text ++ if later then [32] else []) := by
      cases later with
      | false => exact ⟨o, rfl, rfl, by simpa using h⟩
      | true => exact scriptAppend_leaves h [32]
    refine hblank.bind fun o₁ _ h₁ => (scriptAppend_leaves h₁ a.chars).bind fun o₂ _ h₂ => ?_
    have hrest := ih h₂ true
    cases as with
    | nil => cases later <;> simpa using hrest
    | cons b as => cases later <;> simpa [List.intercalate, List.intersperse] using hrest

def ScriptItem.Spoils (x : ScriptItem) (o : ScriptOut) : Prop := ∃ next, x = .other next ∧ o.pos + 2 = o.buf.length

/-- **An item is appended**, unless it is the one that spoils the buffer. -/
theorem emitItem_leaves (h : o.Shows text) (hroom : o.pos + 1 < o.buf.length) {x : ScriptItem}
    (hx : ¬ x.Spoils o) : Leaves o (emitItem v o x) (text ++ itemText v x) := by
  cases x with
  | char c => exact (put_leaves h hroom c).bind fun o' _ h' => stop_leaves h'
  | param index =>
    rw [emitItem, itemText]
    cases v.argv[index]? with
    | none => exact ⟨o, rfl, rfl, by simpa using h⟩
    | some a => exact scriptAppend_leaves h a.chars
  | params => simpa [emitItem, itemText] using appendParams_leaves h false v.argv.tail
  | status => exact scriptAppend_leaves h _
  | var key => exact scriptAppend_leaves h _
  | other next =>
    have hpos : o.pos + 2 ≠ o.buf.length := fun he => hx ⟨next, rfl, he⟩
    have htext := Buffer.Shows.length_eq h hroom
    have hboth : Leaves o ((o.put dollarSign).bind fun o => o.put next) (text ++ [dollarSign] ++ [next]) := by
      refine (put_leaves h hroom dollarSign).bind fun o' hlen h' => ?_
      have hpos' : o'.pos = o.pos + 1 := by
        obtain ⟨rest, -, -, hpos'⟩ := h'
        rw [hpos', hlen, List.length_take, List.length_append, htext, List.length_singleton]
        omega
      exact put_leaves h' (by omega) next
    simpa [emitItem, itemText] using hboth.bind fun o' _ h' => stop_leaves h'
  | dollar => exact put_leaves h hroom dollarSign

theorem emitItem_of_spoils {x : ScriptItem} (hx : x.Spoils o) : emitItem v o x = none := by
  obtain ⟨next, rfl, hpos⟩ := hx
  have h₁ : o.pos < o.buf.length := by omega
  have h₂ : o.pos + 1 < o.buf.length := by omega
  have h₃ : ¬ o.pos + 1 + 1 < o.buf.length := by omega
  simp [emitItem, ScriptOut.put, ScriptOut.stop, Buffer.put, h₁, h₂, h₃]

/-! ### A whole line -/

theorem ScriptOut.Shows.pos_eq (h : o.Shows text) (hlen : text.length + 1 < o.buf.length) : o.pos = text.length := by
  obtain ⟨rest, -, -, hpos⟩ := h
  rw [hpos, List.length_take]
  omega

def Spoiled (v : ScriptVars) (text : List Byte) (size : ℕ) (xs : List ScriptItem) : Prop :=
  ∃ front next rest, xs = front ++ .other next :: rest ∧ (text ++ expansion v front).length + 2 = size

theorem spoiled_cons {x : ScriptItem} {xs : List ScriptItem} {size : ℕ} :
    Spoiled v text size (x :: xs) ↔
      (∃ next, x = .other next ∧ text.length + 2 = size) ∨ Spoiled v (text ++ itemText v x) size xs := by
  constructor
  · rintro ⟨front, next, rest, hxs, hlen⟩
    cases front with
    | nil =>
      obtain ⟨rfl, rfl⟩ := List.cons.inj hxs
      exact .inl ⟨next, rfl, by simpa [expansion] using hlen⟩
    | cons y front =>
      obtain ⟨rfl, rfl⟩ := List.cons.inj hxs
      exact .inr ⟨front, next, rest, rfl, by simpa [expansion, Nat.add_assoc] using hlen⟩
  · rintro (⟨next, rfl, hlen⟩ | ⟨front, next, rest, rfl, hlen⟩)
    · exact ⟨[], next, xs, rfl, by simpa [expansion] using hlen⟩
    · exact ⟨x :: front, next, rest, rfl, by simpa [expansion, Nat.add_assoc] using hlen⟩

theorem stop_holds (h : o.Shows text) :
    ∃ o', o.stop = some o' ∧ o'.buf.length = o.buf.length ∧ ∃ front rest, o'.buf = front ++ 0 :: rest ∧ front <+: text := by
  obtain ⟨rest, hput, -⟩ := Buffer.Shows.stop h 0
  exact ⟨⟨_, o.pos⟩, by rw [ScriptOut.stop, hput]; rfl, Buffer.length_put hput, _, rest, rfl, List.take_prefix _ _⟩

/-- **A run over the items** ends with the front of their text in the buffer, or misses the buffer. -/
theorem emitItems_spec (xs : List ScriptItem) (h : o.Shows text) :
    (¬ Spoiled v text o.buf.length xs → ∃ o', emitItems v xs o = some o' ∧ o'.buf.length = o.buf.length ∧
      ∃ front rest, o'.buf = front ++ 0 :: rest ∧ front <+: text ++ expansion v xs) ∧
    (Spoiled v text o.buf.length xs → emitItems v xs o = none) := by
  induction xs generalizing o text with
  | nil =>
    refine ⟨fun _ => ?_, ?_⟩
    · simpa [emitItems, expansion] using stop_holds h
    · rintro ⟨front, next, rest, hxs, -⟩
      simp at hxs
  | cons x xs ih =>
    rw [emitItems]
    by_cases hroom : o.pos + 1 < o.buf.length
    · rw [if_pos hroom]
      have htext := Buffer.Shows.length_eq h hroom
      by_cases hx : x.Spoils o
      · rw [emitItem_of_spoils hx]
        obtain ⟨next, rfl, hpos⟩ := hx
        have hspoiled : Spoiled v text o.buf.length (.other next :: xs) :=
          spoiled_cons.2 (.inl ⟨next, rfl, by omega⟩)
        exact ⟨fun hnot => absurd hspoiled hnot, fun _ => rfl⟩
      · obtain ⟨o', hemit, hlen, hshows⟩ := emitItem_leaves (v := v) h hroom hx
        have hiff : Spoiled v text o.buf.length (x :: xs) ↔
            Spoiled v (text ++ itemText v x) o'.buf.length xs := by
          rw [spoiled_cons, hlen]
          refine or_iff_right ?_
          rintro ⟨next, rfl, hpos⟩
          exact hx ⟨next, rfl, by omega⟩
        rw [hemit, Option.bind_some, hiff, ← hlen]
        simpa [expansion] using ih hshows
    · rw [if_neg hroom]
      refine ⟨fun _ => ?_, ?_⟩
      · obtain ⟨o', hstop, hlen, front, rest, hbuf, hfront⟩ := stop_holds h
        exact ⟨o', hstop, hlen, front, rest, hbuf, hfront.trans (List.prefix_append _ _)⟩
      · -- No room is left, so the text in front of the item has been cut.
        rintro ⟨front, next, rest, -, hlen⟩
        rw [List.length_append] at hlen
        exact absurd (h.pos_eq (by omega)) (by omega)

/-- **The expansion stays in the buffer exactly when no `$` that stays, with a character behind it, comes in front of
the last two places.** -/
theorem expandLaw_iff (v : ScriptVars) (line : CString) {out : List Byte} (hout : 0 < out.length) :
    ExpandLaw v line out ↔ ¬ DollarAtEnd v line out.length := by
  obtain ⟨y, rest, rfl⟩ := List.exists_cons_of_ne_nil (List.ne_nil_of_length_pos hout)
  have hstart : Buffer.put (y :: rest) 0 0 = some (0 :: rest) := Buffer.put_append [] rest 0 y
  have hshows : ScriptOut.Shows ⟨0 :: rest, 0⟩ [] := ⟨0 :: rest, by simp, by simp, by simp⟩
  obtain ⟨hkept, hmissed⟩ := emitItems_spec (v := v) (lineItems line.chars) hshows
  have hspoiled : Spoiled v [] (0 :: rest).length (lineItems line.chars) ↔ DollarAtEnd v line (y :: rest).length := by
    simp [Spoiled, DollarAtEnd]
  rw [hspoiled] at hkept hmissed
  constructor
  · rintro ⟨out', text, rest', hrun, -⟩ hat
    rw [scriptExpandLine, hstart, Option.bind_some, hmissed hat] at hrun
    simp at hrun
  · intro hnot
    obtain ⟨o', hrun, hlen, text, rest', hbuf, htext⟩ := hkept hnot
    refine ⟨o'.buf, text, rest', ?_, by simpa using hlen, hbuf, by simpa using htext⟩
    rw [scriptExpandLine, hstart, Option.bind_some, hrun]
    rfl

/-- A line without a `$`. -/
theorem expandLaw_plain : ExpandLaw ⟨[], 0, [], ⟨lit "root", by decide⟩, ⟨lit "/root", by decide⟩⟩
    ⟨lit "ls", by decide⟩ [1, 1] := by
  refine (expandLaw_iff _ _ (by decide)).2 ?_
  rintro ⟨front, next, rest, hitems, -⟩
  have hmem : ScriptItem.other next ∈ lineItems (lit "ls") := by
    rw [hitems]
    simp
  have hplain : lineItems (lit "ls") = [.char 108, .char 115] := by rfl
  simp [hplain] at hmem

/-- `$.` in a buffer of two bytes: the terminator goes behind them. -/
theorem not_expandLaw : ¬ ∀ (v : ScriptVars) (line : CString) (out : List Byte), 0 < out.length → ExpandLaw v line out := by
  intro h
  obtain ⟨out', text, rest, hrun, -⟩ :=
    h ⟨[], 0, [], ⟨lit "root", by decide⟩, ⟨lit "/root", by decide⟩⟩ ⟨lit "$.", by decide⟩ [1, 1] (by decide)
  have hnone : scriptExpandLine ⟨[], 0, [], ⟨lit "root", by decide⟩, ⟨lit "/root", by decide⟩⟩ ⟨lit "$.", by decide⟩
      [1, 1] = none := by rfl
  rw [hnone] at hrun
  simp at hrun

end Tnu.Shell
