/-
**The line editor of the shell.**

`read_line` of `kernel/shell/tsh.c` keeps a line in a buffer, with its length, a cursor and a selection, and moves
what stands behind the cursor with every key.  Here a write or a read outside of a buffer has no result.  What is
drawn on the screen is left out.

A letter that is typed over a selection replaces it, but when the line is full the letter is dropped before the
selection is looked at.

Main definitions:

* `FitKeys` — no letter is typed over a selection of a full line.

Main results:

* `readKey_spec` — a key;
* `readLine_spec` — **the line stays well formed under all keys, and is the edited text as long as no letter is
  typed over a selection of a full line**.
-/

import Tnu.Lib.Buffer
import Tnu.Lib.TextEdit
import Tnu.Shell.Split
import Tnu.Vfs.Path

set_option autoImplicit false

namespace Tnu.Shell

open Vfs

/-! ### The line -/

/-- `line`, `len`, `cursor`, `sel_active` and `sel_anchor`. -/
structure LineBuf where
  line : List Byte
  len : ℕ
  cursor : ℕ
  selActive : Bool
  selAnchor : ℕ

/-- `replace_line`; `strncpy` fills the rest with zeros. -/
def replaceLine (size : ℕ) (b : LineBuf) (replacement : List Byte) : Option LineBuf := do
  let line ← Buffer.copy b.line 0 (replacement.take (size - 1) ++ List.replicate (size - 1 - replacement.length) 0)
  let line ← Buffer.put line (size - 1) 0
  some { b with line := line, len := (cstr line).length, cursor := (cstr line).length }

def insertText (size : ℕ) (b : LineBuf) (text : List Byte) : Option LineBuf :=
  if text.length = 0 ∨ size ≤ b.len + text.length then some b
  else do
    let line ← Buffer.move b.line (b.cursor + text.length) b.cursor (b.len - b.cursor + 1)
    let line ← Buffer.copy line b.cursor text
    some { b with line := line, len := b.len + text.length, cursor := b.cursor + text.length }

def selectionBounds (b : LineBuf) : ℕ × ℕ :=
  if b.selActive = false then (b.cursor, b.cursor)
  else (if b.selAnchor < b.cursor then b.selAnchor else b.cursor, if b.selAnchor < b.cursor then b.cursor else b.selAnchor)

def deleteSelection (b : LineBuf) : Option LineBuf :=
  if (selectionBounds b).1 = (selectionBounds b).2 then some { b with selActive := false }
  else do
    let line ← Buffer.move b.line (selectionBounds b).1 (selectionBounds b).2 (b.len - (selectionBounds b).2 + 1)
    some ⟨line, b.len - ((selectionBounds b).2 - (selectionBounds b).1), (selectionBounds b).1, false, b.selAnchor⟩

def typeChar (b : LineBuf) (c : Byte) : Option LineBuf := do
  let line ← Buffer.move b.line (b.cursor + 1) b.cursor (b.len - b.cursor + 1)
  let line ← Buffer.put line b.cursor c
  some { b with line := line, len := b.len + 1, cursor := b.cursor + 1 }

def eraseLeft (b : LineBuf) : Option LineBuf := do
  let line ← Buffer.move b.line (b.cursor - 1) b.cursor (b.len - b.cursor + 1)
  some { b with line := line, len := b.len - 1, cursor := b.cursor - 1 }

def eraseRight (b : LineBuf) : Option LineBuf := do
  let line ← Buffer.move b.line b.cursor (b.cursor + 1) (b.len - b.cursor)
  some { b with line := line, len := b.len - 1 }

/-! ### Completion -/

abbrev historyMax : ℕ := 16

/-- What the editor finds: the size of the line, the history, and the names that `complete_command` and `complete_path`
go through for a word. -/
structure LineEnv where
  size : ℕ
  size_pos : 0 < size
  size_le : size ≤ lineMax
  history : List (CharBuf (lineMax - 1))
  history_le : history.length ≤ historyMax
  commands : List Byte → List (CharBuf (vfsPathMax - 1))
  paths : List Byte → List (CharBuf (vfsPathMax - 1))

/-- `common` and `count` of `struct completion_ctx`. -/
structure Completion where
  common : List Byte
  count : ℕ

def commonFront : List Byte → List Byte → List Byte
  | a :: as, b :: bs => if a = b then a :: commonFront as bs else []
  | _, _ => []

def completionConsider (word : List Byte) (ctx : Completion) (candidate : CharBuf (vfsPathMax - 1)) : Completion :=
  if ¬ word <+: candidate.chars then ctx
  else ⟨if ctx.count = 0 then candidate.chars else commonFront ctx.common candidate.chars, ctx.count + 1⟩

def isWordEnd (c : Byte) : Bool := c = 32 || c = 9 || c = 124 || c = 38 || c = 60 || c = 62

def wordBefore (before : List Byte) : List Byte := (before.reverse.takeWhile fun c => !isWordEnd c).reverse

/-- `completion_is_command_position`, for what stands in front of the word. -/
def completionIsCommandPosition (front : List Byte) : Bool :=
  match front.reverse.dropWhile fun c => c = 32 || c = 9 with
  | [] => true
  | 124 :: _ => true
  | 38 :: 38 :: _ => true
  | _ => false

/-- What `handle_tab` puts in for a line up to the cursor; nothing when it lists the names or finds none. -/
def completionOf (env : LineEnv) (before : List Byte) : List Byte :=
  let word := wordBefore before
  if vfsPathMax ≤ word.length then []
  else
    let front := before.take (before.length - word.length)
    let names := if completionIsCommandPosition front = true ∧ slash ∉ word then env.commands word else env.paths word
    let ctx := names.foldl (completionConsider word) ⟨[], 0⟩
    if ctx.count ≠ 0 ∧ word.length < ctx.common.length then ctx.common.drop word.length else []

def handleTab (env : LineEnv) (b : LineBuf) : Option LineBuf :=
  insertText env.size b (completionOf env (b.line.take b.cursor))

/-! ### Keys -/

/-- The keys that `read_line` tells apart. -/
inductive Key
  | enter
  | interrupt
  | copy
  | paste
  | tab
  | left
  | right
  | shiftLeft
  | shiftRight
  | home
  | stop
  | up
  | down
  | backspace
  | delete
  | char (c : Byte)
  | other
  deriving DecidableEq, Repr

/-- The key with a code of `console_getchar`. -/
def Key.ofCode (ch : ℤ) : Key :=
  if ch = 10 ∨ ch = 13 then .enter
  else if ch = 0x108 then .interrupt
  else if ch = 0x109 then .copy
  else if ch = 0x10a then .paste
  else if ch = 9 then .tab
  else if ch = 0x103 then .left
  else if ch = 0x104 then .right
  else if ch = 0x10b then .shiftLeft
  else if ch = 0x10c then .shiftRight
  else if ch = 0x105 then .home
  else if ch = 0x106 then .stop
  else if ch = 0x101 then .up
  else if ch = 0x102 then .down
  else if ch = 8 ∨ ch = 127 then .backspace
  else if ch = 0x107 then .delete
  else if 32 ≤ ch ∧ ch ≤ 255 then .char (UInt8.ofNat ch.toNat)
  else .other

/-- The line, `history_index` (none for -1), `saved` and `shell_clipboard`. -/
structure Editor where
  buf : LineBuf
  historyIndex : Option ℕ
  saved : List Byte
  clipboard : List Byte

/-- What a key leads to: more keys, a line that is finished, with the history it is added to, or one that is given
up. -/
inductive Outcome (α : Type)
  | editing (s : α)
  | entered (line : List Byte) (history : List (CharBuf (lineMax - 1)))
  | interrupted

def addHistory (history : List (CharBuf (lineMax - 1))) (line : List Byte) : List (CharBuf (lineMax - 1)) :=
  if line = [] then history
  else if history.length < historyMax then history ++ [.strncpy _ line]
  else history.tail ++ [.strncpy _ line]

def LineBuf.select (b : LineBuf) : LineBuf :=
  if b.selActive then b else { b with selActive := true, selAnchor := b.cursor }

/-- One round of the loop of `read_line`. -/
def readKey (env : LineEnv) (s : Editor) : Key → Option (Outcome Editor)
  | .enter => do
      let line ← Buffer.put s.buf.line s.buf.len 0
      some (.entered (cstr line) (addHistory env.history (cstr line)))
  | .interrupt => (Buffer.put s.buf.line 0 0).map fun _ => .interrupted
  | .copy =>
    let r := selectionBounds s.buf
    if r.1 < r.2 ∧ r.2 - r.1 < lineMax then
      if r.2 ≤ s.buf.line.length then
        some (.editing { s with clipboard := (s.buf.line.drop r.1).take (r.2 - r.1) })
      else none
    else some (.editing s)
  | .paste => do
      let b ← if s.buf.selActive then deleteSelection s.buf else some s.buf
      let b ← insertText env.size b s.clipboard
      some (.editing { s with buf := b })
  | .tab => (handleTab env { s.buf with selActive := false }).map fun b => .editing { s with buf := b }
  | .left => some (.editing { s with buf := { s.buf with selActive := false, cursor := s.buf.cursor - 1 } })
  | .right =>
    some (.editing { s with buf :=
      { s.buf with selActive := false, cursor := if s.buf.cursor < s.buf.len then s.buf.cursor + 1 else s.buf.cursor } })
  | .shiftLeft => some (.editing { s with buf := { s.buf.select with cursor := s.buf.cursor - 1 } })
  | .shiftRight =>
    some (.editing { s with buf :=
      { s.buf.select with cursor := if s.buf.cursor < s.buf.len then s.buf.cursor + 1 else s.buf.cursor } })
  | .home => some (.editing { s with buf := { s.buf with selActive := false, cursor := 0 } })
  | .stop => some (.editing { s with buf := { s.buf with selActive := false, cursor := max s.buf.cursor s.buf.len } })
  | .up =>
    if env.history.length = 0 then some (.editing s)
    else do
      -- the line is kept when the history is entered
      let saved ← match s.historyIndex with
        | none => if (cstr s.buf.line).length < lineMax then some (cstr s.buf.line) else none
        | some _ => some s.saved
      let i := match s.historyIndex with
        | none => env.history.length - 1
        | some i => i - 1
      let b ← replaceLine env.size s.buf (← env.history[i]?).chars
      some (.editing { s with buf := { b with selActive := false }, historyIndex := some i, saved := saved })
  | .down =>
    match s.historyIndex with
    | none => some (.editing s)
    | some i =>
      if i + 1 < env.history.length then do
        let b ← replaceLine env.size s.buf (← env.history[i + 1]?).chars
        some (.editing { s with buf := { b with selActive := false }, historyIndex := some (i + 1) })
      else do
        let b ← replaceLine env.size s.buf s.saved
        some (.editing { s with buf := { b with selActive := false }, historyIndex := none })
  | .backspace =>
    if s.buf.selActive then (deleteSelection s.buf).map fun b => .editing { s with buf := b }
    else if s.buf.cursor ≠ 0 then (eraseLeft s.buf).map fun b => .editing { s with buf := b }
    else some (.editing s)
  | .delete =>
    if s.buf.selActive then (deleteSelection s.buf).map fun b => .editing { s with buf := b }
    else if s.buf.cursor < s.buf.len then (eraseRight s.buf).map fun b => .editing { s with buf := b }
    else some (.editing s)
  | .char c =>
    if s.buf.len + 1 < env.size then do
      let b ← if s.buf.selActive then deleteSelection s.buf else some s.buf
      let b ← typeChar b c
      some (.editing { s with buf := b, historyIndex := none })
    else some (.editing s)
  | .other => some (.editing s)

/-- `read_line`, on the codes that are read; an outcome that is not the end of the line has read them all. -/
def readLine (env : LineEnv) : List ℤ → Editor → Option (Outcome Editor)
  | [], s => some (.editing s)
  | ch :: codes, s =>
    (readKey env s (.ofCode ch)).bind fun o =>
      match o with
      | .editing s => readLine env codes s
      | .entered line history => some (.entered line history)
      | .interrupted => some .interrupted

/-- What the editor starts with: an empty line in a buffer that holds anything. -/
def startEditor (line clipboard : List Byte) : Editor := ⟨⟨line.set 0 0, 0, 0, false, 0⟩, none, [], clipboard⟩

/-! ### The same edits of a text -/

/-- A text that is edited, the place in the history, the text that was left for it, and the clipboard. -/
structure PlainLine where
  edit : TextEdit Byte
  historyIndex : Option ℕ
  saved : List Byte
  clipboard : List Byte

def insertFitting (size : ℕ) (t : List Byte) (e : TextEdit Byte) : TextEdit Byte :=
  if t = [] ∨ size ≤ e.text.length + t.length then e else e.insert t

/-- **What a key should do.** -/
def plainKey (env : LineEnv) (p : PlainLine) : Key → Outcome PlainLine
  | .enter => .entered p.edit.text (addHistory env.history p.edit.text)
  | .interrupt => .interrupted
  | .copy => .editing (if p.edit.Selected then { p with clipboard := p.edit.selection } else p)
  | .paste => .editing { p with edit := insertFitting env.size p.clipboard p.edit.cut }
  | .tab =>
    let e := p.edit.moveTo p.edit.cursor
    .editing { p with edit := insertFitting env.size (completionOf env (e.text.take e.cursor)) e }
  | .left => .editing { p with edit := p.edit.moveTo (p.edit.cursor - 1) }
  | .right => .editing { p with edit := p.edit.moveTo (min (p.edit.cursor + 1) p.edit.text.length) }
  | .shiftLeft => .editing { p with edit := p.edit.extendTo (p.edit.cursor - 1) }
  | .shiftRight => .editing { p with edit := p.edit.extendTo (min (p.edit.cursor + 1) p.edit.text.length) }
  | .home => .editing { p with edit := p.edit.moveTo 0 }
  | .stop => .editing { p with edit := p.edit.moveTo p.edit.text.length }
  | .up =>
    .editing (match env.history.getLast?, p.historyIndex with
      | none, _ => p
      | some last, none =>
        { p with edit := .load (last.chars.take (env.size - 1)), historyIndex := some (env.history.length - 1)
                 saved := p.edit.text }
      | some last, some i =>
        { p with edit := .load ((env.history.getD (i - 1) last).chars.take (env.size - 1)), historyIndex := some (i - 1) })
  | .down =>
    .editing (match p.historyIndex with
      | none => p
      | some i =>
        match env.history[i + 1]? with
        | some entry => { p with edit := .load (entry.chars.take (env.size - 1)), historyIndex := some (i + 1) }
        | none => { p with edit := .load p.saved, historyIndex := none })
  | .backspace =>
    .editing { p with edit :=
      if p.edit.anchor.isSome then p.edit.cut
      else if p.edit.cursor = 0 then p.edit
      else p.edit.erase (p.edit.cursor - 1) }
  | .delete =>
    .editing { p with edit :=
      if p.edit.anchor.isSome then p.edit.cut
      else if p.edit.cursor = p.edit.text.length then p.edit
      else p.edit.erase p.edit.cursor }
  | .char c =>
    .editing (if p.edit.Selected ∨ p.edit.text.length + 1 < env.size then
      { p with edit := p.edit.cut.insert [c], historyIndex := none } else p)
  | .other => .editing p

def plainLine (env : LineEnv) : List ℤ → PlainLine → Outcome PlainLine
  | [], p => .editing p
  | ch :: codes, p =>
    match plainKey env p (.ofCode ch) with
    | .editing p => plainLine env codes p
    | .entered line history => .entered line history
    | .interrupted => .interrupted

def FitKey (env : LineEnv) (p : PlainLine) : Key → Prop
  | .char _ => p.edit.Selected → p.edit.text.length + 1 < env.size
  | _ => True

def FitKeys (env : LineEnv) : List ℤ → PlainLine → Prop
  | [], _ => True
  | ch :: codes, p =>
    FitKey env p (.ofCode ch) ∧
      match plainKey env p (.ofCode ch) with
      | .editing p => FitKeys env codes p
      | _ => True

/-! ### What the buffer shows -/

/-- **The buffer shows a text**: it stands in front of a terminator, and the cursor and the selection are those of the
text. -/
structure LineBuf.Shows (size : ℕ) (b : LineBuf) (e : TextEdit Byte) : Prop where
  size_eq : b.line.length = size
  line : ∃ rest, b.line = e.text ++ 0 :: rest
  nul_free : 0 ∉ e.text
  valid : e.Valid
  len : b.len = e.text.length
  cursor : b.cursor = e.cursor
  anchor : e.anchor = if b.selActive then some b.selAnchor else none

variable {env : LineEnv} {size i j : ℕ} {b : LineBuf} {e : TextEdit Byte} {s : Editor} {p : PlainLine} {t : List Byte}

theorem LineBuf.Shows.lt (h : b.Shows size e) : e.text.length < size := by
  obtain ⟨rest, hline⟩ := h.line
  rw [← h.size_eq, hline, List.length_append, List.length_cons]
  omega

theorem LineBuf.Shows.cstr_eq (h : b.Shows size e) : cstr b.line = e.text := by
  obtain ⟨rest, hline⟩ := h.line
  rw [hline, cstr_append_zero h.nul_free]

theorem LineBuf.Shows.take_eq (h : b.Shows size e) (hi : i ≤ e.text.length) : b.line.take i = e.text.take i := by
  obtain ⟨rest, hline⟩ := h.line
  rw [hline, List.take_append_of_le_length hi]

theorem LineBuf.Shows.bounds_eq (h : b.Shows size e) : selectionBounds b = e.bounds := by
  have hanchor := h.anchor
  rw [selectionBounds, TextEdit.bounds, hanchor, h.cursor]
  cases b.selActive with
  | false => rfl
  | true =>
    simp only [Bool.true_eq_false, if_false, if_true]
    rcases Nat.lt_or_ge b.selAnchor e.cursor with hlt | hge
    · rw [if_pos hlt, if_pos hlt, min_eq_left hlt.le, max_eq_right hlt.le]
    · rw [if_neg hge.not_gt, if_neg hge.not_gt, min_eq_right hge, max_eq_left hge]

/-- **Room is made** at a place of the text. -/
theorem LineBuf.Shows.open_gap (h : b.Shows size e) {n : ℕ} (hi : i ≤ e.text.length) (hn : e.text.length + n < size) :
    ∃ gap rest, gap.length = n ∧ Buffer.move b.line (i + n) i (b.len - i + 1) =
      some (e.text.take i ++ (gap ++ (e.text.drop i ++ 0 :: rest))) := by
  obtain ⟨rest, hline⟩ := h.line
  have hsize := h.size_eq
  rw [hline, List.length_append, List.length_cons] at hsize
  have hfront : (e.text.take i).length = i := List.length_take_of_le hi
  have hback : (e.text.drop i ++ [0]).length = b.len - i + 1 := by
    rw [List.length_append, List.length_drop, List.length_singleton, h.len]
  have hlayout : e.text.take i ++ ((e.text.drop i ++ [0]) ++ rest) = b.line := by
    rw [hline, List.append_assoc, ← List.append_assoc (e.text.take i), List.take_append_drop, List.singleton_append]
  obtain ⟨gap, rest', hgap, -, hmove⟩ := Buffer.move_right (e.text.take i) (e.text.drop i ++ [0]) rest
    (show n ≤ rest.length by omega)
  rw [hlayout, hfront, hback] at hmove
  exact ⟨gap, rest', hgap, by rw [hmove, List.append_assoc, List.singleton_append]⟩

/-- **A part of the text is closed over.** -/
theorem LineBuf.Shows.close_gap (h : b.Shows size e) (hij : i ≤ j) (hj : j ≤ e.text.length) :
    ∃ rest, Buffer.move b.line i j (b.len - j + 1) = some (e.text.take i ++ e.text.drop j ++ 0 :: rest) ∧
      (e.text.take i ++ e.text.drop j ++ 0 :: rest).length = size := by
  obtain ⟨rest, hline⟩ := h.line
  have hsize := h.size_eq
  rw [hline, List.length_append, List.length_cons] at hsize
  have hfront : (e.text.take i).length = i := List.length_take_of_le (hij.trans hj)
  have hmid : ((e.text.drop i).take (j - i)).length = j - i :=
    List.length_take_of_le (by rw [List.length_drop]; omega)
  have hback : (e.text.drop j ++ [0]).length = b.len - j + 1 := by
    rw [List.length_append, List.length_drop, List.length_singleton, h.len]
  have hdrop : (e.text.drop i).drop (j - i) = e.text.drop j := by
    rw [List.drop_drop, Nat.add_sub_cancel' hij]
  have hlayout : e.text.take i ++ ((e.text.drop i).take (j - i) ++ ((e.text.drop j ++ [0]) ++ rest)) = b.line := by
    rw [hline, ← hdrop, List.append_assoc, ← List.append_assoc ((e.text.drop i).take (j - i)), List.take_append_drop,
      ← List.append_assoc (e.text.take i), List.take_append_drop, List.singleton_append]
  obtain ⟨rest', hlen, hmove⟩ := Buffer.move_left (e.text.take i) ((e.text.drop i).take (j - i)) (e.text.drop j ++ [0]) rest
  rw [hlayout, hfront, hmid, hback, Nat.add_sub_cancel' hij] at hmove
  refine ⟨rest', by rw [hmove]; simp only [List.append_assoc, List.singleton_append], ?_⟩
  simp only [List.length_append, List.length_cons, List.length_take, List.length_drop]
  rw [hmid] at hlen
  omega

/-! ### The helpers -/

/-- **A text is put in** when there is room for it. -/
theorem insertText_spec (h : b.Shows size e) (ht : 0 ∉ t) :
    ∃ b', insertText size b t = some b' ∧ b'.Shows size (insertFitting size t e) := by
  simp only [insertText, insertFitting, List.length_eq_zero_iff, h.len]
  by_cases hno : t = [] ∨ size ≤ e.text.length + t.length
  · rw [if_pos hno, if_pos hno]
    exact ⟨b, rfl, h⟩
  · rw [if_neg hno, if_neg hno]
    have hroom : e.text.length + t.length < size := Nat.lt_of_not_le fun hle => hno (.inr hle)
    have hcursor := h.valid.cursor_le
    obtain ⟨gap, rest, hgap, hmove⟩ := h.open_gap hcursor hroom
    have hcopy := Buffer.copy_append (e.text.take e.cursor) (e.text.drop e.cursor ++ 0 :: rest) t hgap
    rw [List.length_take_of_le hcursor] at hcopy
    rw [h.len] at hmove
    rw [h.cursor, hmove, Option.bind_eq_bind, Option.bind_some, hcopy, Option.bind_some]
    have hline : e.text.take e.cursor ++ (t ++ (e.text.drop e.cursor ++ 0 :: rest)) =
        (e.insert t).text ++ 0 :: rest := by
      simp only [TextEdit.insert, List.append_assoc]
    refine ⟨_, rfl, ⟨?_, ⟨rest, hline⟩, ?_, h.valid.insert t, (TextEdit.length_insert h.valid t).symm, rfl, h.anchor⟩⟩
    · rw [Buffer.length_copy hcopy, Buffer.length_move hmove, h.size_eq]
    · simp only [TextEdit.insert, List.mem_append, not_or]
      exact ⟨⟨fun hm => h.nul_free (List.mem_of_mem_take hm), ht⟩, fun hm => h.nul_free (List.mem_of_mem_drop hm)⟩

/-- **The selection is taken out.** -/
theorem deleteSelection_spec (h : b.Shows size e) : ∃ b', deleteSelection b = some b' ∧ b'.Shows size e.cut := by
  rw [deleteSelection, h.bounds_eq]
  by_cases hsel : e.bounds.1 = e.bounds.2
  · rw [if_pos hsel, TextEdit.cut_of_not_selected (not_not.mpr hsel)]
    exact ⟨_, rfl, h.size_eq, h.line, h.nul_free, .moveTo h.valid.cursor_le, h.len, h.cursor, rfl⟩
  · rw [if_neg hsel]
    obtain ⟨hle, hend⟩ := h.valid.bounds_le
    obtain ⟨rest, hmove, hsize⟩ := h.close_gap hle hend
    rw [hmove, Option.bind_eq_bind, Option.bind_some]
    refine ⟨_, rfl, hsize, ⟨rest, rfl⟩, ?_, h.valid.cut, ?_, rfl, rfl⟩
    · simp only [TextEdit.cut, List.mem_append, not_or]
      exact ⟨fun hm => h.nul_free (List.mem_of_mem_take hm), fun hm => h.nul_free (List.mem_of_mem_drop hm)⟩
    · rw [TextEdit.length_cut h.valid, h.len]

/-- **A letter is put in.** -/
theorem typeChar_spec (h : b.Shows size e) {c : Byte} (hc : c ≠ 0) (hroom : e.text.length + 1 < size) :
    ∃ b', typeChar b c = some b' ∧ b'.Shows size (e.insert [c]) := by
  have hcursor := h.valid.cursor_le
  obtain ⟨gap, rest, hgap, hmove⟩ := h.open_gap hcursor hroom
  obtain ⟨x, rfl⟩ := List.length_eq_one_iff.mp hgap
  have hput := Buffer.put_append (e.text.take e.cursor) (e.text.drop e.cursor ++ 0 :: rest) c x
  rw [List.length_take_of_le hcursor] at hput
  have hline : e.text.take e.cursor ++ c :: (e.text.drop e.cursor ++ 0 :: rest) = (e.insert [c]).text ++ 0 :: rest := by
    simp only [TextEdit.insert, List.append_assoc, List.cons_append, List.nil_append]
  rw [typeChar, h.cursor, hmove, Option.bind_eq_bind, Option.bind_some, List.singleton_append, hput, Option.bind_some]
  refine ⟨_, rfl, ⟨?_, ⟨rest, hline⟩, ?_, h.valid.insert [c], ?_, rfl, h.anchor⟩⟩
  · rw [Buffer.length_put hput, ← List.singleton_append, Buffer.length_move hmove, h.size_eq]
  · simp only [TextEdit.insert, List.mem_append, List.mem_singleton, not_or]
    exact ⟨⟨fun hm => h.nul_free (List.mem_of_mem_take hm), hc.symm⟩, fun hm => h.nul_free (List.mem_of_mem_drop hm)⟩
  · rw [TextEdit.length_insert h.valid, h.len, List.length_singleton]

theorem LineBuf.Shows.erase (h : b.Shows size e) (hnone : e.anchor = none) (hi : i < e.text.length) :
    ∃ line, Buffer.move b.line i (i + 1) (b.len - i) = some line ∧
      LineBuf.Shows size ⟨line, b.len - 1, min b.cursor i, b.selActive, b.selAnchor⟩ (e.erase i) := by
  obtain ⟨rest, hmove, hsize⟩ := h.close_gap (Nat.le_succ i) hi
  have hcount : b.len - (i + 1) + 1 = b.len - i := by
    rw [h.len]
    omega
  rw [hcount, Nat.succ_eq_add_one, ← List.eraseIdx_eq_take_drop_succ] at hmove
  rw [Nat.succ_eq_add_one, ← List.eraseIdx_eq_take_drop_succ] at hsize
  refine ⟨_, hmove, hsize, ⟨rest, rfl⟩, fun hm => h.nul_free (List.mem_of_mem_eraseIdx hm),
    TextEdit.valid_erase hnone hi, ?_, ?_, h.anchor⟩
  · rw [h.len]
    exact (List.length_eraseIdx_of_lt hi).symm
  · rw [h.cursor]
    rfl

/-- **The letter in front of the cursor is taken out.** -/
theorem eraseLeft_spec (h : b.Shows size e) (hnone : e.anchor = none) (h0 : e.cursor ≠ 0) :
    ∃ b', eraseLeft b = some b' ∧ b'.Shows size (e.erase (e.cursor - 1)) := by
  have hcursor := h.valid.cursor_le
  obtain ⟨line, hmove, hshows⟩ := h.erase hnone (show e.cursor - 1 < e.text.length by omega)
  have hcount : b.len - (e.cursor - 1) = b.len - e.cursor + 1 := by
    rw [h.len]
    omega
  rw [Nat.sub_add_cancel (Nat.pos_of_ne_zero h0), hcount] at hmove
  rw [h.cursor, min_eq_right (Nat.sub_le _ _)] at hshows
  rw [eraseLeft, h.cursor, hmove, Option.bind_eq_bind, Option.bind_some]
  exact ⟨_, rfl, hshows⟩

/-- **The letter at the cursor is taken out.** -/
theorem eraseRight_spec (h : b.Shows size e) (hnone : e.anchor = none) (hlt : e.cursor < e.text.length) :
    ∃ b', eraseRight b = some b' ∧ b'.Shows size (e.erase e.cursor) := by
  obtain ⟨line, hmove, hshows⟩ := h.erase hnone hlt
  rw [h.cursor, min_self, ← h.cursor] at hshows
  rw [← h.cursor] at hmove
  rw [eraseRight, hmove, Option.bind_eq_bind, Option.bind_some, ← h.cursor]
  exact ⟨_, rfl, hshows⟩

/-- **Another text comes in**, cut to the buffer. -/
theorem replaceLine_spec (h : b.Shows size e) (ht : 0 ∉ t) :
    ∃ b', replaceLine size b t = some b' ∧
      LineBuf.Shows size { b' with selActive := false } (.load (t.take (size - 1))) := by
  have hpos := h.lt
  have hfill : (t.take (size - 1) ++ List.replicate (size - 1 - t.length) (0 : Byte)).length = size - 1 := by
    rw [List.length_append, List.length_take, List.length_replicate]
    omega
  have hlast : (b.line.drop (size - 1)).length = 1 := by
    rw [List.length_drop, h.size_eq]
    omega
  obtain ⟨x, hx⟩ := List.length_eq_one_iff.mp hlast
  have hfront : (b.line.take (size - 1)).length =
      (t.take (size - 1) ++ List.replicate (size - 1 - t.length) (0 : Byte)).length := by
    rw [hfill, List.length_take, h.size_eq]
    omega
  have hcopy := Buffer.copy_append [] (b.line.drop (size - 1)) _ hfront
  rw [List.take_append_drop, List.nil_append, List.nil_append, List.length_nil, hx] at hcopy
  have hput := Buffer.put_append (t.take (size - 1) ++ List.replicate (size - 1 - t.length) (0 : Byte)) [] 0 x
  rw [hfill] at hput
  have hrest : t.take (size - 1) ++ List.replicate (size - 1 - t.length) (0 : Byte) ++ [0] =
      t.take (size - 1) ++ 0 :: List.replicate (size - 1 - t.length) 0 := by
    rw [List.append_assoc, ← List.replicate_succ', List.replicate_succ]
  have hfree : (0 : Byte) ∉ t.take (size - 1) := fun hm => ht (List.mem_of_mem_take hm)
  have hcstr : cstr (t.take (size - 1) ++ 0 :: List.replicate (size - 1 - t.length) 0) = t.take (size - 1) :=
    cstr_append_zero hfree _
  rw [replaceLine, hcopy, Option.bind_eq_bind, Option.bind_some, hput, Option.bind_some, hrest, hcstr]
  refine ⟨_, rfl, ⟨?_, ⟨_, rfl⟩, hfree, TextEdit.valid_load _, rfl, rfl, rfl⟩⟩
  rw [← hrest, List.length_append, hfill, List.length_singleton]
  omega

/-! ### Completion -/

theorem commonFront_subset (l l' : List Byte) : commonFront l l' ⊆ l := by
  induction l generalizing l' with
  | nil => exact fun _ hm => hm
  | cons a as ih =>
    cases l' with
    | nil => exact List.nil_subset _
    | cons b bs =>
      rw [commonFront]
      by_cases hab : a = b
      · rw [if_pos hab]
        exact List.cons_subset_cons a (ih bs)
      · rw [if_neg hab]
        exact List.nil_subset _

theorem completion_nul_free (word : List Byte) (names : List (CharBuf (vfsPathMax - 1))) {ctx : Completion}
    (h : 0 ∉ ctx.common) : 0 ∉ (names.foldl (completionConsider word) ctx).common := by
  induction names generalizing ctx with
  | nil => exact h
  | cons name names ih =>
    refine ih ?_
    rw [completionConsider]
    by_cases hword : ¬ word <+: name.chars
    · rwa [if_pos hword]
    · rw [if_neg hword]
      by_cases hcount : ctx.count = 0
      · simp only [if_pos hcount]
        exact name.nul_free
      · simp only [if_neg hcount]
        exact fun hm => h (commonFront_subset _ _ hm)

theorem completionOf_nul_free (env : LineEnv) (before : List Byte) : 0 ∉ completionOf env before := by
  rw [completionOf]
  by_cases hlong : vfsPathMax ≤ (wordBefore before).length
  · rw [if_pos hlong]
    exact List.not_mem_nil
  · rw [if_neg hlong]
    have hfree : ∀ names : List (CharBuf (vfsPathMax - 1)), 0 ∉
        (let ctx := names.foldl (completionConsider (wordBefore before)) ⟨[], 0⟩
         if ctx.count ≠ 0 ∧ (wordBefore before).length < ctx.common.length then
          ctx.common.drop (wordBefore before).length else []) := by
      intro names
      dsimp only
      split
      · exact fun hm => completion_nul_free _ _ List.not_mem_nil (List.mem_of_mem_drop hm)
      · exact List.not_mem_nil
    exact hfree _

/-! ### Keys -/

/-- **The editor shows a text that is edited.** -/
structure Editor.Shows (env : LineEnv) (s : Editor) (p : PlainLine) : Prop where
  buf : s.buf.Shows env.size p.edit
  history_eq : s.historyIndex = p.historyIndex
  history_lt : ∀ i ∈ p.historyIndex, i < env.history.length
  saved_eq : s.saved = p.saved
  saved_free : 0 ∉ p.saved
  saved_lt : p.saved.length < env.size
  clipboard_eq : s.clipboard = p.clipboard
  clipboard_free : 0 ∉ p.clipboard

def Outcome.Shows (env : LineEnv) : Outcome Editor → Outcome PlainLine → Prop
  | .editing s, .editing p => s.Shows env p
  | .entered line history, .entered text history' =>
    line = text ∧ history = history' ∧ 0 ∉ text ∧ text.length < env.size
  | .interrupted, .interrupted => True
  | _, _ => False

theorem Editor.Shows.withBuf (h : s.Shows env p) (hb : b.Shows env.size e) :
    Editor.Shows env { s with buf := b } { p with edit := e } :=
  ⟨hb, h.history_eq, h.history_lt, h.saved_eq, h.saved_free, h.saved_lt, h.clipboard_eq, h.clipboard_free⟩

theorem LineBuf.Shows.moveTo (h : b.Shows size e) (hi : i ≤ e.text.length) :
    LineBuf.Shows size { b with selActive := false, cursor := i } (e.moveTo i) :=
  ⟨h.size_eq, h.line, h.nul_free, .moveTo hi, h.len, rfl, rfl⟩

theorem LineBuf.Shows.extendTo (h : b.Shows size e) (hi : i ≤ e.text.length) :
    LineBuf.Shows size { b.select with cursor := i } (e.extendTo i) := by
  have hanchor := h.anchor
  rw [LineBuf.select]
  cases hsel : b.selActive with
  | true =>
    rw [hsel, if_pos rfl] at hanchor
    refine ⟨h.size_eq, h.line, h.nul_free, h.valid.extendTo hi, h.len, rfl, ?_⟩
    simp only [TextEdit.extendTo, hanchor, Option.getD_some, hsel, if_true]
  | false =>
    rw [hsel, if_neg Bool.false_ne_true] at hanchor
    refine ⟨h.size_eq, h.line, h.nul_free, h.valid.extendTo hi, h.len, rfl, ?_⟩
    simp only [TextEdit.extendTo, hanchor, Option.getD_none, Bool.false_eq_true, if_false, if_true, h.cursor]

theorem LineBuf.Shows.right_eq (h : b.Shows size e) :
    (if b.cursor < b.len then b.cursor + 1 else b.cursor) = min (e.cursor + 1) e.text.length := by
  have hcursor := h.valid.cursor_le
  rw [h.cursor, h.len]
  by_cases hlt : e.cursor < e.text.length
  · rw [if_pos hlt, min_eq_left hlt]
  · rw [if_neg hlt, min_eq_right (by omega)]
    omega

theorem LineBuf.Shows.deleteIfActive (h : b.Shows size e) :
    ∃ b', b'.Shows size e.cut ∧ ∀ {α : Type} (f : LineBuf → Option α),
      (if b.selActive then deleteSelection b >>= f else some b >>= f) = f b' := by
  have hanchor := h.anchor
  cases hsel : b.selActive with
  | true =>
    obtain ⟨b', hdelete, hb'⟩ := deleteSelection_spec h
    refine ⟨b', hb', fun f => ?_⟩
    rw [if_pos rfl, hdelete, Option.bind_eq_bind, Option.bind_some]
  | false =>
    rw [hsel, if_neg Bool.false_ne_true] at hanchor
    rw [TextEdit.cut_of_anchor_none hanchor]
    refine ⟨b, h, fun f => ?_⟩
    rw [if_neg Bool.false_ne_true, Option.bind_eq_bind, Option.bind_some]

theorem Key.ite_ne {P : Prop} [Decidable P] {k l m : Key} (hk : k ≠ m) (hl : l ≠ m) : (if P then k else l) ≠ m := by
  split
  · exact hk
  · exact hl

theorem Key.ofCode_ne_zero (ch : ℤ) : Key.ofCode ch ≠ .char 0 := by
  rw [Key.ofCode]
  repeat refine Key.ite_ne (by decide) ?_
  by_cases hch : 32 ≤ ch ∧ ch ≤ 255
  · rw [if_pos hch]
    intro hzero
    have hnat := congrArg UInt8.toNat (Key.char.inj hzero)
    rw [UInt8.toNat_ofNat', UInt8.toNat_zero] at hnat
    omega
  · rw [if_neg hch]
    decide

theorem Editor.Shows.recall (h : s.Shows env p) {entry : CharBuf (lineMax - 1)} (hentry : env.history[i]? = some entry)
    (hsaved : 0 ∉ t) (hlen : t.length < env.size) :
    ∃ b, replaceLine env.size s.buf entry.chars = some b ∧
      Editor.Shows env { s with buf := { b with selActive := false }, historyIndex := some i, saved := t }
        { p with edit := .load (entry.chars.take (env.size - 1)), historyIndex := some i, saved := t } := by
  obtain ⟨hi, -⟩ := List.getElem?_eq_some_iff.mp hentry
  obtain ⟨b, hreplace, hb⟩ := replaceLine_spec h.buf entry.nul_free
  refine ⟨b, hreplace, hb, rfl, fun j hj => ?_, rfl, hsaved, hlen, h.clipboard_eq, h.clipboard_free⟩
  obtain rfl := Option.some.inj hj
  exact hi

theorem readKey_up (h : s.Shows env p) :
    ∃ o, readKey env s .up = some o ∧ o.Shows env (plainKey env p .up) := by
  simp only [readKey, plainKey]
  by_cases hempty : env.history.length = 0
  · rw [if_pos hempty, List.getLast?_eq_none_iff.mpr (List.length_eq_zero_iff.mp hempty)]
    exact ⟨_, rfl, h⟩
  · have hlt := h.buf.lt
    have hlast : ∃ last, env.history.getLast? = some last := Option.ne_none_iff_exists'.mp fun hnone =>
      hempty (List.length_eq_zero_iff.mpr (List.getLast?_eq_none_iff.mp hnone))
    obtain ⟨last, hlast⟩ := hlast
    rw [if_neg hempty, hlast, h.history_eq]
    cases hindex : p.historyIndex with
    | none =>
      rw [List.getLast?_eq_getElem?] at hlast
      obtain ⟨b, hreplace, hb⟩ := h.recall hlast h.buf.nul_free hlt
      have hfit : p.edit.text.length < lineMax := hlt.trans_le env.size_le
      simp only [h.buf.cstr_eq, if_pos hfit, hlast, Option.bind_eq_bind, Option.bind_some, hreplace]
      exact ⟨_, rfl, hb⟩
    | some i =>
      have hi : i - 1 < env.history.length := (Nat.sub_le i 1).trans_lt (h.history_lt i hindex)
      have hentry : env.history[i - 1]? = some env.history[i - 1] := List.getElem?_eq_getElem hi
      obtain ⟨b, hreplace, hb⟩ := h.recall hentry h.saved_free h.saved_lt
      have hgetD : env.history.getD (i - 1) last = env.history[i - 1] := by
        rw [List.getD_eq_getElem?_getD, hentry, Option.getD_some]
      simp only [hentry, Option.bind_eq_bind, Option.bind_some, hreplace, hgetD, h.saved_eq]
      exact ⟨_, rfl, hb⟩

theorem readKey_down (h : s.Shows env p) :
    ∃ o, readKey env s .down = some o ∧ o.Shows env (plainKey env p .down) := by
  simp only [readKey, plainKey, h.history_eq]
  cases hindex : p.historyIndex with
  | none => exact ⟨_, rfl, h⟩
  | some i =>
    by_cases hnext : i + 1 < env.history.length
    · have hentry : env.history[i + 1]? = some env.history[i + 1] := List.getElem?_eq_getElem hnext
      obtain ⟨b, hreplace, hb⟩ := h.recall hentry h.saved_free h.saved_lt
      simp only [if_pos hnext, hentry, Option.bind_eq_bind, Option.bind_some, hreplace, h.saved_eq]
      exact ⟨_, rfl, hb⟩
    · -- the text that was left for the history comes back
      have hnone : env.history[i + 1]? = none := List.getElem?_eq_none (Nat.not_lt.mp hnext)
      obtain ⟨b, hreplace, hb⟩ := replaceLine_spec h.buf h.saved_free
      have hlt := h.saved_lt
      rw [List.take_of_length_le (by omega)] at hb
      simp only [if_neg hnext, hnone, h.saved_eq, hreplace, Option.bind_eq_bind, Option.bind_some]
      exact ⟨_, rfl, hb, rfl, fun j hj => (by cases hj), rfl, h.saved_free, h.saved_lt, h.clipboard_eq, h.clipboard_free⟩

theorem readKey_backspace (h : s.Shows env p) :
    ∃ o, readKey env s .backspace = some o ∧ o.Shows env (plainKey env p .backspace) := by
  have hanchor := h.buf.anchor
  simp only [readKey, plainKey]
  cases hsel : s.buf.selActive with
  | true =>
    rw [hsel, if_pos rfl] at hanchor
    obtain ⟨b, hdelete, hb⟩ := deleteSelection_spec h.buf
    rw [if_pos rfl, hdelete, hanchor, Option.isSome_some, if_pos rfl]
    exact ⟨_, rfl, h.withBuf hb⟩
  | false =>
    rw [hsel, if_neg Bool.false_ne_true] at hanchor
    rw [if_neg Bool.false_ne_true, hanchor, Option.isSome_none, if_neg Bool.false_ne_true, h.buf.cursor]
    by_cases h0 : p.edit.cursor = 0
    · rw [if_neg (not_not.mpr h0), if_pos h0]
      exact ⟨_, rfl, h⟩
    · obtain ⟨b, herase, hb⟩ := eraseLeft_spec h.buf hanchor h0
      rw [if_pos h0, if_neg h0, herase]
      exact ⟨_, rfl, h.withBuf hb⟩

theorem readKey_delete (h : s.Shows env p) :
    ∃ o, readKey env s .delete = some o ∧ o.Shows env (plainKey env p .delete) := by
  have hanchor := h.buf.anchor
  have hcursor := h.buf.valid.cursor_le
  simp only [readKey, plainKey]
  cases hsel : s.buf.selActive with
  | true =>
    rw [hsel, if_pos rfl] at hanchor
    obtain ⟨b, hdelete, hb⟩ := deleteSelection_spec h.buf
    rw [if_pos rfl, hdelete, hanchor, Option.isSome_some, if_pos rfl]
    exact ⟨_, rfl, h.withBuf hb⟩
  | false =>
    rw [hsel, if_neg Bool.false_ne_true] at hanchor
    rw [if_neg Bool.false_ne_true, hanchor, Option.isSome_none, if_neg Bool.false_ne_true, h.buf.cursor, h.buf.len]
    by_cases hend : p.edit.cursor = p.edit.text.length
    · rw [if_neg (by omega), if_pos hend]
      exact ⟨_, rfl, h⟩
    · have hlt : p.edit.cursor < p.edit.text.length := lt_of_le_of_ne hcursor hend
      obtain ⟨b, herase, hb⟩ := eraseRight_spec h.buf hanchor hlt
      rw [if_pos hlt, if_neg hend, herase]
      exact ⟨_, rfl, h.withBuf hb⟩

theorem readKey_copy (h : s.Shows env p) :
    ∃ o, readKey env s .copy = some o ∧ o.Shows env (plainKey env p .copy) := by
  have hbounds := h.buf.bounds_eq
  obtain ⟨hle, hend⟩ := h.buf.valid.bounds_le
  have hlt := h.buf.lt
  have hsize := env.size_le
  have hselected : p.edit.bounds.1 < p.edit.bounds.2 ∧ p.edit.bounds.2 - p.edit.bounds.1 < lineMax ↔ p.edit.Selected := by
    rw [TextEdit.Selected]
    omega
  simp only [readKey, plainKey, hbounds, hselected]
  by_cases hsel : p.edit.Selected
  · have hfit : p.edit.bounds.2 ≤ s.buf.line.length := by
      rw [h.buf.size_eq]
      omega
    have hcopy : (s.buf.line.drop p.edit.bounds.1).take (p.edit.bounds.2 - p.edit.bounds.1) = p.edit.selection := by
      rw [TextEdit.selection, ← List.drop_take, ← List.drop_take, h.buf.take_eq hend]
    rw [if_pos hsel, if_pos hsel, if_pos hfit, hcopy]
    refine ⟨_, rfl, h.buf, h.history_eq, h.history_lt, h.saved_eq, h.saved_free, h.saved_lt, rfl, fun hm => ?_⟩
    exact h.buf.nul_free (List.mem_of_mem_drop (List.mem_of_mem_take hm))
  · rw [if_neg hsel, if_neg hsel]
    exact ⟨_, rfl, h⟩

theorem readKey_char (h : s.Shows env p) {c : Byte} (hc : c ≠ 0) (hfit : FitKey env p (.char c)) :
    ∃ o, readKey env s (.char c) = some o ∧ o.Shows env (plainKey env p (.char c)) := by
  have hshort : p.edit.Selected ∨ p.edit.text.length + 1 < env.size ↔ s.buf.len + 1 < env.size := by
    rw [h.buf.len]
    exact ⟨fun hor => hor.elim hfit id, .inr⟩
  simp only [readKey, plainKey, hshort]
  by_cases hroom : s.buf.len + 1 < env.size
  · rw [if_pos hroom, if_pos hroom]
    obtain ⟨b, hb, hdelete⟩ := h.buf.deleteIfActive
    have hcut : p.edit.cut.text.length + 1 < env.size := by
      rw [TextEdit.length_cut h.buf.valid, ← h.buf.len]
      omega
    obtain ⟨b', htype, hb'⟩ := typeChar_spec hb hc hcut
    rw [hdelete, htype, Option.bind_eq_bind, Option.bind_some]
    exact ⟨_, rfl, hb', rfl, fun i hi => (by cases hi), h.saved_eq, h.saved_free, h.saved_lt, h.clipboard_eq,
      h.clipboard_free⟩
  · rw [if_neg hroom, if_neg hroom]
    exact ⟨_, rfl, h⟩

/-- **A key does to the line what it does to the text.** -/
theorem readKey_spec (h : s.Shows env p) {k : Key} (hk : k ≠ .char 0) (hfit : FitKey env p k) :
    ∃ o, readKey env s k = some o ∧ o.Shows env (plainKey env p k) := by
  have hcursor := h.buf.valid.cursor_le
  cases k with
  | enter =>
    obtain ⟨rest, hline⟩ := h.buf.line
    have hput : Buffer.put s.buf.line s.buf.len 0 = some s.buf.line := by
      rw [h.buf.len, hline]
      exact Buffer.put_append _ _ _ _
    rw [readKey, hput, Option.bind_eq_bind, Option.bind_some, h.buf.cstr_eq]
    exact ⟨_, rfl, rfl, rfl, h.buf.nul_free, h.buf.lt⟩
  | interrupt =>
    have hpos : 0 < s.buf.line.length := by
      rw [h.buf.size_eq]
      exact env.size_pos
    rw [readKey, Buffer.put, if_pos hpos]
    exact ⟨_, rfl, trivial⟩
  | copy => exact readKey_copy h
  | paste =>
    obtain ⟨b, hb, hdelete⟩ := h.buf.deleteIfActive
    have hfree : 0 ∉ s.clipboard := by
      rw [h.clipboard_eq]
      exact h.clipboard_free
    obtain ⟨b', hinsert, hb'⟩ := insertText_spec hb hfree
    simp only [readKey]
    rw [hdelete, hinsert, Option.bind_eq_bind, Option.bind_some]
    rw [h.clipboard_eq] at hb'
    exact ⟨_, rfl, h.withBuf hb'⟩
  | tab =>
    have hb : LineBuf.Shows env.size { s.buf with selActive := false } (p.edit.moveTo p.edit.cursor) := by
      have hmove := h.buf.moveTo hcursor
      rwa [← h.buf.cursor] at hmove ⊢
    obtain ⟨b', hinsert, hb'⟩ := insertText_spec hb (completionOf_nul_free env (p.edit.text.take p.edit.cursor))
    have hbefore : s.buf.line.take s.buf.cursor = p.edit.text.take p.edit.cursor := by
      rw [h.buf.cursor, h.buf.take_eq hcursor]
    rw [readKey, handleTab, hbefore, hinsert]
    exact ⟨_, rfl, h.withBuf hb'⟩
  | left =>
    rw [readKey, h.buf.cursor]
    exact ⟨_, rfl, h.withBuf (h.buf.moveTo ((Nat.sub_le _ _).trans hcursor))⟩
  | right =>
    rw [readKey, h.buf.right_eq]
    exact ⟨_, rfl, h.withBuf (h.buf.moveTo (min_le_right _ _))⟩
  | shiftLeft =>
    rw [readKey, h.buf.cursor]
    exact ⟨_, rfl, h.withBuf (h.buf.extendTo ((Nat.sub_le _ _).trans hcursor))⟩
  | shiftRight =>
    rw [readKey, h.buf.right_eq]
    exact ⟨_, rfl, h.withBuf (h.buf.extendTo (min_le_right _ _))⟩
  | home => exact ⟨_, rfl, h.withBuf (h.buf.moveTo (Nat.zero_le _))⟩
  | stop =>
    have hmax : max s.buf.cursor s.buf.len = p.edit.text.length := by
      rw [h.buf.cursor, h.buf.len, max_eq_right hcursor]
    rw [readKey, hmax]
    exact ⟨_, rfl, h.withBuf (h.buf.moveTo le_rfl)⟩
  | up => exact readKey_up h
  | down => exact readKey_down h
  | backspace => exact readKey_backspace h
  | delete => exact readKey_delete h
  | char c => exact readKey_char h (fun hc => hk (hc ▸ rfl)) hfit
  | other => exact ⟨_, rfl, h⟩

theorem readKey_of_not_fitKey (h : s.Shows env p) {k : Key} (hk : ¬ FitKey env p k) :
    readKey env s k = some (.editing s) := by
  cases k with
  | char c =>
    have hfull : ¬ s.buf.len + 1 < env.size := by
      rw [h.buf.len]
      exact fun hroom => hk fun _ => hroom
    rw [readKey, if_neg hfull]
  | _ => exact absurd trivial hk

/-! ### A line -/

/-- The cursor is in the line, the line is terminated inside of the buffer, and the selection is in the line. -/
structure LineBuf.WellFormed (size : ℕ) (b : LineBuf) : Prop where
  size_eq : b.line.length = size
  cursor_le : b.cursor ≤ b.len
  len_lt : b.len < size
  terminated : b.line[b.len]? = some 0
  anchor_le : b.selActive = true → b.selAnchor ≤ b.len

theorem LineBuf.Shows.wellFormed (h : b.Shows size e) : b.WellFormed size := by
  obtain ⟨rest, hline⟩ := h.line
  have hanchor := h.anchor
  refine ⟨h.size_eq, ?_, ?_, ?_, fun hsel => ?_⟩
  · rw [h.cursor, h.len]
    exact h.valid.cursor_le
  · rw [h.len]
    exact h.lt
  · rw [h.len, hline, List.getElem?_append_right le_rfl, Nat.sub_self, List.getElem?_cons_zero]
  · rw [hsel, if_pos rfl] at hanchor
    rw [h.len]
    exact h.valid.anchor_le _ hanchor

def Outcome.WellFormed (env : LineEnv) : Outcome Editor → Prop
  | .editing s => s.buf.WellFormed env.size
  | .entered line _ => 0 ∉ line ∧ line.length < env.size
  | .interrupted => True

/-- **The keys of a line.** -/
theorem Editor.Shows.readLine (codes : List ℤ) (h : s.Shows env p) :
    ∃ o, Shell.readLine env codes s = some o ∧ o.WellFormed env ∧ (FitKeys env codes p → o.Shows env (plainLine env codes p)) := by
  induction codes generalizing s p with
  | nil => exact ⟨_, rfl, h.buf.wellFormed, fun _ => h⟩
  | cons ch codes ih =>
    by_cases hfit : FitKey env p (.ofCode ch)
    · obtain ⟨o, hkey, ho⟩ := readKey_spec h (Key.ofCode_ne_zero ch) hfit
      simp only [Shell.readLine, plainLine, FitKeys, hkey, Option.bind_some]
      revert ho
      generalize plainKey env p (.ofCode ch) = q
      intro ho
      match o, q, ho with
      | .editing s', .editing p', ho =>
        obtain ⟨o', hrun, hwell, hshows⟩ := ih ho
        exact ⟨o', hrun, hwell, fun hkeys => hshows hkeys.2⟩
      | .entered line history, .entered text history', ho =>
        obtain ⟨rfl, rfl, hfree, hlt⟩ := ho
        exact ⟨_, rfl, ⟨hfree, hlt⟩, fun _ => ⟨rfl, rfl, hfree, hlt⟩⟩
      | .interrupted, .interrupted, _ => exact ⟨_, rfl, trivial, fun _ => trivial⟩
    · rw [Shell.readLine, readKey_of_not_fitKey h hfit, Option.bind_some]
      obtain ⟨o', hrun, hwell, -⟩ := ih h
      exact ⟨o', hrun, hwell, fun hkeys => absurd hkeys.1 hfit⟩

def plainStart (clipboard : List Byte) : PlainLine := ⟨⟨[], 0, none⟩, none, [], clipboard⟩

theorem shows_startEditor (env : LineEnv) (line : Vector Byte env.size) (clipboard : CharBuf (lineMax - 1)) :
    (startEditor line.toList clipboard.chars).Shows env (plainStart clipboard.chars) := by
  have hlen : line.toList.length = env.size := line.length_toList
  have hpos := env.size_pos
  obtain ⟨x, rest, hline⟩ := List.exists_cons_of_length_pos (l := line.toList) (by omega)
  rw [startEditor, hline, List.set_cons_zero]
  rw [hline] at hlen
  exact ⟨⟨hlen, ⟨rest, rfl⟩, List.not_mem_nil, TextEdit.valid_load [], rfl, rfl, rfl⟩, rfl, fun i hi => (by cases hi), rfl,
    List.not_mem_nil, hpos, rfl, clipboard.nul_free⟩

/-- **The line editor**: under all keys every write stays inside of the buffer and the line well formed, and as long as no
letter is typed over a selection of a full line, the keys do to the line what they do to the text. -/
theorem readLine_spec (env : LineEnv) (line : Vector Byte env.size) (clipboard : CharBuf (lineMax - 1)) (codes : List ℤ) :
    ∃ o, readLine env codes (startEditor line.toList clipboard.chars) = some o ∧ o.WellFormed env ∧
      (FitKeys env codes (plainStart clipboard.chars) →
        o.Shows env (plainLine env codes (plainStart clipboard.chars))) :=
  (shows_startEditor env line clipboard).readLine codes

def fullLineEnv : LineEnv where
  size := lineMax
  size_pos := by decide
  size_le := le_rfl
  history := []
  history_le := by decide
  commands := fun _ => []
  paths := fun _ => []

/-- What `read_line` has in the line, and what it should have. -/
def sameLine : Option (Outcome Editor) → Outcome PlainLine → Bool
  | some (.editing s), .editing p => cstr s.buf.line = p.edit.text
  | some (.entered line _), .entered text _ => line = text
  | some .interrupted, .interrupted => true
  | _, _ => false

/-- A line is filled, its last letter is selected, and another one is typed: the line stays as it is. -/
theorem not_sameLine :
    ¬ ∀ (env : LineEnv) (line : Vector Byte env.size) (clipboard : CharBuf (lineMax - 1)) (codes : List ℤ),
      sameLine (readLine env codes (startEditor line.toList clipboard.chars))
        (plainLine env codes (plainStart clipboard.chars)) := by
  intro h
  have hline := h fullLineEnv (Vector.replicate 256 0) (.strncpy _ (List.replicate 255 97)) [0x10a, 0x10b, 98]
  revert hline
  decide +kernel

end Tnu.Shell
