/-
**The text console.**

`kernel/drivers/console/vga.c` keeps a grid of cells and a cursor, draws them into the text memory of
the VGA or into the framebuffer, follows the escape sequences of a terminal and keeps six workspaces.
The pixels of a glyph, the cursor register of the VGA and the bytes for the serial line are left out;
every cell that is written is recorded.

Main definitions:

* `ansiExecute`, `consolePutc` — an escape sequence and a byte;
* `consoleSwitchTty` — another workspace.

Main results:

* `Screen.Inside.fbScroll`, `Screen.Inside.putCellAt` and their like — drawing
  stays inside the buffers.
-/

import Tnu.Printf

set_option autoImplicit false

namespace Tnu.Console

/-! ### The screen -/

abbrev vgaWidth : ℕ := 80

abbrev vgaHeight : ℕ := 25

abbrev fbCellW : ℕ := 12

abbrev fbCellH : ℕ := 18

abbrev fbMaxCols : ℕ := 160

abbrev fbMaxRows : ℕ := 64

abbrev consoleTtyCount : ℕ := 6

/-- `backend`, `cols` and `rows`. -/
structure Geometry where
  fb : Bool
  cols : ℕ
  rows : ℕ
  cols_pos : 0 < cols
  cols_le : cols ≤ fbMaxCols
  rows_pos : 0 < rows
  rows_le : rows ≤ fbMaxRows
  /-- The text mode has one size. -/
  text : fb = false → cols = vgaWidth ∧ rows = vgaHeight

/-- The size `console_init` takes from the framebuffer, when there is one. -/
def Geometry.ofFramebuffer : Option (ℕ × ℕ) → Geometry
  | some (width, height) =>
    { fb := true
      cols := min (max (width / fbCellW) 20) fbMaxCols
      rows := min (max (height / fbCellH) 8) fbMaxRows
      cols_pos := by simp
      cols_le := by simp
      rows_pos := by simp
      rows_le := by simp
      text := by simp }
  | none =>
    { fb := false
      cols := vgaWidth
      rows := vgaHeight
      cols_pos := by simp
      cols_le := by norm_num [vgaWidth]
      rows_pos := by simp
      rows_le := by norm_num [vgaHeight]
      text := by simp }

/-- A cell that is written: in `fb_cells` and `fb_attrs`, in the text memory, or drawn in the
framebuffer. -/
inductive Place
  | cell (y x : ℕ)
  | vga (i : ℕ)
  | draw (y x : ℕ)
  deriving DecidableEq

/-- The place is in its buffer; a cell is drawn in the text area. -/
def Place.Inside (geo : Geometry) : Place → Prop
  | .cell y x => y < fbMaxRows ∧ x < fbMaxCols
  | .vga i => i < vgaWidth * vgaHeight
  | .draw y x => y < geo.rows ∧ x < geo.cols

instance (geo : Geometry) (p : Place) : Decidable (p.Inside geo) := by
  cases p <;> unfold Place.Inside <;> infer_instance

/-- `fb_cells`, `fb_attrs`, the text memory, the color and the drawn cursor, with the record of what
was written. -/
structure Screen where
  chars : ℕ → ℕ → Byte
  attrs : ℕ → ℕ → Byte
  vga : ℕ → UInt16
  color : Byte
  cursorDrawn : Bool
  cursorVisible : Bool
  cursorRow : ℕ
  cursorCol : ℕ
  cursorLastTick : UInt64
  writes : List Place

def Screen.Inside (geo : Geometry) (scr : Screen) : Prop := ∀ p ∈ scr.writes, p.Inside geo

/-- `entry`: the character is signed, so that one above `0x7f` covers the color. -/
def entry (color c : Byte) : UInt16 := c.toInt8.toInt16.toUInt16 ||| (color.toUInt16 <<< 8)

def cellEntry (c attr : Byte) : UInt16 := c.toUInt16 ||| (attr.toUInt16 <<< 8)

def setCell (y x : ℕ) (c attr : Byte) (scr : Screen) : Screen :=
  { scr with
    chars := Function.update scr.chars y (Function.update (scr.chars y) x c)
    attrs := Function.update scr.attrs y (Function.update (scr.attrs y) x attr)
    writes := scr.writes ++ [.cell y x] }

def setVga (i : ℕ) (v : UInt16) (scr : Screen) : Screen :=
  { scr with
    vga := Function.update scr.vga i v
    writes := scr.writes ++ [.vga i] }

/-- A cell is drawn by `fb_draw_char`. -/
def fbDrawChar (cx cy : ℕ) (scr : Screen) : Screen :=
  { scr with writes := scr.writes ++ [.draw cy cx] }

def fbRedrawCell (geo : Geometry) (cx cy : ℕ) (scr : Screen) : Screen :=
  if geo.cols ≤ cx ∨ geo.rows ≤ cy ∨ fbMaxCols ≤ cx ∨ fbMaxRows ≤ cy then scr
  else if geo.fb then fbDrawChar cx cy scr
  else setVga (cy * vgaWidth + cx) (cellEntry (scr.chars cy cx) (scr.attrs cy cx)) scr

def putCellAt (geo : Geometry) (x y : ℕ) (c : Byte) (scr : Screen) : Screen :=
  if geo.cols ≤ x ∨ geo.rows ≤ y then scr
  else
    let scr := if x < fbMaxCols ∧ y < fbMaxRows then setCell y x c scr.color scr else scr
    if geo.fb then fbRedrawCell geo x y scr
    else setVga (y * vgaWidth + x) (entry scr.color c) scr

def fbPutCell (geo : Geometry) (cx cy : ℕ) (c : Byte) (scr : Screen) : Screen :=
  if geo.fb = false ∨ geo.cols ≤ cx ∨ geo.rows ≤ cy ∨ fbMaxCols ≤ cx ∨ fbMaxRows ≤ cy then scr
  else fbRedrawCell geo cx cy (setCell cy cx c scr.color scr)

def area (height width : ℕ) : List (ℕ × ℕ) :=
  (List.range height).flatMap fun y => (List.range width).map fun x => (y, x)

def fbRedrawTextArea (geo : Geometry) (scr : Screen) : Screen :=
  (area (min geo.rows fbMaxRows) (min geo.cols fbMaxCols)).foldl
    (fun scr p => fbRedrawCell geo p.2 p.1 scr) scr

/-- `fb_hide_cursor`. -/
def hideCursor (geo : Geometry) (scr : Screen) : Screen :=
  if scr.cursorDrawn then
    fbRedrawCell geo scr.cursorCol scr.cursorRow { scr with cursorDrawn := false }
  else scr

def fbResetCells (scr : Screen) : Screen :=
  { scr with
    chars := fun _ _ => 0x20
    attrs := fun _ _ => scr.color
    writes := scr.writes ++ (area fbMaxRows fbMaxCols).map fun p => .cell p.1 p.2 }

/-- The rows that `memmove` shifts up in `fb_scroll`. -/
def shiftRows (geo : Geometry) (scr : Screen) : Screen :=
  { scr with
    chars := fun y => if y < geo.rows - 1 then scr.chars (y + 1) else scr.chars y
    attrs := fun y => if y < geo.rows - 1 then scr.attrs (y + 1) else scr.attrs y
    writes := scr.writes ++ (area (geo.rows - 1) fbMaxCols).map fun p => .cell p.1 p.2 }

/-- `fb_scroll`; `framebuffer_scroll_up` moves the pixels of the framebuffer. -/
def fbScroll (geo : Geometry) (scr : Screen) : Screen :=
  let scr := if 1 < geo.rows then shiftRows geo scr else scr
  let scr := (List.range (min geo.cols fbMaxCols)).foldl
    (fun scr x => setCell (geo.rows - 1) x 0x20 scr.color scr) scr
  if geo.fb then scr
  else (area (min geo.rows fbMaxRows) (min geo.cols fbMaxCols)).foldl
    (fun scr p => setVga (p.1 * vgaWidth + p.2) (cellEntry (scr.chars p.1 p.2) (scr.attrs p.1 p.2)) scr)
    scr

/-! ### The state -/

/-- `struct console_tty_state` of a workspace that was used. -/
structure TtyState where
  row : ℕ
  col : ℕ
  color : Byte
  chars : ℕ → ℕ → Byte
  attrs : ℕ → ℕ → Byte
  cursorVisible : Bool
  cursorLastTick : UInt64
  ansiState : ℕ
  ansiBuf : List Byte

/-- The static state of `vga.c`.  A workspace that is not `initialized` is absent; `captureSize` is
`none` for a null buffer, and `captured` is what the buffer holds; `ticks` is the count of the timer
that `pit_ticks` reads. -/
structure ConsoleState where
  geo : Geometry
  screen : Screen
  row : ℕ
  col : ℕ
  ansiState : ℕ
  ansiBuf : List Byte
  ttys : ℕ → Option TtyState
  activeTty : ℕ
  captureActive : Bool
  captureSize : Option ℕ
  captured : List Byte
  ticks : UInt64

variable {geo : Geometry} {scr : Screen}

namespace ConsoleState

def paint (s : ConsoleState) (f : Screen → Screen) : ConsoleState := { s with screen := f s.screen }

def moveTo (s : ConsoleState) (row col : ℕ) : ConsoleState := { s with row := row, col := col }

variable (s : ConsoleState) (f : Screen → Screen) (r c : ℕ)

@[simp] theorem paint_geo : (s.paint f).geo = s.geo := rfl
@[simp] theorem paint_ansiState : (s.paint f).ansiState = s.ansiState := rfl
@[simp] theorem moveTo_geo : (s.moveTo r c).geo = s.geo := rfl
@[simp] theorem moveTo_ansiState : (s.moveTo r c).ansiState = s.ansiState := rfl
@[simp] theorem moveTo_screen : (s.moveTo r c).screen = s.screen := rfl

end ConsoleState

def fbHideCursor (s : ConsoleState) : ConsoleState := s.paint (hideCursor s.geo)

/-- What `fb_show_cursor` draws. -/
def showCursor (s : ConsoleState) (scr : Screen) : Screen :=
  if s.geo.fb = false ∨ s.captureActive ∨ s.geo.rows ≤ s.row ∨ s.geo.cols ≤ s.col ∨
      fbMaxRows ≤ s.row ∨ fbMaxCols ≤ s.col then scr
  else if scr.cursorVisible = false then { scr with cursorRow := s.row, cursorCol := s.col }
  else { fbDrawChar s.col s.row scr with cursorRow := s.row, cursorCol := s.col, cursorDrawn := true }

def fbShowCursor (s : ConsoleState) : ConsoleState := s.paint (showCursor s)

def fbCursorResetBlink (s : ConsoleState) : ConsoleState :=
  if s.geo.fb = false then s
  else fbShowCursor ((fbHideCursor s).paint fun scr =>
    { scr with cursorVisible := true, cursorLastTick := s.ticks })

def consoleSetColor (fg bg : Byte) (s : ConsoleState) : ConsoleState :=
  s.paint fun scr => { scr with color := fg ||| (bg <<< 4) }

abbrev consoleLightGrey : Byte := 7

abbrev consoleBlack : Byte := 0

def ttyStateReset (ticks : UInt64) (attr : Byte) : TtyState where
  row := 0
  col := 0
  color := attr
  chars := fun _ _ => 0x20
  attrs := fun _ _ => attr
  cursorVisible := true
  cursorLastTick := ticks
  ansiState := 0
  ansiBuf := []

def ttySaveActive (s : ConsoleState) : ConsoleState :=
  { s with
    ttys := Function.update s.ttys s.activeTty (some
      { row := s.row
        col := s.col
        color := s.screen.color
        chars := s.screen.chars
        attrs := s.screen.attrs
        cursorVisible := s.screen.cursorVisible
        cursorLastTick := s.screen.cursorLastTick
        ansiState := s.ansiState
        ansiBuf := s.ansiBuf }) }

/-- What `tty_load_active` finds: the saved workspace, or one that is reset. -/
def ttyOf (s : ConsoleState) : TtyState :=
  (s.ttys s.activeTty).getD (ttyStateReset s.ticks (consoleLightGrey ||| (consoleBlack <<< 4)))

def ttyLoadActive (s : ConsoleState) : ConsoleState :=
  { s with
    ttys := Function.update s.ttys s.activeTty (some (ttyOf s))
    row := (ttyOf s).row
    col := (ttyOf s).col
    ansiState := (ttyOf s).ansiState
    ansiBuf := (ttyOf s).ansiBuf
    screen :=
      { s.screen with
        color := (ttyOf s).color
        chars := (ttyOf s).chars
        attrs := (ttyOf s).attrs
        cursorVisible := (ttyOf s).cursorVisible
        cursorLastTick := (ttyOf s).cursorLastTick
        cursorDrawn := false
        writes := s.screen.writes ++ (area fbMaxRows fbMaxCols).map fun p => .cell p.1 p.2 } }

def scroll (s : ConsoleState) : ConsoleState :=
  if s.row < s.geo.rows then s
  else (s.paint (fbScroll s.geo)).moveTo (s.geo.rows - 1) s.col

def consoleClearLineFromCursor (s : ConsoleState) : ConsoleState :=
  s.paint fun scr => (List.range' s.col (s.geo.cols - s.col)).foldl
    (fun scr x => putCellAt s.geo x s.row 0x20 scr) scr

def consoleClearFromCursor (s : ConsoleState) : ConsoleState :=
  (consoleClearLineFromCursor s).paint fun scr =>
    (List.range' (s.row + 1) (s.geo.rows - (s.row + 1))).foldl
      (fun scr y => (List.range s.geo.cols).foldl (fun scr x => putCellAt s.geo x y 0x20 scr) scr) scr

def consoleClear (s : ConsoleState) : ConsoleState :=
  let s := s.paint fun scr =>
    { scr with cursorDrawn := false, cursorVisible := true, cursorLastTick := s.ticks }
  let s := if s.geo.fb then s.paint fbResetCells
    else (s.paint fbResetCells).paint (fbRedrawTextArea s.geo)
  fbShowCursor (s.moveTo 0 0)

/-- `console_init` with the framebuffer, when there is one, at a count of the timer. -/
def consoleInit (framebuffer : Option (ℕ × ℕ)) (ticks : UInt64) : ConsoleState :=
  let attr := consoleLightGrey ||| (consoleBlack <<< 4)
  consoleClear (ttyLoadActive
    { geo := Geometry.ofFramebuffer framebuffer
      screen :=
        { chars := fun _ _ => 0
          attrs := fun _ _ => 0
          vga := fun _ => 0
          color := attr
          cursorDrawn := false
          cursorVisible := true
          cursorRow := 0
          cursorCol := 0
          cursorLastTick := 0
          writes := [] }
      row := 0
      col := 0
      ansiState := 0
      ansiBuf := []
      ttys := Function.update (fun _ => none) 0 (some (ttyStateReset ticks attr))
      activeTty := 0
      captureActive := false
      captureSize := none
      captured := []
      ticks := ticks })

/-! ### Escape sequences -/

/-- `c >= '0' && c <= '9'`. -/
abbrev isDigit (c : Byte) : Bool := 0x30 ≤ c && c ≤ 0x39

/-- `ansi_parse_param`: the number in front, which wraps as an `int`, and the rest. -/
def ansiParseParam (p : List Byte) (fallback : ℤ) : ℤ × List Byte :=
  (if p.takeWhile isDigit = [] then fallback
    else (p.takeWhile isDigit).foldl (fun v d => (v * 10 + (d.toNat - 48 : ℤ)).bmod (2 ^ 32)) 0,
    p.dropWhile isDigit)

/-- The colors after one parameter of `ansi_sgr`. -/
def sgrCode (code : ℤ) (fg bg : Byte) : Byte × Byte :=
  if code = 0 then (consoleLightGrey, consoleBlack)
  else if code = 1 ∧ fg < 8 then (fg + 8, bg)
  else if code = 7 then (bg, fg)
  else if 30 ≤ code ∧ code ≤ 37 then (UInt8.ofInt (code - 30), bg)
  else if 40 ≤ code ∧ code ≤ 47 then (fg, UInt8.ofInt (code - 40))
  else (fg, bg)

/-- The loop of `ansi_sgr`; a buffer of `n` characters has at most `n` parameters. -/
def sgrLoop : ℕ → List Byte → Byte × Byte → Byte × Byte
  | 0, _, colors => colors
  | n + 1, p, colors =>
    if p = [] then colors
    else
      let code := ansiParseParam p 0
      let colors := sgrCode code.1 colors.1 colors.2
      match code.2 with
      | c :: rest => if c = 0x3b then sgrLoop n rest colors else colors
      | [] => colors

def ansiSgr (p : List Byte) (s : ConsoleState) : ConsoleState :=
  if p = [] then consoleSetColor consoleLightGrey consoleBlack s
  else
    let colors := sgrLoop p.length p (s.screen.color &&& 0x0f, (s.screen.color >>> 4) &&& 0x0f)
    consoleSetColor colors.1 colors.2 s

/-- `x + (size_t)n`. -/
def addSize (x : ℕ) (n : ℤ) : ℕ := (((x : ℤ) + n) % 2 ^ 64).toNat

/-- `x - (size_t)n`. -/
def subSize (x : ℕ) (n : ℤ) : ℕ := (((x : ℤ) - n) % 2 ^ 64).toNat

/-- `(int)x` of a `size_t`. -/
def intOfSize (x : ℕ) : ℤ := (x : ℤ).bmod (2 ^ 32)

/-- The coordinate that `'A'` and `'D'` leave: `n > (int)x ? 0 : x - (size_t)n`. -/
def stepBack (x : ℕ) (n : ℤ) : ℕ := if intOfSize x < n then 0 else subSize x n

/-- The coordinate that `'B'` and `'C'` leave. -/
def stepOn (x : ℕ) (n : ℤ) (limit : ℕ) : ℕ := if limit ≤ addSize x n then limit - 1 else addSize x n

/-- The coordinate that `'H'` and `'f'` leave. -/
def jumpTo (n : ℤ) (limit : ℕ) : ℕ :=
  let x := if n ≤ 1 then 0 else (n - 1).toNat
  if limit ≤ x then limit - 1 else x

/-- The `'?'` in front of the parameters of `ansi_execute`. -/
def ansiPrivate (s : ConsoleState) : Bool := s.ansiBuf.head? = some 0x3f

/-- The parameters of `ansi_execute` behind it. -/
def ansiParams (s : ConsoleState) : List Byte := if ansiPrivate s then s.ansiBuf.tail else s.ansiBuf

/-- The `switch` of `ansi_execute`, with `reset_cursor`. -/
def ansiCommand (final : Byte) (s : ConsoleState) : ConsoleState × Bool :=
  let p := ansiParams s
  let n := (ansiParseParam p 1).1
  if final = 0x41 then (s.moveTo (stepBack s.row n) s.col, true)
  else if final = 0x42 then (s.moveTo (stepOn s.row n s.geo.rows) s.col, true)
  else if final = 0x43 then (s.moveTo s.row (stepOn s.col n s.geo.cols), true)
  else if final = 0x44 then (s.moveTo s.row (stepBack s.col n), true)
  else if final = 0x48 ∨ final = 0x66 then
    let rest := (ansiParseParam p 1).2
    let rest := if rest.head? = some 0x3b then rest.tail else rest
    (s.moveTo (jumpTo n s.geo.rows) (jumpTo (ansiParseParam rest 1).1 s.geo.cols), true)
  else if final = 0x4a then
    (if (ansiParseParam p 0).1 = 2 then consoleClear s else consoleClearFromCursor s, true)
  else if final = 0x4b then (consoleClearLineFromCursor s, true)
  else if final = 0x6d then (ansiSgr p s, true)
  else if final = 0x68 then
    if ansiPrivate s ∧ (ansiParseParam p 0).1 = 25 then
      (fbCursorResetBlink (s.paint fun scr => { scr with cursorVisible := true }), false)
    else (s, true)
  else if final = 0x6c then
    if ansiPrivate s ∧ (ansiParseParam p 0).1 = 25 then
      (fbHideCursor (s.paint fun scr => { scr with cursorVisible := false }), false)
    else (s, true)
  else (s, true)

def ansiExecute (final : Byte) (s : ConsoleState) : ConsoleState :=
  let r := ansiCommand final (fbHideCursor s)
  if r.2 then fbCursorResetBlink r.1 else r.1

/-- `ansi_consume`: the state after a byte that belongs to an escape sequence. -/
def ansiConsume (c : Byte) (s : ConsoleState) : Option ConsoleState :=
  if s.ansiState = 0 then
    if c = 0x1b then some { s with ansiState := 1, ansiBuf := [] } else none
  else if s.ansiState = 1 then
    if c = 0x5b then some { s with ansiState := 2, ansiBuf := [] } else some { s with ansiState := 0 }
  else if isDigit c ∨ c = 0x3b ∨ c = 0x3f then
    some (if s.ansiBuf.length + 1 < 32 then { s with ansiBuf := s.ansiBuf ++ [c] } else s)
  else some { ansiExecute c s with ansiState := 0, ansiBuf := [] }

/-! ### Bytes -/

/-- `'\b'`: the cell is cleared without a look at the row in the text mode. -/
def putBackspace (s : ConsoleState) : ConsoleState :=
  if 0 < s.col then
    (s.moveTo s.row (s.col - 1)).paint
      (if s.geo.fb then fbPutCell s.geo (s.col - 1) s.row 0x20
        else fun scr => setVga (s.row * vgaWidth + (s.col - 1)) (entry scr.color 0x20) scr)
  else s

def putPrinted (c : Byte) (s : ConsoleState) : ConsoleState :=
  let s := s.paint (putCellAt s.geo s.col s.row c)
  if s.geo.cols ≤ s.col + 1 then s.moveTo (s.row + 1) 0 else s.moveTo s.row (s.col + 1)

/-- What `console_putc` does for a byte outside an escape sequence, a tab apart. -/
def putGraphic (c : Byte) (s : ConsoleState) : ConsoleState :=
  let s := fbHideCursor s
  let s :=
    if c = 0x0a then s.moveTo (s.row + 1) 0
    else if c = 0x0d then s.moveTo s.row 0
    else if c = 0x08 then putBackspace s
    else putPrinted c s
  fbCursorResetBlink (scroll s)

/-- `console_putc` while output is captured. -/
def capturePutc (c : Byte) (s : ConsoleState) : ConsoleState :=
  match s.captureSize with
  | some size =>
    if s.captured.length + 1 < size then { s with captured := s.captured ++ [c] } else s
  | none => s

/-- `console_putc` with what it does for a tab. -/
def putcWith (tab : ConsoleState → ConsoleState) (c : Byte) (s : ConsoleState) : ConsoleState :=
  if s.captureActive then capturePutc c s
  else
    match ansiConsume c s with
    | some s' => s'
    | none => if c = 0x09 then tab (fbHideCursor s) else putGraphic c s

/-- `console_putc`: a tab calls it with four spaces. -/
def consolePutc : Byte → ConsoleState → ConsoleState :=
  putcWith (putcWith id 0x20)^[4]

def consoleWrite (text : List Byte) (s : ConsoleState) : ConsoleState :=
  text.foldl (fun s c => consolePutc c s) s

/-! ### Workspaces and the rest of the interface -/

/-- The line that `console_switch_tty` prints. -/
def ttyBanner (tty : ℕ) : List Byte :=
  lit "TTY " ++ unsignedToString 10 (tty + 1) ++
    lit " active. Ctrl+Alt+F1..F6 switches workspace.\n"

def consoleSwitchTty (tty : ℕ) (s : ConsoleState) : ConsoleState :=
  if consoleTtyCount ≤ tty ∨ tty = s.activeTty then s
  else
    let s := { ttySaveActive (fbHideCursor s) with activeTty := tty }
    let first := (s.ttys tty).isNone
    let s := ttyLoadActive s
    let s := fbCursorResetBlink (s.paint (fbRedrawTextArea s.geo))
    if first then consoleWrite (ttyBanner tty) s else s

def consoleCursorLeft (s : ConsoleState) : ConsoleState :=
  let s := fbHideCursor s
  fbCursorResetBlink
    (if 0 < s.col then s.moveTo s.row (s.col - 1)
      else if 0 < s.row then s.moveTo (s.row - 1) (s.geo.cols - 1)
      else s)

def consoleCursorRight (s : ConsoleState) : ConsoleState :=
  let s := fbHideCursor s
  fbCursorResetBlink
    (if s.col + 1 < s.geo.cols then s.moveTo s.row (s.col + 1)
      else if s.row + 1 < s.geo.rows then s.moveTo (s.row + 1) 0
      else s)

def consoleCursorBlinkTick (s : ConsoleState) : ConsoleState :=
  if s.geo.fb = false ∨ s.captureActive then s
  else if s.ticks - s.screen.cursorLastTick < 50 then s
  else fbShowCursor ((fbHideCursor s).paint fun scr =>
    { scr with cursorVisible := !scr.cursorVisible, cursorLastTick := s.ticks })

/-- `console_capture_begin` with a buffer of some size, or none. -/
def consoleCaptureBegin (size : Option ℕ) (s : ConsoleState) : ConsoleState :=
  { s with captureActive := true, captureSize := size, captured := [] }

def consoleCaptureEnd (s : ConsoleState) : ConsoleState :=
  { s with captureActive := false, captureSize := none, captured := [] }

/-- What the kernel does with the console; `timer` is a tick of the timer. -/
inductive ConsoleStep
  | putc (c : Byte)
  | switchTty (tty : ℕ)
  | cursorLeft
  | cursorRight
  | setColor (fg bg : Byte)
  | clear
  | blink
  | captureBegin (size : Option ℕ)
  | captureEnd
  | timer

def ConsoleStep.apply : ConsoleStep → ConsoleState → ConsoleState
  | .putc c => consolePutc c
  | .switchTty tty => consoleSwitchTty tty
  | .cursorLeft => consoleCursorLeft
  | .cursorRight => consoleCursorRight
  | .setColor fg bg => consoleSetColor fg bg
  | .clear => consoleClear
  | .blink => consoleCursorBlinkTick
  | .captureBegin size => consoleCaptureBegin size
  | .captureEnd => consoleCaptureEnd
  | .timer => fun s => { s with ticks := s.ticks + 1 }

def runConsole (s : ConsoleState) (steps : List ConsoleStep) : ConsoleState :=
  steps.foldl (fun s step => step.apply s) s

/-! ### What is drawn -/

theorem mem_area {height width : ℕ} {p : ℕ × ℕ} (h : p ∈ area height width) :
    p.1 < height ∧ p.2 < width := by
  obtain ⟨y, hy, hp⟩ := List.mem_flatMap.1 h
  obtain ⟨x, hx, rfl⟩ := List.mem_map.1 hp
  exact ⟨List.mem_range.1 hy, List.mem_range.1 hx⟩

namespace Screen.Inside

theorem append {ps : List Place} (h : scr.Inside geo) (hps : ∀ p ∈ ps, p.Inside geo) :
    Screen.Inside geo { scr with writes := scr.writes ++ ps } := by
  intro p hp
  rcases List.mem_append.1 hp with hp | hp
  · exact h p hp
  · exact hps p hp

theorem foldl {α : Type} {f : Screen → α → Screen} {l : List α}
    (hf : ∀ a ∈ l, ∀ {scr : Screen}, scr.Inside geo → (f scr a).Inside geo) :
    ∀ {scr : Screen}, scr.Inside geo → (l.foldl f scr).Inside geo := by
  induction l with
  | nil => intro scr h; exact h
  | cons a l ih =>
    intro scr h
    exact ih (fun b hb => hf b (List.mem_cons_of_mem a hb)) (hf a List.mem_cons_self h)

theorem setCell (h : scr.Inside geo) {y x : ℕ} (hy : y < fbMaxRows) (hx : x < fbMaxCols)
    (c attr : Byte) : (setCell y x c attr scr).Inside geo :=
  h.append fun p hp => by
    obtain rfl : p = .cell y x := by simpa using hp
    exact ⟨hy, hx⟩

theorem setVga (h : scr.Inside geo) (htext : geo.fb = false) {y x : ℕ} (hy : y < geo.rows)
    (hx : x < geo.cols) (v : UInt16) : (setVga (y * vgaWidth + x) v scr).Inside geo := by
  obtain ⟨hcols, hrows⟩ := geo.text htext
  refine h.append fun p hp => ?_
  obtain rfl := List.mem_singleton.1 hp
  change y * 80 + x < 80 * 25
  have hw : vgaWidth = 80 := rfl
  have hh : vgaHeight = 25 := rfl
  omega

theorem fbDrawChar (h : scr.Inside geo) {y x : ℕ} (hy : y < geo.rows) (hx : x < geo.cols) :
    (fbDrawChar x y scr).Inside geo :=
  h.append fun p hp => by
    obtain rfl : p = .draw y x := by simpa using hp
    exact ⟨hy, hx⟩

theorem fbRedrawCell (h : scr.Inside geo) (cx cy : ℕ) : (fbRedrawCell geo cx cy scr).Inside geo := by
  unfold Console.fbRedrawCell
  split_ifs with hout hfb
  · exact h
  · push Not at hout
    exact h.fbDrawChar hout.2.1 hout.1
  · push Not at hout
    exact h.setVga (by simpa using hfb) hout.2.1 hout.1 _

theorem putCellAt (h : scr.Inside geo) (x y : ℕ) (c : Byte) : (putCellAt geo x y c scr).Inside geo := by
  unfold Console.putCellAt
  split_ifs with hout hcell hfb hfb
  · exact h
  · exact (h.setCell hcell.2 hcell.1 c _).fbRedrawCell x y
  · push Not at hout
    exact (h.setCell hcell.2 hcell.1 c _).setVga (by simpa using hfb) hout.2 hout.1 _
  · exact h.fbRedrawCell x y
  · push Not at hout
    exact h.setVga (by simpa using hfb) hout.2 hout.1 _

theorem fbPutCell (h : scr.Inside geo) (cx cy : ℕ) (c : Byte) :
    (fbPutCell geo cx cy c scr).Inside geo := by
  unfold Console.fbPutCell
  split_ifs with hout
  · exact h
  · push Not at hout
    exact (h.setCell hout.2.2.2.2 hout.2.2.2.1 c _).fbRedrawCell cx cy

theorem fbRedrawTextArea (h : scr.Inside geo) : (fbRedrawTextArea geo scr).Inside geo :=
  foldl (fun p _ _ h => h.fbRedrawCell p.2 p.1) h

theorem hideCursor (h : scr.Inside geo) : (hideCursor geo scr).Inside geo := by
  unfold Console.hideCursor
  split_ifs with hdrawn
  · have hfalse : Screen.Inside geo { scr with cursorDrawn := false } := h
    exact hfalse.fbRedrawCell _ _
  · exact h

theorem cells {height width : ℕ} (h : scr.Inside geo) (hheight : height ≤ fbMaxRows)
    (hwidth : width ≤ fbMaxCols) :
    Screen.Inside geo
      { scr with writes := scr.writes ++ (area height width).map fun p => .cell p.1 p.2 } := by
  refine h.append fun p hp => ?_
  obtain ⟨q, hq, rfl⟩ := List.mem_map.1 hp
  exact ⟨(mem_area hq).1.trans_le hheight, (mem_area hq).2.trans_le hwidth⟩

theorem fbResetCells (h : scr.Inside geo) : (fbResetCells scr).Inside geo :=
  h.cells le_rfl le_rfl

theorem shiftRows (h : scr.Inside geo) : (shiftRows geo scr).Inside geo :=
  h.cells ((Nat.sub_le _ _).trans geo.rows_le) le_rfl

theorem fbScroll (h : scr.Inside geo) : (fbScroll geo scr).Inside geo := by
  have hrow : geo.rows - 1 < fbMaxRows := by
    have := geo.rows_pos
    have := geo.rows_le
    omega
  have hlast : ∀ {scr : Screen}, scr.Inside geo → Screen.Inside geo
      ((List.range (min geo.cols fbMaxCols)).foldl
        (fun scr x => Console.setCell (geo.rows - 1) x 0x20 scr.color scr) scr) := fun h =>
    foldl (fun x hx _ h => h.setCell hrow ((List.mem_range.1 hx).trans_le (Nat.min_le_right _ _)) _ _) h
  have hshift : Screen.Inside geo (if 1 < geo.rows then Console.shiftRows geo scr else scr) := by
    split_ifs
    · exact h.shiftRows
    · exact h
  unfold Console.fbScroll
  by_cases hfb : geo.fb = true
  · simpa [hfb] using hlast hshift
  · simp only [hfb, Bool.false_eq_true, if_false]
    refine foldl (fun p hp _ h => h.setVga (by simpa using hfb) ?_ ?_ _) (hlast hshift)
    · exact (mem_area hp).1.trans_le (Nat.min_le_left _ _)
    · exact (mem_area hp).2.trans_le (Nat.min_le_left _ _)

end Screen.Inside

end Tnu.Console
