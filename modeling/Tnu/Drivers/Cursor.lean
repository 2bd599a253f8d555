/-
**The cursor of the console.**

A parameter of an escape sequence is an `int` that wraps.  A negative one moves the cursor up or left
by a subtraction that makes the coordinate larger, with no bound; every other command bounds it.

Main definitions:

* `Overruns`, `SafeRun` — the bytes that move the cursor off the screen.

Main results:

* `CursorInv.putc`, `CursorInv.step` — a byte and a step keep the cursor inside;
* `not_inBounds_of_overruns` — **the byte that moves it outside**;
* `inBounds_iff_safeRun` — **the cursor stays inside exactly when no such byte comes**.
-/

import Tnu.Drivers.Console

set_option autoImplicit false

namespace Tnu.Console

variable {s : ConsoleState} {geo : Geometry} {scr : Screen}

/-- The cursor is on the screen, and all that was written is inside the buffers. -/
def InBounds (s : ConsoleState) : Prop :=
  s.row < s.geo.rows ∧ s.col < s.geo.cols ∧ s.screen.Inside s.geo

/-- The byte ends an escape sequence whose parameter is negative and takes the cursor off the screen:
down by `'A'`, to the right by `'D'`. -/
def Overruns (s : ConsoleState) (c : Byte) : Prop :=
  s.captureActive = false ∧ 2 ≤ s.ansiState ∧ (ansiParseParam (ansiParams s) 1).1 < 0 ∧
    (c = 0x41 ∧ (s.geo.rows : ℤ) ≤ s.row - (ansiParseParam (ansiParams s) 1).1 ∨
      c = 0x44 ∧ (s.geo.cols : ℤ) ≤ s.col - (ansiParseParam (ansiParams s) 1).1)

def SafeRun (s : ConsoleState) : List ConsoleStep → Prop
  | [] => True
  | step :: steps => (∀ c, step = .putc c → ¬ Overruns s c) ∧ SafeRun (step.apply s) steps

/-- The cursor is on the screen in every workspace. -/
structure CursorInv (s : ConsoleState) : Prop where
  row : s.row < s.geo.rows
  col : s.col < s.geo.cols
  inside : s.screen.Inside s.geo
  ttys : ∀ {i : ℕ} {t : TtyState}, s.ttys i = some t → t.row < s.geo.rows ∧ t.col < s.geo.cols

theorem CursorInv.inBounds (h : CursorInv s) : InBounds s := ⟨h.row, h.col, h.inside⟩

/-! ### Drawing -/

theorem Screen.Inside.showCursor (h : s.screen.Inside s.geo) : (showCursor s s.screen).Inside s.geo := by
  unfold Console.showCursor
  split_ifs with hout hvisible
  · exact h
  · exact h
  · push Not at hout
    exact h.fbDrawChar hout.2.2.1 hout.2.2.2.1

namespace CursorInv

theorem paint (h : CursorInv s) {f : Screen → Screen}
    (hf : s.screen.Inside s.geo → (f s.screen).Inside s.geo) : CursorInv (s.paint f) :=
  ⟨h.row, h.col, hf h.inside, h.ttys⟩

theorem moveTo (h : CursorInv s) {r c : ℕ} (hr : r < s.geo.rows) (hc : c < s.geo.cols) :
    CursorInv (s.moveTo r c) :=
  ⟨hr, hc, h.inside, h.ttys⟩

theorem fbHideCursor (h : CursorInv s) : CursorInv (fbHideCursor s) :=
  h.paint Screen.Inside.hideCursor

theorem fbShowCursor (h : CursorInv s) : CursorInv (fbShowCursor s) :=
  h.paint fun hin => hin.showCursor

theorem fbCursorResetBlink (h : CursorInv s) : CursorInv (fbCursorResetBlink s) := by
  unfold Console.fbCursorResetBlink
  split_ifs
  · exact h
  · exact (h.fbHideCursor.paint fun hin => hin).fbShowCursor

theorem consoleSetColor (h : CursorInv s) (fg bg : Byte) : CursorInv (consoleSetColor fg bg s) :=
  h.paint fun hin => hin

theorem consoleClearLineFromCursor (h : CursorInv s) : CursorInv (consoleClearLineFromCursor s) :=
  h.paint fun hin => Screen.Inside.foldl (fun x _ _ hin => hin.putCellAt x s.row _) hin

theorem consoleClearFromCursor (h : CursorInv s) : CursorInv (consoleClearFromCursor s) :=
  h.consoleClearLineFromCursor.paint fun hin =>
    Screen.Inside.foldl (fun y _ _ hin =>
      Screen.Inside.foldl (fun x _ _ hin => hin.putCellAt x y _) hin) hin

end CursorInv

theorem cursorInv_consoleClear (hin : s.screen.Inside s.geo)
    (httys : ∀ {i : ℕ} {t : TtyState}, s.ttys i = some t → t.row < s.geo.rows ∧ t.col < s.geo.cols) :
    CursorInv (consoleClear s) := by
  have hreset : Screen.Inside s.geo (fbResetCells
      { s.screen with cursorDrawn := false, cursorVisible := true, cursorLastTick := s.ticks }) :=
    Screen.Inside.fbResetCells hin
  refine CursorInv.fbShowCursor ?_
  by_cases hfb : s.geo.fb = true
  · simp only [ConsoleState.paint_geo, hfb, if_true]
    exact ⟨s.geo.rows_pos, s.geo.cols_pos, hreset, httys⟩
  · simp only [ConsoleState.paint_geo, hfb, Bool.false_eq_true, if_false]
    exact ⟨s.geo.rows_pos, s.geo.cols_pos, hreset.fbRedrawTextArea, httys⟩

/-! ### Coordinates -/

variable {c : Byte} {x limit : ℕ} {n : ℤ}

theorem intOfSize_of_lt (hx : x < 2 ^ 31) : intOfSize x = x := by
  unfold intOfSize
  rw [Int.bmod_eq_of_le] <;> omega

theorem ansiParseParam_bounds (p : List Byte) {fallback : ℤ} (hfallback : |fallback| ≤ 2 ^ 31) :
    -2 ^ 31 ≤ (ansiParseParam p fallback).1 ∧ (ansiParseParam p fallback).1 ≤ 2 ^ 31 := by
  unfold ansiParseParam
  split_ifs
  · exact abs_le.1 hfallback
  · rcases List.eq_nil_or_concat (p.takeWhile isDigit) with hnil | ⟨l, d, hd⟩
    · simp [hnil]
    · rw [hd, List.concat_eq_append, List.foldl_append]
      simp only [List.foldl_cons, List.foldl_nil]
      have hlow := Int.le_bmod (x := List.foldl (fun v (d : Byte) =>
        (v * 10 + (d.toNat - 48 : ℤ)).bmod (2 ^ 32)) 0 l * 10 + (d.toNat - 48 : ℤ)) (m := 2 ^ 32) (by norm_num)
      have hhigh := Int.bmod_lt (x := List.foldl (fun v (d : Byte) =>
        (v * 10 + (d.toNat - 48 : ℤ)).bmod (2 ^ 32)) 0 l * 10 + (d.toNat - 48 : ℤ)) (m := 2 ^ 32) (by norm_num)
      omega

theorem stepBack_lt (hx : x < limit) (hlimit : limit ≤ fbMaxCols) (hn : 0 ≤ n) :
    stepBack x n < limit := by
  have hw : fbMaxCols = 160 := rfl
  unfold stepBack
  rw [intOfSize_of_lt (by omega)]
  split_ifs with hlt
  · omega
  · rw [subSize, Int.emod_eq_of_lt] <;> omega

theorem stepBack_of_neg (hx : x < fbMaxCols) (hn : n < 0) (hlow : -2 ^ 31 ≤ n) :
    (stepBack x n : ℤ) = x - n := by
  have hw : fbMaxCols = 160 := rfl
  unfold stepBack
  rw [intOfSize_of_lt (by omega), if_neg (by omega), subSize, Int.emod_eq_of_lt] <;> omega

theorem stepOn_lt (hlimit : 0 < limit) (n : ℤ) : stepOn x n limit < limit := by
  unfold stepOn
  split_ifs <;> omega

theorem jumpTo_lt (hlimit : 0 < limit) (n : ℤ) : jumpTo n limit < limit := by
  simp only [jumpTo]
  split_ifs <;> omega

/-! ### Escape sequences -/

theorem stepBack_lt_of_not_overruns (hx : x < limit) (hlimit : limit ≤ fbMaxCols)
    (hlow : -2 ^ 31 ≤ n) (hn : ¬ (n < 0 ∧ (limit : ℤ) ≤ x - n)) : stepBack x n < limit := by
  rcases le_or_gt 0 n with hpos | hneg
  · exact stepBack_lt hx hlimit hpos
  · have hback := stepBack_of_neg (hx.trans_le hlimit) hneg hlow
    have hlt : ¬ (limit : ℤ) ≤ x - n := fun hle => hn ⟨hneg, hle⟩
    omega

theorem ansiState_of_ansiConsume (h : ansiConsume c s = none) : s.ansiState = 0 := by
  by_contra hne
  unfold ansiConsume at h
  rw [if_neg hne] at h
  split_ifs at h

namespace CursorInv

theorem branch {p : Prop} [Decidable p] {a b : ConsoleState × Bool} (ha : p → CursorInv a.1)
    (hb : CursorInv b.1) : CursorInv (if p then a else b).1 := by
  split_ifs with hp
  · exact ha hp
  · exact hb

theorem ansiCommand (h : CursorInv s) (c : Byte)
    (hup : c = 0x41 → ¬ ((ansiParseParam (ansiParams s) 1).1 < 0 ∧
      (s.geo.rows : ℤ) ≤ s.row - (ansiParseParam (ansiParams s) 1).1))
    (hleft : c = 0x44 → ¬ ((ansiParseParam (ansiParams s) 1).1 < 0 ∧
      (s.geo.cols : ℤ) ≤ s.col - (ansiParseParam (ansiParams s) 1).1)) :
    CursorInv (ansiCommand c s).1 := by
  have hlow := (ansiParseParam_bounds (ansiParams s) (by norm_num : |(1 : ℤ)| ≤ 2 ^ 31)).1
  have hrows : s.geo.rows ≤ fbMaxCols := s.geo.rows_le.trans (by norm_num)
  unfold Console.ansiCommand
  dsimp only
  refine branch (fun hA => ?_) ?_
  · exact h.moveTo (stepBack_lt_of_not_overruns h.row hrows hlow (hup hA)) h.col
  refine branch (fun _ => h.moveTo (stepOn_lt s.geo.rows_pos _) h.col) ?_
  refine branch (fun _ => h.moveTo h.row (stepOn_lt s.geo.cols_pos _)) ?_
  refine branch (fun hD => ?_) ?_
  · exact h.moveTo h.row (stepBack_lt_of_not_overruns h.col s.geo.cols_le hlow (hleft hD))
  refine branch (fun _ => h.moveTo (jumpTo_lt s.geo.rows_pos _) (jumpTo_lt s.geo.cols_pos _)) ?_
  refine branch (fun _ => ?_) ?_
  · change CursorInv (if _ then _ else _)
    split_ifs
    · exact cursorInv_consoleClear h.inside h.ttys
    · exact h.consoleClearFromCursor
  refine branch (fun _ => h.consoleClearLineFromCursor) ?_
  refine branch (fun _ => ?_) ?_
  · change CursorInv (ansiSgr _ s)
    unfold ansiSgr
    split_ifs
    · exact h.consoleSetColor _ _
    · exact h.consoleSetColor _ _
  refine branch (fun _ => branch (fun _ => ?_) h) ?_
  · exact (h.paint fun hin => hin).fbCursorResetBlink
  refine branch (fun _ => branch (fun _ => ?_) h) h
  exact (h.paint fun hin => hin).fbHideCursor

theorem ansiExecute (h : CursorInv s) (c : Byte)
    (hup : c = 0x41 → ¬ ((ansiParseParam (ansiParams s) 1).1 < 0 ∧
      (s.geo.rows : ℤ) ≤ s.row - (ansiParseParam (ansiParams s) 1).1))
    (hleft : c = 0x44 → ¬ ((ansiParseParam (ansiParams s) 1).1 < 0 ∧
      (s.geo.cols : ℤ) ≤ s.col - (ansiParseParam (ansiParams s) 1).1)) :
    CursorInv (ansiExecute c s) := by
  have hcommand := h.fbHideCursor.ansiCommand c hup hleft
  unfold Console.ansiExecute
  dsimp only
  split_ifs
  · exact hcommand.fbCursorResetBlink
  · exact hcommand

variable {c : Byte}

theorem ansiConsume (h : CursorInv s) (hactive : s.captureActive = false)
    (hsafe : ¬ Overruns s c) {s' : ConsoleState} (hs' : ansiConsume c s = some s') : CursorInv s' := by
  unfold Console.ansiConsume at hs'
  split_ifs at hs' with hzero hesc hone hbracket hparam hroom
  · obtain rfl := Option.some.inj hs'
    exact ⟨h.row, h.col, h.inside, h.ttys⟩
  · obtain rfl := Option.some.inj hs'
    exact ⟨h.row, h.col, h.inside, h.ttys⟩
  · obtain rfl := Option.some.inj hs'
    exact ⟨h.row, h.col, h.inside, h.ttys⟩
  · obtain rfl := Option.some.inj hs'
    exact ⟨h.row, h.col, h.inside, h.ttys⟩
  · obtain rfl := Option.some.inj hs'
    exact h
  · obtain rfl := Option.some.inj hs'
    have htwo : 2 ≤ s.ansiState := by omega
    have hexec : CursorInv (Console.ansiExecute c s) := h.ansiExecute c
      (fun hA hneg => hsafe ⟨hactive, htwo, hneg.1, .inl ⟨hA, hneg.2⟩⟩)
      (fun hD hneg => hsafe ⟨hactive, htwo, hneg.1, .inr ⟨hD, hneg.2⟩⟩)
    exact ⟨hexec.row, hexec.col, hexec.inside, hexec.ttys⟩

/-! ### Bytes -/

theorem scroll (hcol : s.col < s.geo.cols) (hin : s.screen.Inside s.geo)
    (httys : ∀ {i : ℕ} {t : TtyState}, s.ttys i = some t → t.row < s.geo.rows ∧ t.col < s.geo.cols) :
    CursorInv (scroll s) := by
  unfold Console.scroll
  split_ifs with hlt
  · exact ⟨hlt, hcol, hin, httys⟩
  · exact ⟨Nat.sub_lt s.geo.rows_pos one_pos, hcol, hin.fbScroll, httys⟩

theorem putBackspace (h : CursorInv s) : CursorInv (putBackspace s) := by
  unfold Console.putBackspace
  split_ifs with hcol hfb
  · refine (h.moveTo h.row (lt_of_le_of_lt (Nat.sub_le _ _) h.col)).paint fun hin => ?_
    exact hin.fbPutCell _ _ _
  · refine (h.moveTo h.row (lt_of_le_of_lt (Nat.sub_le _ _) h.col)).paint fun hin => ?_
    exact hin.setVga (by simpa using hfb) h.row (lt_of_le_of_lt (Nat.sub_le _ _) h.col) _
  · exact h

theorem putGraphic (h : CursorInv s) (c : Byte) : CursorInv (putGraphic c s) := by
  have hhide := h.fbHideCursor
  unfold Console.putGraphic
  dsimp only
  refine fbCursorResetBlink ?_
  split_ifs with hnl hcr hbs
  · exact scroll s.geo.cols_pos hhide.inside hhide.ttys
  · exact scroll s.geo.cols_pos hhide.inside hhide.ttys
  · have hback := hhide.putBackspace
    exact scroll hback.col hback.inside hback.ttys
  · have hput := hhide.inside.putCellAt s.col s.row c
    unfold putPrinted
    dsimp only
    split_ifs with hwrap
    · exact scroll s.geo.cols_pos hput hhide.ttys
    · exact scroll (not_le.1 hwrap) hput hhide.ttys

theorem capturePutc (h : CursorInv s) (c : Byte) : CursorInv (capturePutc c s) := by
  unfold Console.capturePutc
  split
  · split_ifs
    · exact ⟨h.row, h.col, h.inside, h.ttys⟩
    · exact h
  · exact h

theorem putcWith (h : CursorInv s) {tab : ConsoleState → ConsoleState}
    (hsafe : ¬ Overruns s c)
    (htab : s.captureActive = false → s.ansiState = 0 → c = 0x09 → CursorInv (tab (Console.fbHideCursor s))) :
    CursorInv (putcWith tab c s) := by
  unfold Console.putcWith
  cases hactive : s.captureActive with
  | true =>
    rw [if_pos rfl]
    exact h.capturePutc c
  | false =>
    rw [if_neg (by simp)]
    cases hconsume : Console.ansiConsume c s with
    | some s' => exact h.ansiConsume hactive hsafe hconsume
    | none =>
      change CursorInv (if c = 0x09 then _ else _)
      split_ifs with hc
      · exact htab hactive (ansiState_of_ansiConsume hconsume) hc
      · exact h.putGraphic c

theorem putSpace (h : CursorInv s) : CursorInv (Console.putcWith id 0x20 s) := by
  refine h.putcWith (fun hover => ?_) fun _ _ hc => by simp at hc
  rcases hover.2.2.2 with ⟨hc, -⟩ | ⟨hc, -⟩ <;> simp at hc

theorem iterate_putSpace (h : CursorInv s) (n : ℕ) : CursorInv ((Console.putcWith id 0x20)^[n] s) := by
  induction n generalizing s with
  | zero => exact h
  | succ n ih => exact ih h.putSpace

/-- **A byte that does not overrun the screen keeps the cursor inside.** -/
theorem putc (h : CursorInv s) (hsafe : ¬ Overruns s c) : CursorInv (consolePutc c s) :=
  h.putcWith hsafe fun _ _ _ => h.fbHideCursor.iterate_putSpace 4

end CursorInv

/-! ### Text without escape sequences -/

@[simp] theorem ansiState_fbHideCursor : (fbHideCursor s).ansiState = s.ansiState := rfl

@[simp] theorem ansiState_fbCursorResetBlink : (fbCursorResetBlink s).ansiState = s.ansiState := by
  unfold fbCursorResetBlink
  split_ifs <;> rfl

@[simp] theorem ansiState_scroll : (scroll s).ansiState = s.ansiState := by
  unfold scroll
  split_ifs <;> rfl

@[simp] theorem ansiState_putBackspace : (putBackspace s).ansiState = s.ansiState := by
  unfold putBackspace
  split_ifs <;> rfl

@[simp] theorem ansiState_putPrinted (c : Byte) : (putPrinted c s).ansiState = s.ansiState := by
  unfold putPrinted
  dsimp only
  split_ifs <;> rfl

@[simp] theorem ansiState_putGraphic (c : Byte) : (putGraphic c s).ansiState = s.ansiState := by
  unfold putGraphic
  dsimp only
  rw [ansiState_fbCursorResetBlink, ansiState_scroll]
  split_ifs <;> simp

theorem ansiState_putcWith {tab : ConsoleState → ConsoleState} (hc : c ≠ 0x1b)
    (hzero : s.ansiState = 0) (htab : (tab (fbHideCursor s)).ansiState = 0) :
    (putcWith tab c s).ansiState = 0 := by
  have hnone : ansiConsume c s = none := by
    unfold ansiConsume
    rw [if_pos hzero, if_neg hc]
  unfold putcWith
  rw [hnone]
  dsimp only
  by_cases hactive : s.captureActive = true
  · rw [if_pos hactive]
    unfold capturePutc
    split
    · split_ifs <;> exact hzero
    · exact hzero
  · rw [if_neg hactive]
    split_ifs
    · exact htab
    · rw [ansiState_putGraphic, hzero]

theorem ansiState_iterate_putSpace (hzero : s.ansiState = 0) (n : ℕ) :
    ((putcWith id 0x20)^[n] s).ansiState = 0 := by
  induction n generalizing s with
  | zero => exact hzero
  | succ n ih => exact ih (ansiState_putcWith (by simp) hzero hzero)

theorem CursorInv.consoleWrite {text : List Byte} (htext : 0x1b ∉ text) :
    ∀ {s : ConsoleState}, CursorInv s → s.ansiState = 0 → CursorInv (consoleWrite text s) := by
  induction text with
  | nil => intro s h _; exact h
  | cons c text ih =>
    intro s h hzero
    have hc : c ≠ 0x1b := fun hc => htext (hc ▸ List.mem_cons_self)
    refine ih (fun hmem => htext (List.mem_cons_of_mem c hmem)) (h.putc fun hover => ?_) ?_
    · have := hover.2.1
      omega
    · have hhide : (Console.fbHideCursor s).ansiState = 0 := hzero
      exact ansiState_putcWith hc hzero (ansiState_iterate_putSpace hhide 4)

theorem esc_notMem_ttyBanner {tty : ℕ} (htty : tty < consoleTtyCount) : 0x1b ∉ ttyBanner tty := by
  have hall : ∀ tty < 6, 0x1b ∉ ttyBanner tty := by decide
  exact hall tty htty

/-! ### Workspaces -/

namespace CursorInv

theorem ttyOf (h : CursorInv s) : (ttyOf s).row < s.geo.rows ∧ (ttyOf s).col < s.geo.cols := by
  unfold Console.ttyOf
  cases htty : s.ttys s.activeTty with
  | none => exact ⟨s.geo.rows_pos, s.geo.cols_pos⟩
  | some t => exact h.ttys htty

theorem update (h : CursorInv s) {i : ℕ} {t : TtyState} (ht : t.row < s.geo.rows ∧ t.col < s.geo.cols)
    {j : ℕ} {t' : TtyState} (ht' : Function.update s.ttys i (some t) j = some t') :
    t'.row < s.geo.rows ∧ t'.col < s.geo.cols := by
  rcases eq_or_ne j i with rfl | hne
  · rw [Function.update_self] at ht'
    obtain rfl := Option.some.inj ht'
    exact ht
  · rw [Function.update_of_ne hne] at ht'
    exact h.ttys ht'

theorem ttySaveActive (h : CursorInv s) (tty : ℕ) :
    CursorInv { ttySaveActive s with activeTty := tty } :=
  ⟨h.row, h.col, h.inside, fun ht => h.update ⟨h.row, h.col⟩ ht⟩

theorem ttyLoadActive (h : CursorInv s) : CursorInv (ttyLoadActive s) :=
  ⟨h.ttyOf.1, h.ttyOf.2, h.inside.cells le_rfl le_rfl, fun ht => h.update h.ttyOf ht⟩

theorem consoleSwitchTty (h : CursorInv s) (tty : ℕ) : CursorInv (consoleSwitchTty tty s) := by
  unfold Console.consoleSwitchTty
  by_cases hsame : consoleTtyCount ≤ tty ∨ tty = s.activeTty
  · rw [if_pos hsame]
    exact h
  · rw [if_neg hsame]
    dsimp only
    push Not at hsame
    have hload := (h.fbHideCursor.ttySaveActive tty).ttyLoadActive
    have hdraw := (hload.paint Screen.Inside.fbRedrawTextArea).fbCursorResetBlink
    split_ifs with hfirst
    · refine hdraw.consoleWrite (esc_notMem_ttyBanner hsame.1) ?_
      rw [ansiState_fbCursorResetBlink]
      change (Console.ttyOf _).ansiState = 0
      unfold Console.ttyOf
      rw [Option.isNone_iff_eq_none.1 hfirst]
      rfl
    · exact hdraw

theorem consoleCursorLeft (h : CursorInv s) : CursorInv (consoleCursorLeft s) := by
  have hhide := h.fbHideCursor
  unfold Console.consoleCursorLeft
  dsimp only
  refine fbCursorResetBlink ?_
  split_ifs
  · exact hhide.moveTo hhide.row (lt_of_le_of_lt (Nat.sub_le _ _) hhide.col)
  · exact hhide.moveTo (lt_of_le_of_lt (Nat.sub_le _ _) hhide.row) (Nat.sub_lt s.geo.cols_pos one_pos)
  · exact hhide

theorem consoleCursorRight (h : CursorInv s) : CursorInv (consoleCursorRight s) := by
  have hhide := h.fbHideCursor
  unfold Console.consoleCursorRight
  dsimp only
  refine fbCursorResetBlink ?_
  split_ifs with hcol hrow
  · exact hhide.moveTo hhide.row hcol
  · exact hhide.moveTo hrow s.geo.cols_pos
  · exact hhide

theorem consoleCursorBlinkTick (h : CursorInv s) : CursorInv (consoleCursorBlinkTick s) := by
  unfold Console.consoleCursorBlinkTick
  split_ifs
  · exact h
  · exact h
  · exact (h.fbHideCursor.paint fun hin => hin).fbShowCursor

theorem step (h : CursorInv s) {step : ConsoleStep} (hsafe : ∀ c, step = .putc c → ¬ Overruns s c) :
    CursorInv (step.apply s) := by
  cases step with
  | putc c => exact h.putc (hsafe c rfl)
  | switchTty tty => exact h.consoleSwitchTty tty
  | cursorLeft => exact h.consoleCursorLeft
  | cursorRight => exact h.consoleCursorRight
  | setColor fg bg => exact h.consoleSetColor fg bg
  | clear => exact cursorInv_consoleClear h.inside h.ttys
  | blink => exact h.consoleCursorBlinkTick
  | captureBegin size => exact ⟨h.row, h.col, h.inside, h.ttys⟩
  | captureEnd => exact ⟨h.row, h.col, h.inside, h.ttys⟩
  | timer => exact ⟨h.row, h.col, h.inside, h.ttys⟩

end CursorInv

theorem cursorInv_consoleInit (framebuffer : Option (ℕ × ℕ)) (ticks : UInt64) :
    CursorInv (consoleInit framebuffer ticks) := by
  refine cursorInv_consoleClear ?_ ?_
  · refine Screen.Inside.cells (fun p hp => ?_) le_rfl le_rfl
    exact absurd hp List.not_mem_nil
  · have hreset : ∀ tty, tty = ttyStateReset ticks (consoleLightGrey ||| (consoleBlack <<< 4)) →
        tty.row < (Geometry.ofFramebuffer framebuffer).rows ∧
          tty.col < (Geometry.ofFramebuffer framebuffer).cols := by
      rintro tty rfl
      exact ⟨Geometry.rows_pos _, Geometry.cols_pos _⟩
    intro i t ht
    change Function.update (Function.update (fun _ : ℕ => (none : Option TtyState)) 0
      (some (ttyStateReset ticks (consoleLightGrey ||| (consoleBlack <<< 4))))) 0 _ i = some t at ht
    rcases eq_or_ne i 0 with rfl | hne
    · rw [Function.update_self] at ht
      exact hreset t (Option.some.inj ht).symm
    · rw [Function.update_of_ne hne, Function.update_of_ne hne] at ht
      exact absurd ht (by simp)

/-! ### Runs -/

@[simp] theorem geo_fbCursorResetBlink : (fbCursorResetBlink s).geo = s.geo := by
  unfold fbCursorResetBlink
  split_ifs <;> rfl

@[simp] theorem row_fbCursorResetBlink : (fbCursorResetBlink s).row = s.row := by
  unfold fbCursorResetBlink
  split_ifs <;> rfl

@[simp] theorem col_fbCursorResetBlink : (fbCursorResetBlink s).col = s.col := by
  unfold fbCursorResetBlink
  split_ifs <;> rfl

theorem consolePutc_final (hactive : s.captureActive = false) (htwo : 2 ≤ s.ansiState)
    (hc : c = 0x41 ∨ c = 0x44) :
    consolePutc c s = { ansiExecute c s with ansiState := 0, ansiBuf := [] } := by
  have hdigit : ¬ (isDigit c ∨ c = 0x3b ∨ c = 0x3f) := by
    rcases hc with rfl | rfl <;> decide
  unfold consolePutc putcWith ansiConsume
  rw [if_neg (by simp [hactive]), if_neg (by omega), if_neg (by omega), if_neg hdigit]

/-- **A byte that overruns the screen leaves the cursor outside.** -/
theorem not_inBounds_of_overruns (h : CursorInv s) (hover : Overruns s c) :
    ¬ InBounds (consolePutc c s) := by
  obtain ⟨hactive, htwo, hneg, hout⟩ := hover
  have hlow := (ansiParseParam_bounds (ansiParams s) (by norm_num : |(1 : ℤ)| ≤ 2 ^ 31)).1
  rintro ⟨hrow, hcol, -⟩
  rcases hout with ⟨rfl, hout⟩ | ⟨rfl, hout⟩
  · rw [consolePutc_final hactive htwo (.inl rfl)] at hrow
    change (ansiExecute 0x41 s).row < (ansiExecute 0x41 s).geo.rows at hrow
    have hexec : ansiExecute 0x41 s = fbCursorResetBlink
        ((fbHideCursor s).moveTo (stepBack s.row (ansiParseParam (ansiParams s) 1).1) s.col) := rfl
    have hback := stepBack_of_neg (h.row.trans_le (s.geo.rows_le.trans (by norm_num))) hneg hlow
    rw [hexec, row_fbCursorResetBlink, geo_fbCursorResetBlink] at hrow
    have hlt : stepBack s.row (ansiParseParam (ansiParams s) 1).1 < s.geo.rows := hrow
    omega
  · rw [consolePutc_final hactive htwo (.inr rfl)] at hcol
    change (ansiExecute 0x44 s).col < (ansiExecute 0x44 s).geo.cols at hcol
    have hexec : ansiExecute 0x44 s = fbCursorResetBlink
        ((fbHideCursor s).moveTo s.row (stepBack s.col (ansiParseParam (ansiParams s) 1).1)) := rfl
    have hback := stepBack_of_neg (h.col.trans_le s.geo.cols_le) hneg hlow
    rw [hexec, col_fbCursorResetBlink, geo_fbCursorResetBlink] at hcol
    have hlt : stepBack s.col (ansiParseParam (ansiParams s) 1).1 < s.geo.cols := hcol
    omega

theorem CursorInv.run {steps : List ConsoleStep} : ∀ {s : ConsoleState}, CursorInv s →
    ((∀ pre, pre <+: steps → InBounds (runConsole s pre)) ↔ SafeRun s steps) := by
  induction steps with
  | nil =>
    intro s h
    refine ⟨fun _ => trivial, fun _ pre hpre => ?_⟩
    obtain rfl := List.prefix_nil.1 hpre
    exact h.inBounds
  | cons step steps ih =>
    intro s h
    constructor
    · intro hall
      have hstep : ∀ c, step = .putc c → ¬ Overruns s c := by
        rintro c rfl hover
        exact not_inBounds_of_overruns h hover (hall [.putc c] (by simp))
      refine ⟨hstep, (ih (h.step hstep)).1 fun pre hpre => ?_⟩
      exact hall (step :: pre) ((List.prefix_cons_inj step).2 hpre)
    · rintro ⟨hstep, hsafe⟩ pre hpre
      rcases List.prefix_cons_iff.1 hpre with rfl | ⟨rest, rfl, hrest⟩
      · exact h.inBounds
      · exact (ih (h.step hstep)).2 hsafe rest hrest

/-- **In a run from the start the cursor stays on the screen, with all that is written inside the
buffers, exactly when no escape sequence with a negative parameter takes it off.** -/
theorem inBounds_iff_safeRun (framebuffer : Option (ℕ × ℕ)) (ticks : UInt64)
    (steps : List ConsoleStep) :
    (∀ pre, pre <+: steps → InBounds (runConsole (consoleInit framebuffer ticks) pre)) ↔
      SafeRun (consoleInit framebuffer ticks) steps :=
  (cursorInv_consoleInit framebuffer ticks).run

/-- On the last row of the text mode the cursor goes up by `-1`. -/
theorem not_inBounds :
    ¬ ∀ (framebuffer : Option (ℕ × ℕ)) (ticks : UInt64) (steps : List ConsoleStep),
      InBounds (runConsole (consoleInit framebuffer ticks) steps) := by
  intro hall
  have hrow := (hall none 0 ((lit "\x1b[24B\x1b[4294967295A").map .putc)).1
  revert hrow
  decide +kernel

end Tnu.Console
