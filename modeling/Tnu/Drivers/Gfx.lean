/-
**Drawing on the screen.**

The graphics module draws with signed 32-bit coordinates on a screen whose pixels lie at `pitch`
bytes a line.  A pixel is drawn when it is on the screen; a rectangle is clamped to the screen first
and then filled in words or pixel by pixel.  The clamping takes `x + w` and `y + h`: in a sum beyond
the last coordinate the arithmetic of the machine wraps, the sum is negative, and a rectangle that
covers the screen is clamped to nothing.

Main result:

* `Screen.fillLaw_iff` — **exactly when filling is clipped**.
-/

import Tnu.Drivers.Framebuffer
import Tnu.Lib.Moves

set_option autoImplicit false

namespace Tnu.Gfx

/-! ### The screen -/

/-- The fields of `struct video_info` that drawing reads. -/
structure VideoInfo where
  width : UInt32
  height : UInt32
  pitch : UInt32
  bitsPerPixel : UInt8
  bytesPerPixel : UInt8

/-- `get_pixel_addr`, counted from the address of the framebuffer. -/
def VideoInfo.pixelAddr (v : VideoInfo) (x y : ℤ) : ℤ :=
  y * v.pitch.toNat + x * v.bytesPerPixel.toNat

def clamp32 (val min max : Int32) : Int32 :=
  if val < min then min else if max < val then max else val

def onScreen (v : VideoInfo) (x y : Int32) : Prop :=
  0 ≤ x ∧ 0 ≤ y ∧ x.toUInt32 < v.width ∧ y.toUInt32 < v.height

instance (v : VideoInfo) (x y : Int32) : Decidable (onScreen v x y) :=
  inferInstanceAs (Decidable (_ ∧ _))

/-- The bytes that `gfx_draw_pixel` stores for a colour. -/
def VideoInfo.shown (v : VideoInfo) (color : UInt32) : List UInt8 :=
  if v.bitsPerPixel = 32 then Bytes.le 4 color.toNat
  else if v.bitsPerPixel = 24 then
    [(color &&& 0xff).toUInt8, ((color >>> 8) &&& 0xff).toUInt8, ((color >>> 16) &&& 0xff).toUInt8]
  else if v.bitsPerPixel = 16 then Bytes.le 2 (Fb.pack565 color).toNat
  else []

/-- `struct gfx_rect`. -/
structure Rect where
  x : Int32
  y : Int32
  w : Int32
  h : Int32

/-- The state of the module: the memory from the address of the framebuffer on, and the dirty
rectangle. -/
structure State where
  initialized : Bool
  mem : ℤ → UInt8
  dirty : Rect
  hasDirty : Bool

def put (m : ℤ → UInt8) (a : ℤ) (l : List UInt8) : ℤ → UInt8 := fun b =>
  if a ≤ b ∧ b < a + l.length then l.getD (b - a).toNat 0 else m b

/-! ### The dirty rectangle -/

/-- `gfx_mark_dirty`. -/
def markDirty (s : State) (x y w h : Int32) : State :=
  if s.hasDirty then
    let x1 := if s.dirty.x < x then s.dirty.x else x
    let y1 := if s.dirty.y < y then s.dirty.y else y
    let x2 := s.dirty.x + s.dirty.w
    let y2 := s.dirty.y + s.dirty.h
    let nx2 := x + w
    let ny2 := y + h
    { s with dirty := ⟨x1, y1, (if nx2 < x2 then x2 else nx2) - x1, (if ny2 < y2 then y2 else ny2) - y1⟩ }
  else { s with dirty := ⟨x, y, w, h⟩, hasDirty := true }

/-- `gfx_clear_dirty`, and `gfx_flush_dirty`, which does the same. -/
def clearDirty (s : State) : State := { s with hasDirty := false }

/-- `gfx_get_dirty_rect`. -/
def getDirtyRect (s : State) : Option Rect := if s.hasDirty then some s.dirty else none

/-! ### Drawing -/

section Drawing

variable (v : VideoInfo) (s : State)

/-- `gfx_draw_pixel`. -/
def drawPixel (x y : Int32) (color : UInt32) : State :=
  if s.initialized = false ∨ ¬ onScreen v x y then s
  else markDirty { s with mem := put s.mem (v.pixelAddr x.toInt y.toInt) (v.shown color) } x y 1 1

/-- `for (int32_t i = 0; i < n; i++)`. -/
def counts (n : Int32) : List ℕ := List.range n.toInt.toNat

/-- The 32-bit path of `gfx_fill_rect`: words from the address of the first pixel on. -/
def fillWords (m : ℤ → UInt8) (x1 y1 w h : Int32) (color : UInt32) : ℤ → UInt8 :=
  (counts h).foldl (fun m (row : ℕ) => (counts w).foldl (fun m (col : ℕ) =>
    put m (v.pixelAddr x1.toInt y1.toInt + row * v.pitch.toNat + 4 * col) (Bytes.le 4 color.toNat)) m) m

def fillPixels (x1 y1 w h : Int32) (color : UInt32) : State :=
  (counts h).foldl (fun s row => (counts w).foldl (fun s col =>
    drawPixel v s (x1 + Int32.ofNat col) (y1 + Int32.ofNat row) color) s) s

/-- The two paths of `gfx_fill_rect`, for a rectangle that is clipped. -/
def fillClipped (x1 y1 w h : Int32) (color : UInt32) : State :=
  if v.bitsPerPixel = 32 then
    markDirty { s with mem := fillWords v s.mem x1 y1 w h color } x1 y1 w h
  else markDirty (fillPixels v s x1 y1 w h color) x1 y1 w h

/-- `gfx_fill_rect`. -/
def fillRect (x y w h : Int32) (color : UInt32) : State :=
  if s.initialized = false ∨ w ≤ 0 ∨ h ≤ 0 then s
  else
    let x1 := clamp32 x 0 v.width.toInt32
    let y1 := clamp32 y 0 v.height.toInt32
    let x2 := clamp32 (x + w) 0 v.width.toInt32
    let y2 := clamp32 (y + h) 0 v.height.toInt32
    let w := x2 - x1
    let h := y2 - y1
    if w ≤ 0 ∨ h ≤ 0 then s else fillClipped v s x1 y1 w h color

/-- `gfx_clear`. -/
def clear (color : UInt32) : State := fillRect v s 0 0 v.width.toInt32 v.height.toInt32 color

/-- The rows that `gfx_copy_region` moves, in order, each by its destination and its source. -/
def copyRows (srcX srcY dstX dstY h : Int32) : List (ℤ × ℤ) :=
  (if srcY < dstY ∨ srcY = dstY ∧ srcX < dstX then (counts h).reverse else counts h).map fun y =>
    (v.pixelAddr dstX.toInt (dstY + Int32.ofNat y).toInt,
      v.pixelAddr srcX.toInt (srcY + Int32.ofNat y).toInt)

/-- `gfx_copy_region`. -/
def copyRegion (srcX srcY dstX dstY w h : Int32) : State :=
  if s.initialized = false ∨ w ≤ 0 ∨ h ≤ 0 then s
  else
    markDirty { s with
      mem := Moves.moveAll s.mem (w.toInt.toNat * v.bytesPerPixel.toNat)
        (copyRows v srcX srcY dstX dstY h) } dstX dstY w h

end Drawing

/-! ### Signed 32-bit words -/

theorem toInt_add_of_fits {a b : Int32} (hlo : -2 ^ 31 ≤ a.toInt + b.toInt)
    (hhi : a.toInt + b.toInt < 2 ^ 31) : (a + b).toInt = a.toInt + b.toInt := by
  rw [Int32.toInt_add]
  exact Int.bmod_eq_of_le (by omega) (by omega)

theorem toInt_add_of_over {a b : Int32} (hover : 2 ^ 31 ≤ a.toInt + b.toInt) :
    (a + b).toInt = a.toInt + b.toInt - 2 ^ 32 := by
  have ha := a.toInt_lt
  have hb := b.toInt_lt
  have hshift : (a.toInt + b.toInt - 2 ^ 32).bmod (2 ^ 32) = a.toInt + b.toInt - 2 ^ 32 :=
    Int.bmod_eq_of_le (by omega) (by omega)
  rw [Int32.toInt_add, ← hshift]
  exact (Int.sub_bmod_right _ _).symm

theorem toInt_sub_of_fits {a b : Int32} (hlo : -2 ^ 31 ≤ a.toInt - b.toInt)
    (hhi : a.toInt - b.toInt < 2 ^ 31) : (a - b).toInt = a.toInt - b.toInt := by
  rw [Int32.toInt_sub]
  exact Int.bmod_eq_of_le (by omega) (by omega)

theorem toInt_ofNat_counter {n : Int32} {i : ℕ} (hi : i < n.toInt.toNat) :
    (Int32.ofNat i).toInt = i := by
  have hn := n.toInt_lt
  exact Int32.toInt_ofNat_of_lt (by omega)

theorem toInt_toInt32 {n : UInt32} (hn : n.toNat < 2 ^ 31) : n.toInt32.toInt = n.toNat := by
  have h : n.toInt32 = Int32.ofNat n.toNat := by
    rw [← Int32.toBitVec_inj]
    simp
  rw [h]
  exact Int32.toInt_ofNat_of_lt hn

theorem toNat_toUInt32 {x : Int32} (hx : 0 ≤ x) : (x.toUInt32.toNat : ℤ) = x.toInt := by
  rw [Int32.toNat_toUInt32_of_le hx]
  have h0 : 0 ≤ x.toInt := Int32.le_iff_toInt_le.1 hx
  rw [Int32.toNatClampNeg]
  omega

/-! ### Pixels on the screen -/

def VideoInfo.OnScreen (v : VideoInfo) (px py : ℤ) : Prop :=
  0 ≤ px ∧ px < v.width.toNat ∧ 0 ≤ py ∧ py < v.height.toNat

def VideoInfo.Visible (v : VideoInfo) (b : ℤ) : Prop :=
  ∃ px py : ℤ, ∃ k < v.bytesPerPixel.toNat, v.OnScreen px py ∧ b = v.pixelAddr px py + k

/-- A graphics mode as the video driver sets it up: a depth it parses, rows that fit into the pitch,
and a framebuffer that it maps. -/
structure Screen extends VideoInfo where
  depth : bitsPerPixel = 16 ∨ bitsPerPixel = 24 ∨ bitsPerPixel = 32
  bytes : bytesPerPixel = (bitsPerPixel + 7) / 8
  fits : width.toNat * bytesPerPixel.toNat ≤ pitch.toNat
  mapped : 0 < pitch.toNat * height.toNat ∧ pitch.toNat * height.toNat ≤ 256 * 1024 * 1024

namespace Screen

variable (v : Screen) {x y w h : Int32} {color : UInt32} {m : ℤ → UInt8}

theorem bytes_cases : v.bytesPerPixel.toNat = 2 ∨ v.bytesPerPixel.toNat = 3 ∨ v.bytesPerPixel.toNat = 4 := by
  rw [v.bytes]
  rcases v.depth with hb | hb | hb
  · exact Or.inl (by rw [hb]; rfl)
  · exact Or.inr (Or.inl (by rw [hb]; rfl))
  · exact Or.inr (Or.inr (by rw [hb]; rfl))

@[simp] theorem length_shown (color : UInt32) :
    (v.shown color).length = v.bytesPerPixel.toNat := by
  rw [v.bytes, VideoInfo.shown]
  rcases v.depth with hb | hb | hb
  · simp [hb]
  · simp [hb]
  · simp [hb]

theorem width_lt : v.width.toNat < 2 ^ 31 := by
  have hpitch := v.pitch.toNat_lt
  have hfits := v.fits
  have htwo : v.width.toNat * 2 ≤ v.width.toNat * v.bytesPerPixel.toNat :=
    Nat.mul_le_mul_left _ (by have := v.bytes_cases; omega)
  omega

theorem height_lt : v.height.toNat < 2 ^ 31 := by
  have hpitch : 0 < v.pitch.toNat := Nat.pos_of_mul_pos_right v.mapped.1
  have hle : v.height.toNat ≤ v.pitch.toNat * v.height.toNat := Nat.le_mul_of_pos_left _ hpitch
  have := v.mapped.2
  omega

theorem onScreen_iff : onScreen v.toVideoInfo x y ↔ v.OnScreen x.toInt y.toInt := by
  rw [onScreen, VideoInfo.OnScreen, Int32.le_iff_toInt_le, Int32.le_iff_toInt_le,
    UInt32.lt_iff_toNat_lt, UInt32.lt_iff_toNat_lt]
  change 0 ≤ x.toInt ∧ 0 ≤ y.toInt ∧ _ ∧ _ ↔ _
  constructor
  · rintro ⟨hx, hy, hw, hh⟩
    have hx' := toNat_toUInt32 (Int32.le_iff_toInt_le.2 hx)
    have hy' := toNat_toUInt32 (Int32.le_iff_toInt_le.2 hy)
    omega
  · rintro ⟨hx, hw, hy, hh⟩
    have hx' := toNat_toUInt32 (Int32.le_iff_toInt_le.2 hx)
    have hy' := toNat_toUInt32 (Int32.le_iff_toInt_le.2 hy)
    omega

theorem offset_bounds {px py : ℤ} {k : ℕ} (hp : v.OnScreen px py) (hk : k < v.bytesPerPixel.toNat) :
    0 ≤ px * v.bytesPerPixel.toNat + k ∧ px * v.bytesPerPixel.toNat + k < v.pitch.toNat := by
  have hfits : (v.width.toNat : ℤ) * v.bytesPerPixel.toNat ≤ v.pitch.toNat := mod_cast v.fits
  have hnonneg : 0 ≤ px * v.bytesPerPixel.toNat := mul_nonneg hp.1 (Int.natCast_nonneg _)
  have hstep : (px + 1) * v.bytesPerPixel.toNat ≤ v.width.toNat * v.bytesPerPixel.toNat :=
    mul_le_mul_of_nonneg_right (by have := hp.2.1; omega) (Int.natCast_nonneg _)
  rw [add_mul, one_mul] at hstep
  omega

theorem digits_inj {a b n r r' : ℤ} (hr : 0 ≤ r ∧ r < n) (hr' : 0 ≤ r' ∧ r' < n)
    (h : a * n + r = b * n + r') : a = b ∧ r = r' := by
  rcases lt_trichotomy a b with hlt | rfl | hgt
  · have : (a + 1) * n ≤ b * n := mul_le_mul_of_nonneg_right (by omega) (by omega)
    rw [add_mul, one_mul] at this
    omega
  · exact ⟨rfl, by omega⟩
  · have : (b + 1) * n ≤ a * n := mul_le_mul_of_nonneg_right (by omega) (by omega)
    rw [add_mul, one_mul] at this
    omega

/-- **A byte on the screen belongs to one pixel.** -/
theorem pixelAddr_inj {px py qx qy : ℤ} {k l : ℕ} (hp : v.OnScreen px py) (hq : v.OnScreen qx qy)
    (hk : k < v.bytesPerPixel.toNat) (hl : l < v.bytesPerPixel.toNat)
    (h : v.pixelAddr px py + k = v.pixelAddr qx qy + l) : px = qx ∧ py = qy ∧ k = l := by
  rw [VideoInfo.pixelAddr, VideoInfo.pixelAddr, add_assoc, add_assoc] at h
  obtain ⟨hy, hrest⟩ := digits_inj (v.offset_bounds hp hk) (v.offset_bounds hq hl) h
  obtain ⟨hx, hkl⟩ := digits_inj ⟨Int.natCast_nonneg _, mod_cast hk⟩ ⟨Int.natCast_nonneg _, mod_cast hl⟩ hrest
  exact ⟨hx, hy, mod_cast hkl⟩

end Screen

/-! ### Plotting -/

/-- The memory shows this picture on the screen; what is not on the screen is as it was. -/
def Shows (v : VideoInfo) (m m' : ℤ → UInt8) (picture : ℤ → ℤ → ℕ → UInt8) : Prop :=
  (∀ px py, v.OnScreen px py → ∀ k < v.bytesPerPixel.toNat,
    m' (v.pixelAddr px py + k) = picture px py k) ∧ ∀ b, ¬ v.Visible b → m' b = m b

def plot (v : VideoInfo) (m : ℤ → UInt8) (pixels : List (ℤ × ℤ)) (l : List UInt8) : ℤ → UInt8 :=
  pixels.foldl (fun m p => put m (v.pixelAddr p.1 p.2) l) m

def cells (x y : ℤ) (w h : ℕ) : List (ℤ × ℤ) :=
  (List.range h).flatMap fun row : ℕ => (List.range w).map fun col : ℕ => (x + col, y + row)

theorem mem_cells {x y px py : ℤ} {w h : ℕ} :
    (px, py) ∈ cells x y w h ↔ (x ≤ px ∧ px < x + w) ∧ y ≤ py ∧ py < y + h := by
  simp only [cells, List.mem_flatMap, List.mem_map, List.mem_range, Prod.mk.injEq]
  constructor
  · rintro ⟨row, hrow, col, hcol, rfl, rfl⟩
    omega
  · rintro ⟨⟨hx, hx'⟩, hy, hy'⟩
    exact ⟨(py - y).toNat, by omega, (px - x).toNat, by omega, by omega, by omega⟩

namespace Screen

variable (v : Screen) {m : ℤ → UInt8} {l : List UInt8}

theorem put_pixel (hl : l.length = v.bytesPerPixel.toNat) {px py qx qy : ℤ} {k : ℕ}
    (hp : v.OnScreen px py) (hq : v.OnScreen qx qy) (hk : k < v.bytesPerPixel.toNat) :
    put m (v.pixelAddr px py) l (v.pixelAddr qx qy + k) =
      if (qx, qy) = (px, py) then l.getD k 0 else m (v.pixelAddr qx qy + k) := by
  rw [put]
  split_ifs with hin heq heq
  · obtain ⟨rfl, rfl⟩ := Prod.mk.inj heq
    rw [add_sub_cancel_left, Int.toNat_natCast]
  · -- a byte of one pixel is no byte of another
    exfalso
    have hat : v.pixelAddr px py + ((v.pixelAddr qx qy + k - v.pixelAddr px py).toNat : ℕ) =
        v.pixelAddr qx qy + k := by omega
    obtain ⟨rfl, rfl, -⟩ := v.pixelAddr_inj hp hq (by omega) hk hat
    exact heq rfl
  · obtain ⟨rfl, rfl⟩ := Prod.mk.inj heq
    exact absurd ⟨by omega, by omega⟩ hin
  · rfl

theorem put_of_not_visible (hl : l.length = v.bytesPerPixel.toNat) {px py b : ℤ}
    (hp : v.OnScreen px py) (hb : ¬ v.Visible b) : put m (v.pixelAddr px py) l b = m b := by
  refine if_neg fun hin => hb ⟨px, py, (b - v.pixelAddr px py).toNat, by omega, hp, by omega⟩

/-- **Plotted pixels show the colour**, and nothing else changes. -/
theorem plot_shows (hl : l.length = v.bytesPerPixel.toNat) {pixels : List (ℤ × ℤ)}
    (hpixels : ∀ p ∈ pixels, v.OnScreen p.1 p.2) :
    Shows v.toVideoInfo m (plot v.toVideoInfo m pixels l) fun px py k =>
      if (px, py) ∈ pixels then l.getD k 0 else m (v.pixelAddr px py + k) := by
  induction pixels generalizing m with
  | nil => exact ⟨fun _ _ _ _ _ => rfl, fun _ _ => rfl⟩
  | cons p pixels ih =>
    have hp := hpixels p List.mem_cons_self
    obtain ⟨hshow, hkeep⟩ := ih (m := put m (v.pixelAddr p.1 p.2) l) fun q hq =>
      hpixels q (List.mem_cons_of_mem _ hq)
    refine ⟨fun qx qy hq k hk => ?_, fun b hb => ?_⟩
    · refine (hshow qx qy hq k hk).trans ?_
      dsimp only
      rw [v.put_pixel hl hp hq hk]
      by_cases hlater : (qx, qy) ∈ pixels
      · rw [if_pos hlater, if_pos (List.mem_cons_of_mem _ hlater)]
      · simp only [List.mem_cons, hlater, or_false, if_false]
    · exact (hkeep b hb).trans (v.put_of_not_visible hl hp hb)

end Screen

/-! ### Filling a rectangle -/

@[simp] theorem markDirty_mem (s : State) (x y w h : Int32) : (markDirty s x y w h).mem = s.mem := by
  rw [markDirty]
  split_ifs <;> rfl

@[simp] theorem markDirty_initialized (s : State) (x y w h : Int32) :
    (markDirty s x y w h).initialized = s.initialized := by
  rw [markDirty]
  split_ifs <;> rfl

/-- `gfx_draw_pixel` for several pixels. -/
def drawPixels (v : VideoInfo) (s : State) (pixels : List (Int32 × Int32)) (color : UInt32) : State :=
  pixels.foldl (fun s p => drawPixel v s p.1 p.2 color) s

/-- The pixels of a rectangle, as the loops of `gfx_fill_rect` count them. -/
def rectPixels (x1 y1 w h : Int32) : List (Int32 × Int32) :=
  (counts h).flatMap fun row => (counts w).map fun col => (x1 + Int32.ofNat col, y1 + Int32.ofNat row)

theorem fillPixels_eq (v : VideoInfo) (s : State) (x1 y1 w h : Int32) (color : UInt32) :
    fillPixels v s x1 y1 w h color = drawPixels v s (rectPixels x1 y1 w h) color := by
  rw [fillPixels, drawPixels, rectPixels, List.foldl_flatMap]
  congr 1
  funext s row
  rw [List.foldl_map]

theorem map_rectPixels (x1 y1 w h : Int32) (hx : x1.toInt + w.toInt < 2 ^ 31)
    (hy : y1.toInt + h.toInt < 2 ^ 31) :
    (rectPixels x1 y1 w h).map (fun p => (p.1.toInt, p.2.toInt)) =
      cells x1.toInt y1.toInt w.toInt.toNat h.toInt.toNat := by
  have hx1 := x1.le_toInt
  have hy1 := y1.le_toInt
  rw [rectPixels, cells, List.map_flatMap]
  refine List.flatMap_congr fun row hrow => ?_
  rw [List.map_map]
  refine List.map_congr_left fun col hcol => ?_
  have hrow' := toInt_ofNat_counter (List.mem_range.1 hrow)
  have hcol' := toInt_ofNat_counter (List.mem_range.1 hcol)
  have hrow'' := List.mem_range.1 hrow
  have hcol'' := List.mem_range.1 hcol
  refine Prod.ext ?_ ?_
  · change (x1 + Int32.ofNat col).toInt = _
    rw [toInt_add_of_fits (by omega) (by omega), hcol']
  · change (y1 + Int32.ofNat row).toInt = _
    rw [toInt_add_of_fits (by omega) (by omega), hrow']

namespace Screen

variable (v : Screen) {s : State} {x y w h : Int32} {color : UInt32}

theorem drawPixels_mem (color : UInt32) (hs : s.initialized = true) {pixels : List (Int32 × Int32)}
    (hpixels : ∀ p ∈ pixels, v.OnScreen p.1.toInt p.2.toInt) :
    (drawPixels v.toVideoInfo s pixels color).mem =
      plot v.toVideoInfo s.mem (pixels.map fun p => (p.1.toInt, p.2.toInt)) (v.shown color) := by
  induction pixels generalizing s with
  | nil => rfl
  | cons p pixels ih =>
    have hin : ¬ (s.initialized = false ∨ ¬ onScreen v.toVideoInfo p.1 p.2) := by
      rw [hs, not_or, not_not, v.onScreen_iff]
      exact ⟨Bool.noConfusion, hpixels p List.mem_cons_self⟩
    rw [drawPixels, List.foldl_cons, drawPixel, if_neg hin]
    refine (ih (by rw [markDirty_initialized]; exact hs)
      fun q hq => hpixels q (List.mem_cons_of_mem _ hq)).trans ?_
    rw [markDirty_mem]
    rfl

theorem fillWords_eq (hb : v.bitsPerPixel = 32) (m : ℤ → UInt8) (x1 y1 w h : Int32) (color : UInt32) :
    fillWords v.toVideoInfo m x1 y1 w h color =
      plot v.toVideoInfo m (cells x1.toInt y1.toInt w.toInt.toNat h.toInt.toNat) (v.shown color) := by
  have hfour : (v.bytesPerPixel.toNat : ℤ) = 4 := by
    rw [v.bytes, hb]
    rfl
  rw [fillWords, plot, cells, List.foldl_flatMap]
  refine congrFun (congrFun (congrArg List.foldl ?_) m) _
  funext m row
  rw [List.foldl_map]
  refine congrFun (congrFun (congrArg List.foldl ?_) m) _
  funext m col
  rw [VideoInfo.shown, if_pos hb]
  congr 1
  rw [VideoInfo.pixelAddr, VideoInfo.pixelAddr, hfour]
  ring

theorem toInt_clamp32 {a b : Int32} (hb : 0 ≤ b.toInt) :
    (clamp32 a 0 b).toInt = max 0 (min a.toInt b.toInt) := by
  have hzero : (0 : Int32).toInt = 0 := rfl
  rw [clamp32]
  split_ifs with hlo hhi
  · rw [Int32.lt_iff_toInt_lt, hzero] at hlo
    omega
  · rw [Int32.lt_iff_toInt_lt] at hhi
    omega
  · rw [Int32.lt_iff_toInt_lt, hzero] at hlo
    rw [Int32.lt_iff_toInt_lt] at hhi
    omega

theorem toInt_width : v.width.toInt32.toInt = v.width.toNat := toInt_toInt32 v.width_lt

theorem toInt_height : v.height.toInt32.toInt = v.height.toNat := toInt_toInt32 v.height_lt

theorem toInt_clampX (a : Int32) :
    (clamp32 a 0 v.width.toInt32).toInt = max 0 (min a.toInt v.width.toNat) := by
  rw [toInt_clamp32 (by rw [v.toInt_width]; omega), v.toInt_width]

theorem toInt_clampY (a : Int32) :
    (clamp32 a 0 v.height.toInt32).toInt = max 0 (min a.toInt v.height.toNat) := by
  rw [toInt_clamp32 (by rw [v.toInt_height]; omega), v.toInt_height]

theorem fillClipped_mem (hs : s.initialized = true) {x1 y1 w h : Int32} (hx1 : 0 ≤ x1.toInt)
    (hy1 : 0 ≤ y1.toInt) (hxw : x1.toInt + w.toInt ≤ v.width.toNat)
    (hyh : y1.toInt + h.toInt ≤ v.height.toNat) :
    (fillClipped v.toVideoInfo s x1 y1 w h color).mem =
      plot v.toVideoInfo s.mem (cells x1.toInt y1.toInt w.toInt.toNat h.toInt.toNat) (v.shown color) := by
  have hwidth := v.width_lt
  have hheight := v.height_lt
  rw [fillClipped]
  split_ifs with hb
  · rw [markDirty_mem]
    exact v.fillWords_eq hb s.mem x1 y1 w h color
  · have hmap := map_rectPixels x1 y1 w h (by omega) (by omega)
    rw [markDirty_mem, fillPixels_eq, ← hmap]
    refine v.drawPixels_mem color hs fun p hp => ?_
    have hcell : (p.1.toInt, p.2.toInt) ∈ cells x1.toInt y1.toInt w.toInt.toNat h.toInt.toNat := by
      rw [← hmap]
      exact List.mem_map.2 ⟨p, hp, rfl⟩
    rw [mem_cells] at hcell
    exact ⟨by omega, by omega, by omega, by omega⟩

end Screen

def InRect (x y w h : Int32) (px py : ℤ) : Prop :=
  (x.toInt ≤ px ∧ px < x.toInt + w.toInt) ∧ y.toInt ≤ py ∧ py < y.toInt + h.toInt

instance (x y w h : Int32) (px py : ℤ) : Decidable (InRect x y w h px py) :=
  inferInstanceAs (Decidable (_ ∧ _))

/-- Filling changes exactly the pixels of the rectangle that lie on the screen. -/
def FillLaw (v : VideoInfo) (x y w h : Int32) (color : UInt32) : Prop :=
  ∀ s : State, s.initialized = true →
    Shows v s.mem (fillRect v s x y w h color).mem fun px py k =>
      if InRect x y w h px py then (v.shown color).getD k 0 else s.mem (v.pixelAddr px py + k)

/-- No pixel of the rectangle lies on the screen, or its sides are 32-bit coordinates. -/
def FillWhen (v : VideoInfo) (x y w h : Int32) : Prop :=
  (∀ px py, v.OnScreen px py → ¬ InRect x y w h px py) ∨
    (x.toInt + w.toInt < 2 ^ 31 ∧ y.toInt + h.toInt < 2 ^ 31)

namespace Screen

variable (v : Screen) {s : State} {x y w h : Int32} {color : UInt32}

theorem shows_of_none {m : ℤ → UInt8} (hnone : ∀ px py, v.OnScreen px py → ¬ InRect x y w h px py)
    (c : ℕ → UInt8) : Shows v.toVideoInfo m m fun px py k =>
      if InRect x y w h px py then c k else m (v.pixelAddr px py + k) :=
  ⟨fun px py hp _ _ => (if_neg (hnone px py hp)).symm, fun _ _ => rfl⟩

/-- One axis of a rectangle that is clamped to the screen. -/
theorem clamped_axis {size : ℕ} {a b c d : Int32} (hsize : size < 2 ^ 31) (hc : c.toInt = max 0 (min a.toInt size))
    (hd : d.toInt = max 0 (min b.toInt size)) :
    (0 ≤ c.toInt ∧ c.toInt + (d - c).toInt ≤ size) ∧ (d - c).toInt = d.toInt - c.toInt ∧
      ∀ p : ℤ, 0 ≤ p → p < size → (c.toInt ≤ p ∧ p < d.toInt ↔ a.toInt ≤ p ∧ p < b.toInt) := by
  have hsub : (d - c).toInt = d.toInt - c.toInt := toInt_sub_of_fits (by omega) (by omega)
  refine ⟨?_, hsub, fun p h0 hp => ?_⟩
  · rw [hsub]
    omega
  · rw [hc, hd]
    omega

/-- **Filling is right** while the sides are 32-bit coordinates. -/
theorem fillRect_shows (hs : s.initialized = true) (hxw : x.toInt + w.toInt < 2 ^ 31)
    (hyh : y.toInt + h.toInt < 2 ^ 31) :
    Shows v.toVideoInfo s.mem (fillRect v.toVideoInfo s x y w h color).mem fun px py k =>
      if InRect x y w h px py then (v.shown color).getD k 0 else s.mem (v.pixelAddr px py + k) := by
  have hx := x.le_toInt
  have hy := y.le_toInt
  have hzero : (0 : Int32).toInt = 0 := rfl
  rw [fillRect]
  by_cases hempty : s.initialized = false ∨ w ≤ 0 ∨ h ≤ 0
  · rw [if_pos hempty]
    refine v.shows_of_none (fun px py _ hin => ?_) _
    rw [hs, Int32.le_iff_toInt_le, Int32.le_iff_toInt_le, hzero] at hempty
    have hwh : w.toInt ≤ 0 ∨ h.toInt ≤ 0 := hempty.resolve_left Bool.noConfusion
    rw [InRect] at hin
    omega
  · rw [if_neg hempty]
    rw [hs, Int32.le_iff_toInt_le, Int32.le_iff_toInt_le, hzero, not_or, not_or] at hempty
    obtain ⟨-, hw, hh⟩ := hempty
    obtain ⟨hbx, hw', hinx⟩ := clamped_axis v.width_lt (v.toInt_clampX x) (v.toInt_clampX (x + w))
    obtain ⟨hby, hh', hiny⟩ := clamped_axis v.height_lt (v.toInt_clampY y) (v.toInt_clampY (y + h))
    rw [toInt_add_of_fits (by omega) hxw] at hinx
    rw [toInt_add_of_fits (by omega) hyh] at hiny
    dsimp only
    generalize clamp32 x 0 v.width.toInt32 = x1 at *
    generalize clamp32 y 0 v.height.toInt32 = y1 at *
    generalize clamp32 (x + w) 0 v.width.toInt32 = x2 at *
    generalize clamp32 (y + h) 0 v.height.toInt32 = y2 at *
    have hrect : ∀ {px py}, v.OnScreen px py → (InRect x y w h px py ↔
        (x1.toInt ≤ px ∧ px < x2.toInt) ∧ y1.toInt ≤ py ∧ py < y2.toInt) := fun {px py} hp => by
      rw [InRect, hinx px hp.1 hp.2.1, hiny py hp.2.2.1 hp.2.2.2]
    clear hinx hiny hx hy hxw hyh hw hh
    by_cases hclip : x2 - x1 ≤ 0 ∨ y2 - y1 ≤ 0
    · rw [if_pos hclip]
      refine v.shows_of_none (fun px py hp hin => ?_) _
      rw [Int32.le_iff_toInt_le, Int32.le_iff_toInt_le, hzero, hw', hh'] at hclip
      obtain ⟨hpx, hpy⟩ := (hrect hp).1 hin
      omega
    · rw [if_neg hclip]
      rw [Int32.le_iff_toInt_le, Int32.le_iff_toInt_le, hzero, not_or, not_le, not_le] at hclip
      rw [v.fillClipped_mem hs hbx.1 hby.1 hbx.2 hby.2]
      have hcells : ∀ p ∈ cells x1.toInt y1.toInt (x2 - x1).toInt.toNat (y2 - y1).toInt.toNat,
          v.OnScreen p.1 p.2 := by
        intro p hp
        obtain ⟨hpx, hpy⟩ := mem_cells.1 hp
        rw [Int.toNat_of_nonneg hclip.1.le] at hpx
        rw [Int.toNat_of_nonneg hclip.2.le] at hpy
        exact ⟨hbx.1.trans hpx.1, hpx.2.trans_le hbx.2, hby.1.trans hpy.1, hpy.2.trans_le hby.2⟩
      obtain ⟨hshow, hkeep⟩ := v.plot_shows (m := s.mem) (v.length_shown color) hcells
      refine ⟨fun px py hp k hk => (hshow px py hp k hk).trans ?_, hkeep⟩
      refine if_congr ?_ rfl rfl
      rw [mem_cells, hrect hp, Int.toNat_of_nonneg hclip.1.le, Int.toNat_of_nonneg hclip.2.le, hw', hh',
        add_sub_cancel, add_sub_cancel]

theorem fillRect_of_over (hover : ¬ (x.toInt + w.toInt < 2 ^ 31 ∧ y.toInt + h.toInt < 2 ^ 31)) :
    fillRect v.toVideoInfo s x y w h color = s := by
  have hwidth := v.width_lt
  have hheight := v.height_lt
  have hbounds := And.intro x.toInt_lt (And.intro y.toInt_lt (And.intro w.toInt_lt h.toInt_lt))
  have hzero : (0 : Int32).toInt = 0 := rfl
  rw [fillRect]
  by_cases hempty : s.initialized = false ∨ w ≤ 0 ∨ h ≤ 0
  · rw [if_pos hempty]
  · rw [if_neg hempty]
    refine if_pos ?_
    have hx1 := v.toInt_clampX x
    have hy1 := v.toInt_clampY y
    have hx2 := v.toInt_clampX (x + w)
    have hy2 := v.toInt_clampY (y + h)
    rw [Int32.le_iff_toInt_le, Int32.le_iff_toInt_le, hzero]
    rcases not_and_or.1 hover with hx | hy
    · left
      rw [toInt_add_of_over (by omega)] at hx2
      rw [toInt_sub_of_fits (by omega) (by omega)]
      omega
    · right
      rw [toInt_add_of_over (by omega)] at hy2
      rw [toInt_sub_of_fits (by omega) (by omega)]
      omega

theorem fillLaw_iff (x y w h : Int32) (color : UInt32) :
    FillLaw v.toVideoInfo x y w h color ↔ FillWhen v.toVideoInfo x y w h := by
  constructor
  · intro hlaw
    by_contra hwhen
    rw [FillWhen, not_or] at hwhen
    obtain ⟨hsome, hover⟩ := hwhen
    push Not at hsome
    obtain ⟨px, py, hp, hin⟩ := hsome
    -- a memory that shows the colour nowhere
    let m : ℤ → UInt8 := fun _ => (v.shown color).getD 0 0 + 1
    have hpos : 0 < v.bytesPerPixel.toNat := by
      have := v.bytes_cases
      omega
    have hshow := (hlaw ⟨true, m, ⟨0, 0, 0, 0⟩, false⟩ rfl).1 px py hp 0 hpos
    rw [v.fillRect_of_over hover] at hshow
    dsimp only at hshow
    rw [if_pos hin] at hshow
    have hne : ∀ b : UInt8, b + 1 ≠ b := by
      intro b
      rw [Ne, ← UInt8.toNat_inj, UInt8.toNat_add]
      have := b.toNat_lt
      change ¬ (b.toNat + 1) % 256 = b.toNat
      omega
    exact hne _ hshow
  · rintro (hnone | ⟨hxw, hyh⟩) s hs
    · by_cases hfits : x.toInt + w.toInt < 2 ^ 31 ∧ y.toInt + h.toInt < 2 ^ 31
      · exact v.fillRect_shows hs hfits.1 hfits.2
      · rw [v.fillRect_of_over hfits]
        exact v.shows_of_none hnone _
    · exact v.fillRect_shows hs hxw hyh

end Screen

end Tnu.Gfx
