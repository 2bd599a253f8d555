/-
**Copying a region of the screen.**

`gfx_copy_region` moves a rectangle row by row, from the last row on when the source lies above the
destination.  In that order no row is read after it was written over, so a region that lies on the
screen is copied as it was, also over itself.  Nothing is clipped: a row that ends behind the right
edge goes on in the next line, and rows below the screen are moved as well.  The first and the last
byte that are moved over show that the law holds of no other region than these, except where every
row is moved onto itself.

Addresses are integers, counted from the address of the framebuffer.  A framebuffer of at most
256 MiB is so much shorter than 2^64 that an address inside it is inside it in 64-bit arithmetic too.

Main result:

* `Screen.copyLaw_iff` — **exactly when a region is copied as it should**.
-/

import Tnu.Drivers.Gfx

set_option autoImplicit false

namespace Tnu.Gfx

/-! ### The law -/

/-- What `memmove` reads and writes lies in the framebuffer; a row that is moved onto itself is
neither read nor written. -/
def Inside (v : VideoInfo) (n : ℕ) (rows : List (ℤ × ℤ)) : Prop :=
  ∀ p ∈ rows, 0 < n → p.1 ≠ p.2 →
    (0 ≤ p.1 ∧ p.1 + n ≤ v.pitch.toNat * v.height.toNat) ∧
      0 ≤ p.2 ∧ p.2 + n ≤ v.pitch.toNat * v.height.toNat

def rowLength (v : VideoInfo) (w : Int32) : ℕ := w.toInt.toNat * v.bytesPerPixel.toNat

section Law

variable (v : VideoInfo) (srcX srcY dstX dstY w h : Int32)

/-- The picture after a copy: a pixel of the destination is the one at its source, when both are on
the screen. -/
def copied (m : ℤ → UInt8) (px py : ℤ) (k : ℕ) : UInt8 :=
  if InRect dstX dstY w h px py then
    if 0 ≤ px - dstX.toInt + srcX.toInt ∧ px - dstX.toInt + srcX.toInt < v.width.toNat ∧
        0 ≤ py - dstY.toInt + srcY.toInt ∧ py - dstY.toInt + srcY.toInt < v.height.toNat then
      m (v.pixelAddr (px - dstX.toInt + srcX.toInt) (py - dstY.toInt + srcY.toInt) + k)
    else m (v.pixelAddr px py + k)
  else m (v.pixelAddr px py + k)

/-- Copying copies the pixels whose source and destination are on the screen, as they were, and
accesses nothing outside the framebuffer. -/
def CopyLaw : Prop :=
  ∀ s : State, s.initialized = true →
    Shows v s.mem (copyRegion v s srcX srcY dstX dstY w h).mem
        (copied v srcX srcY dstX dstY w h s.mem) ∧
      Inside v (rowLength v w) (copyRows v srcX srcY dstX dstY h)

def OnScreenRect (x y w h : Int32) : Prop :=
  (0 ≤ x.toInt ∧ x.toInt + w.toInt ≤ v.width.toNat) ∧
    0 ≤ y.toInt ∧ y.toInt + h.toInt ≤ v.height.toNat

/-- Nothing is copied, or each row onto itself, or both rectangles lie on the screen. -/
def CopyWhen : Prop :=
  (w.toInt ≤ 0 ∨ h.toInt ≤ 0) ∨ (∀ p ∈ copyRows v srcX srcY dstX dstY h, p.1 = p.2) ∨
    OnScreenRect v srcX srcY w h ∧ OnScreenRect v dstX dstY w h

end Law

variable {srcX srcY dstX dstY w h : Int32} {s : State}

theorem mem_copyRows {v : VideoInfo} {p : ℤ × ℤ} :
    p ∈ copyRows v srcX srcY dstX dstY h ↔
      ∃ y < h.toInt.toNat, p = (v.pixelAddr dstX.toInt (dstY + Int32.ofNat y).toInt,
        v.pixelAddr srcX.toInt (srcY + Int32.ofNat y).toInt) := by
  have hcounts : ∀ y, y ∈ (if srcY < dstY ∨ srcY = dstY ∧ srcX < dstX then (counts h).reverse
      else counts h) ↔ y < h.toInt.toNat := by
    intro y
    split_ifs
    · rw [List.mem_reverse, counts, List.mem_range]
    · rw [counts, List.mem_range]
  rw [copyRows, List.mem_map]
  constructor
  · rintro ⟨y, hy, rfl⟩
    exact ⟨y, (hcounts y).1 hy, rfl⟩
  · rintro ⟨y, hy, rfl⟩
    exact ⟨y, (hcounts y).2 hy, rfl⟩

theorem toInt_row {a : Int32} {y : ℕ} (hy : y < h.toInt.toNat) (hfit : a.toInt + y < 2 ^ 31) :
    (a + Int32.ofNat y).toInt = a.toInt + y := by
  have ha := a.le_toInt
  have hy' := toInt_ofNat_counter hy
  rw [toInt_add_of_fits (by omega) (by omega), hy']

theorem toInt_row_over {a : Int32} {y : ℕ} (hy : y < h.toInt.toNat) (hover : 2 ^ 31 ≤ a.toInt + y) :
    (a + Int32.ofNat y).toInt = a.toInt + y - 2 ^ 32 := by
  have hy' := toInt_ofNat_counter hy
  rw [toInt_add_of_over (by omega), hy']

namespace Screen

variable (v : Screen)

/-! ### Nothing moves -/

theorem copyRegion_of_empty (hempty : w.toInt ≤ 0 ∨ h.toInt ≤ 0) :
    copyRegion v.toVideoInfo s srcX srcY dstX dstY w h = s := by
  have hzero : (0 : Int32).toInt = 0 := rfl
  refine if_pos (Or.inr ?_)
  rw [Int32.le_iff_toInt_le, Int32.le_iff_toInt_le, hzero]
  exact hempty

theorem copyRegion_mem (srcX srcY dstX dstY : Int32) (hs : s.initialized = true) (hw : 0 < w.toInt) (hh : 0 < h.toInt) :
    (copyRegion v.toVideoInfo s srcX srcY dstX dstY w h).mem =
      Moves.moveAll s.mem (rowLength v.toVideoInfo w)
        (copyRows v.toVideoInfo srcX srcY dstX dstY h) := by
  have hzero : (0 : Int32).toInt = 0 := rfl
  have hgo : ¬ (s.initialized = false ∨ w ≤ 0 ∨ h ≤ 0) := by
    rw [hs, Int32.le_iff_toInt_le, Int32.le_iff_toInt_le, hzero, not_or, not_or]
    exact ⟨Bool.noConfusion, by omega, by omega⟩
  rw [copyRegion, if_neg hgo, markDirty_mem]
  rfl

theorem shows_of_still (hstill : ∀ p ∈ copyRows v.toVideoInfo srcX srcY dstX dstY h, p.1 = p.2)
    (m : ℤ → UInt8) :
    Shows v.toVideoInfo m m (copied v.toVideoInfo srcX srcY dstX dstY w h m) := by
  refine ⟨fun px py hp k hk => ?_, fun _ _ => rfl⟩
  rw [copied]
  split_ifs with hin hsrc
  · rw [InRect] at hin
    have hheight := v.height_lt
    have hy : (py - dstY.toInt).toNat < h.toInt.toNat := by omega
    have hrow := hstill _ (mem_copyRows.2 ⟨_, hy, rfl⟩)
    dsimp only at hrow
    have hpy := hp.2.2.2
    rw [toInt_row hy (by omega), toInt_row hy (by omega)] at hrow
    congr 1
    rw [VideoInfo.pixelAddr, VideoInfo.pixelAddr] at hrow ⊢
    have hdst : dstY.toInt + ((py - dstY.toInt).toNat : ℤ) = py := by omega
    have hsrcY : srcY.toInt + ((py - dstY.toInt).toNat : ℤ) = py - dstY.toInt + srcY.toInt := by omega
    rw [hdst, hsrcY] at hrow
    linear_combination hrow
  · rfl
  · rfl

theorem inside_of_still {n : ℕ} {rows : List (ℤ × ℤ)} (hstill : ∀ p ∈ rows, p.1 = p.2) :
    Inside v.toVideoInfo n rows := fun p hp _ hne => absurd (hstill p hp) hne

/-! ### Regions on the screen -/

theorem rowLength_eq (hw : 0 < w.toInt) :
    (rowLength v.toVideoInfo w : ℤ) = w.toInt * v.bytesPerPixel.toNat := by
  rw [rowLength]
  push_cast
  rw [Int.toNat_of_nonneg hw.le]

theorem row_le {x w : ℤ} (hw : x + w ≤ v.width.toNat) :
    x * v.bytesPerPixel.toNat + w * v.bytesPerPixel.toNat ≤ v.pitch.toNat := by
  have hfits : (v.width.toNat : ℤ) * v.bytesPerPixel.toNat ≤ v.pitch.toNat := mod_cast v.fits
  have hmul : (x + w) * v.bytesPerPixel.toNat ≤ v.width.toNat * v.bytesPerPixel.toNat :=
    mul_le_mul_of_nonneg_right hw (Int.natCast_nonneg _)
  rw [add_mul] at hmul
  omega

/-- **Rows are read before they are written over**, in the order that is chosen. -/
theorem rows_apart (hsrc : OnScreenRect v.toVideoInfo srcX srcY w h)
    (hdst : OnScreenRect v.toVideoInfo dstX dstY w h) (hw : 0 < w.toInt) :
    (copyRows v.toVideoInfo srcX srcY dstX dstY h).Pairwise fun p q =>
      p.1 + (rowLength v.toVideoInfo w : ℤ) ≤ q.2 ∨ q.2 + (rowLength v.toVideoInfo w : ℤ) ≤ p.1 := by
  have hheight := v.height_lt
  have hlen := v.rowLength_eq hw
  have hpitch : (0 : ℤ) ≤ v.pitch.toNat := Int.natCast_nonneg _
  have hbelow : ∀ {x y x' y' : ℤ}, 0 ≤ x' → x + w.toInt ≤ v.width.toNat → y + 1 ≤ y' →
      v.pixelAddr x y + rowLength v.toVideoInfo w ≤ v.pixelAddr x' y' := by
    intro x y x' y' hx' hxw hy
    have hrow := v.row_le hxw
    have hstep : (y + 1) * (v.pitch.toNat : ℤ) ≤ y' * v.pitch.toNat :=
      mul_le_mul_of_nonneg_right hy hpitch
    have hnonneg : 0 ≤ x' * (v.bytesPerPixel.toNat : ℤ) := mul_nonneg hx' (Int.natCast_nonneg _)
    rw [add_mul, one_mul] at hstep
    rw [hlen, VideoInfo.pixelAddr, VideoInfo.pixelAddr]
    omega
  obtain ⟨⟨hsx, hsxw⟩, hsy, hsyh⟩ := hsrc
  obtain ⟨⟨hdx, hdxw⟩, hdy, hdyh⟩ := hdst
  rw [copyRows, List.pairwise_map]
  split_ifs with hback
  · have hle : srcY.toInt ≤ dstY.toInt := by
      rcases hback with hlt | ⟨heq, -⟩
      · exact (Int32.lt_iff_toInt_lt.1 hlt).le
      · rw [heq]
    rw [List.pairwise_reverse, counts]
    refine List.Pairwise.imp_of_mem (fun {y' y} hy' hy hlt => Or.inr ?_) List.pairwise_lt_range
    have hy'' := List.mem_range.1 hy'
    have hyy := List.mem_range.1 hy
    dsimp only
    rw [toInt_row hy'' (by omega), toInt_row hyy (by omega)]
    exact hbelow hdx hsxw (by omega)
  · have hle : dstY.toInt ≤ srcY.toInt := by
      by_contra hcon
      exact hback (Or.inl (Int32.lt_iff_toInt_lt.2 (by omega)))
    rw [counts]
    refine List.Pairwise.imp_of_mem (fun {y y'} hy hy' hlt => Or.inl ?_) List.pairwise_lt_range
    have hyy := List.mem_range.1 hy
    have hy'' := List.mem_range.1 hy'
    dsimp only
    rw [toInt_row hyy (by omega), toInt_row hy'' (by omega)]
    exact hbelow hsx hdxw (by omega)

theorem reaches_iff (hdst : OnScreenRect v.toVideoInfo dstX dstY w h) (hw : 0 < w.toInt)
    {px py : ℤ} {k : ℕ} (hp : v.OnScreen px py) (hk : k < v.bytesPerPixel.toNat) :
    Moves.Reaches (rowLength v.toVideoInfo w) (copyRows v.toVideoInfo srcX srcY dstX dstY h)
        (v.pixelAddr px py + k) ↔ InRect dstX dstY w h px py := by
  have hheight := v.height_lt
  have hbytes := v.bytes_cases
  obtain ⟨⟨hdx, hdxw⟩, hdy, hdyh⟩ := hdst
  have hrow := v.row_le hdxw
  have hoffset := v.offset_bounds hp hk
  have hlen := v.rowLength_eq hw
  have hx0 : 0 ≤ dstX.toInt * (v.bytesPerPixel.toNat : ℤ) := mul_nonneg hdx (Int.natCast_nonneg _)
  constructor
  · rintro ⟨p, hmem, hlo, hhi⟩
    obtain ⟨y, hy, rfl⟩ := mem_copyRows.1 hmem
    dsimp only at hlo hhi
    rw [toInt_row hy (by omega), VideoInfo.pixelAddr, VideoInfo.pixelAddr] at hlo hhi
    rw [hlen] at hhi
    have hsame : py = dstY.toInt + y ∧ px * v.bytesPerPixel.toNat + k =
        (py * v.pitch.toNat + px * v.bytesPerPixel.toNat + k) - (dstY.toInt + y) * v.pitch.toNat := by
      refine digits_inj hoffset ⟨by omega, by omega⟩ (by ring)
    obtain ⟨hpy, hpx⟩ := hsame
    rw [← hpy] at hlo hhi
    rw [InRect]
    rcases hbytes with hb | hb | hb
    · rw [hb] at hlo hhi hk
      omega
    · rw [hb] at hlo hhi hk
      omega
    · rw [hb] at hlo hhi hk
      omega
  · rintro ⟨⟨hx, hx'⟩, hy, hy'⟩
    have hcount : (py - dstY.toInt).toNat < h.toInt.toNat := by omega
    refine ⟨_, mem_copyRows.2 ⟨_, hcount, rfl⟩, ?_⟩
    have hat : dstY.toInt + ((py - dstY.toInt).toNat : ℤ) = py := by omega
    dsimp only
    rw [toInt_row hcount (by omega), hat, hlen, VideoInfo.pixelAddr, VideoInfo.pixelAddr]
    rcases hbytes with hb | hb | hb
    · rw [hb] at hk ⊢
      omega
    · rw [hb] at hk ⊢
      omega
    · rw [hb] at hk ⊢
      omega

theorem visible_of_reaches (hdst : OnScreenRect v.toVideoInfo dstX dstY w h) (hw : 0 < w.toInt) {b : ℤ}
    (hb : Moves.Reaches (rowLength v.toVideoInfo w) (copyRows v.toVideoInfo srcX srcY dstX dstY h) b) :
    v.Visible b := by
  have hheight := v.height_lt
  have hbytes := v.bytes_cases
  obtain ⟨⟨hdx, hdxw⟩, hdy, hdyh⟩ := hdst
  obtain ⟨p, hmem, hlo, hhi⟩ := hb
  obtain ⟨y, hy, rfl⟩ := mem_copyRows.1 hmem
  have hlen := v.rowLength_eq hw
  dsimp only at hlo hhi
  rw [toInt_row hy (by omega)] at hlo hhi
  rw [hlen] at hhi
  obtain ⟨r, hr⟩ := Int.eq_ofNat_of_zero_le (sub_nonneg.2 hlo)
  have hlt : (r : ℤ) < w.toInt * v.bytesPerPixel.toNat := by omega
  have hpos : 0 < v.bytesPerPixel.toNat := by omega
  have hquot0 := Int.natCast_nonneg (r / v.bytesPerPixel.toNat)
  refine ⟨dstX.toInt + (r / v.bytesPerPixel.toNat : ℕ), dstY.toInt + y, r % v.bytesPerPixel.toNat,
    Nat.mod_lt _ hpos, ⟨by omega, ?_, by omega, by omega⟩, ?_⟩
  · have hquot : ((r / v.bytesPerPixel.toNat : ℕ) : ℤ) < w.toInt := by
      rcases hbytes with hb | hb | hb
      · rw [hb] at hlt ⊢
        omega
      · rw [hb] at hlt ⊢
        omega
      · rw [hb] at hlt ⊢
        omega
    omega
  · have hdiv : (r : ℤ) = (v.bytesPerPixel.toNat : ℤ) * (r / v.bytesPerPixel.toNat : ℕ) +
        (r % v.bytesPerPixel.toNat : ℕ) := mod_cast (Nat.div_add_mod r _).symm
    have hb' : b = v.pixelAddr dstX.toInt (dstY.toInt + y) + r := by omega
    rw [hb', hdiv, VideoInfo.pixelAddr, VideoInfo.pixelAddr]
    push_cast
    ring

/-- **A region on the screen is copied as it was**, also over itself. -/
theorem copyRegion_shows (hs : s.initialized = true) (hw : 0 < w.toInt) (hh : 0 < h.toInt)
    (hsrc : OnScreenRect v.toVideoInfo srcX srcY w h) (hdst : OnScreenRect v.toVideoInfo dstX dstY w h) :
    Shows v.toVideoInfo s.mem (copyRegion v.toVideoInfo s srcX srcY dstX dstY w h).mem
      (copied v.toVideoInfo srcX srcY dstX dstY w h s.mem) := by
  have hheight := v.height_lt
  have hapart := v.rows_apart hsrc hdst hw
  have hway : ∀ p ∈ copyRows v.toVideoInfo srcX srcY dstX dstY h, p.1 = p.2 +
      (v.pixelAddr dstX.toInt dstY.toInt - v.pixelAddr srcX.toInt srcY.toInt) := by
    intro p hp
    obtain ⟨y, hy, rfl⟩ := mem_copyRows.1 hp
    have hsyh := hsrc.2.2
    have hdyh := hdst.2.2
    dsimp only
    rw [toInt_row hy (by omega), toInt_row hy (by omega)]
    simp only [VideoInfo.pixelAddr]
    ring
  rw [v.copyRegion_mem srcX srcY dstX dstY hs hw hh]
  refine ⟨fun px py hp k hk => ?_, fun b hb => ?_⟩
  · obtain ⟨hmoved, hkept⟩ := Moves.moveAll_of_apart (m := s.mem) (b := v.pixelAddr px py + k)
      hway hapart
    rw [copied]
    split_ifs with hin hon
    · rw [hmoved ((v.reaches_iff hdst hw hp hk).2 hin)]
      congr 1
      simp only [VideoInfo.pixelAddr]
      ring
    · -- the source of a pixel of the destination is on the screen too
      exfalso
      obtain ⟨⟨hsx, hsxw⟩, hsy, hsyh⟩ := hsrc
      rw [InRect] at hin
      exact hon ⟨by omega, by omega, by omega, by omega⟩
    · exact hkept fun hreach => hin ((v.reaches_iff hdst hw hp hk).1 hreach)
  · exact (Moves.moveAll_of_apart hway hapart).2 fun hreach => hb (v.visible_of_reaches hdst hw hreach)

theorem addr_inside (hw : 0 < w.toInt) {x y : Int32} (hrect : OnScreenRect v.toVideoInfo x y w h) {yy : ℕ}
    (hyy : yy < h.toInt.toNat) :
    0 ≤ v.pixelAddr x.toInt (y + Int32.ofNat yy).toInt ∧
      v.pixelAddr x.toInt (y + Int32.ofNat yy).toInt + rowLength v.toVideoInfo w ≤
        v.pitch.toNat * v.height.toNat := by
  have hheight := v.height_lt
  obtain ⟨⟨hx, hxw⟩, hy, hyh⟩ := hrect
  have hrow := v.row_le hxw
  have hlen := v.rowLength_eq hw
  have hx0 : 0 ≤ x.toInt * (v.bytesPerPixel.toNat : ℤ) := mul_nonneg hx (Int.natCast_nonneg _)
  have hy0 : 0 ≤ (y.toInt + yy) * (v.pitch.toNat : ℤ) := mul_nonneg (by omega) (Int.natCast_nonneg _)
  have hstep : (y.toInt + yy + 1) * (v.pitch.toNat : ℤ) ≤ v.height.toNat * v.pitch.toNat :=
    mul_le_mul_of_nonneg_right (by omega) (Int.natCast_nonneg _)
  rw [add_mul, one_mul, mul_comm (v.height.toNat : ℤ)] at hstep
  rw [toInt_row hyy (by omega), VideoInfo.pixelAddr, hlen]
  omega

theorem inside_of_onScreen (hw : 0 < w.toInt) (hsrc : OnScreenRect v.toVideoInfo srcX srcY w h)
    (hdst : OnScreenRect v.toVideoInfo dstX dstY w h) :
    Inside v.toVideoInfo (rowLength v.toVideoInfo w) (copyRows v.toVideoInfo srcX srcY dstX dstY h) := by
  intro p hp _ _
  obtain ⟨y, hy, rfl⟩ := mem_copyRows.1 hp
  exact ⟨v.addr_inside hw hdst hy, v.addr_inside hw hsrc hy⟩

/-! ### Regions that leave the screen -/

theorem row_step {a : Int32} {y : ℕ} (hy : y + 1 < h.toInt.toNat) :
    (a + Int32.ofNat (y + 1)).toInt = (a + Int32.ofNat y).toInt + 1 ∧ a.toInt + (y + 1) ≠ 2 ^ 31 ∨
      (a + Int32.ofNat (y + 1)).toInt = (a + Int32.ofNat y).toInt + 1 - 2 ^ 32 ∧
        a.toInt + (y + 1) = 2 ^ 31 := by
  rcases lt_trichotomy (a.toInt + (y + 1)) (2 ^ 31) with hlt | heq | hgt
  · left
    rw [toInt_row hy (by push_cast; omega), toInt_row (h := h) (by omega) (by omega)]
    exact ⟨by push_cast; ring, by omega⟩
  · right
    rw [toInt_row_over hy (by push_cast; omega), toInt_row (h := h) (by omega) (by omega)]
    exact ⟨by push_cast; ring, heq⟩
  · left
    rw [toInt_row_over hy (by push_cast; omega), toInt_row_over (h := h) (by omega) (by omega)]
    exact ⟨by push_cast; ring, by omega⟩

/-- **No row counter wraps** when every row that is moved lies in the framebuffer and some row is:
the rows on the two sides of a wrap are further apart than the framebuffer is long. -/
theorem fits_of_inside {ax ay cx cy : Int32}
    (hin : ∀ y < h.toInt.toNat,
      v.pixelAddr ax.toInt (ay + Int32.ofNat y).toInt ≠ v.pixelAddr cx.toInt (cy + Int32.ofNat y).toInt →
        (0 ≤ v.pixelAddr ax.toInt (ay + Int32.ofNat y).toInt ∧
            v.pixelAddr ax.toInt (ay + Int32.ofNat y).toInt ≤ v.pitch.toNat * v.height.toNat) ∧
          0 ≤ v.pixelAddr cx.toInt (cy + Int32.ofNat y).toInt ∧
            v.pixelAddr cx.toInt (cy + Int32.ofNat y).toInt ≤ v.pitch.toNat * v.height.toNat)
    (hsome : ∃ y < h.toInt.toNat, v.pixelAddr ax.toInt (ay + Int32.ofNat y).toInt ≠
      v.pixelAddr cx.toInt (cy + Int32.ofNat y).toInt) : ay.toInt + h.toInt ≤ 2 ^ 31 := by
  by_contra hwrap
  have hlt := ay.toInt_lt
  have hhlt := h.toInt_lt
  have hpitch : (0 : ℤ) < v.pitch.toNat := mod_cast Nat.pos_of_mul_pos_right v.mapped.1
  have hsize : (v.pitch.toNat : ℤ) * v.height.toNat ≤ 256 * 1024 * 1024 := mod_cast v.mapped.2
  -- the rows before and behind the wrap
  obtain ⟨y, hy⟩ := Int.eq_ofNat_of_zero_le (show 0 ≤ 2 ^ 31 - 1 - ay.toInt by omega)
  have hnext : y + 1 < h.toInt.toNat := by omega
  have hbefore := hin y (by omega)
  have hbehind := hin (y + 1) hnext
  have hstepA : (ay + Int32.ofNat (y + 1)).toInt = (ay + Int32.ofNat y).toInt + 1 - 2 ^ 32 := by
    rcases row_step (a := ay) hnext with ⟨-, hne⟩ | ⟨hstep, -⟩
    · exact absurd (by omega) hne
    · exact hstep
  rcases row_step (a := cy) hnext with ⟨hstepC, -⟩ | ⟨hstepC, heq⟩
  · -- only one side wraps: one of the two rows is moved across 2^32 lines
    rw [hstepA, hstepC] at hbehind
    simp only [VideoInfo.pixelAddr] at hbefore hbehind
    generalize (ay + Int32.ofNat y).toInt = a at *
    generalize (cy + Int32.ofNat y).toInt = c at *
    have hexpA : (a + 1 - 2 ^ 32) * (v.pitch.toNat : ℤ) =
        a * v.pitch.toNat + v.pitch.toNat - 2 ^ 32 * v.pitch.toNat := by ring
    have hexpC : (c + 1) * (v.pitch.toNat : ℤ) = c * v.pitch.toNat + v.pitch.toNat := by ring
    rw [hexpA, hexpC] at hbehind
    omega
  · -- both sides wrap at the same row, so all rows are moved or none is
    have hsame : ay = cy := Int32.toInt_inj.1 (by omega)
    subst hsame
    obtain ⟨z, hz, hne⟩ := hsome
    rw [hstepA] at hbehind
    simp only [VideoInfo.pixelAddr] at hne hbefore hbehind
    generalize (ay + Int32.ofNat y).toInt = a at *
    have hexpA : (a + 1 - 2 ^ 32) * (v.pitch.toNat : ℤ) =
        a * v.pitch.toNat + v.pitch.toNat - 2 ^ 32 * v.pitch.toNat := by ring
    rw [hexpA] at hbehind
    omega

theorem pixel_of_reaches (hlaw : CopyLaw v.toVideoInfo srcX srcY dstX dstY w h) (hw : 0 < w.toInt)
    (hh : 0 < h.toInt) {way b : ℤ} (hne : way ≠ 0)
    (hway : ∀ p ∈ copyRows v.toVideoInfo srcX srcY dstX dstY h, p.1 = p.2 + way)
    (hb : Moves.Reaches (rowLength v.toVideoInfo w) (copyRows v.toVideoInfo srcX srcY dstX dstY h) b) :
    ∃ px py : ℤ, ∃ k < v.bytesPerPixel.toNat, b = v.pixelAddr px py + k ∧ v.OnScreen px py ∧
      InRect dstX dstY w h px py ∧
        v.OnScreen (px - dstX.toInt + srcX.toInt) (py - dstY.toInt + srcY.toInt) := by
  -- a memory that holds one value at this byte and another everywhere else
  let m : ℤ → UInt8 := fun i => if i = b then 0 else 1
  have hmb : m b = 0 := if_pos rfl
  have hspread : ∀ a, m a ≠ 1 → ∃ k : ℕ, a = b + k * way := by
    intro a ha
    refine ⟨0, ?_⟩
    by_contra hcon
    exact ha (if_neg (by simpa using hcon))
  have hmoved := Moves.moveAll_moved hway hne hspread (Or.inl hb)
  obtain ⟨⟨hshow, hkeep⟩, -⟩ := hlaw ⟨true, m, ⟨0, 0, 0, 0⟩, false⟩ rfl
  have hmem := v.copyRegion_mem (s := ⟨true, m, ⟨0, 0, 0, 0⟩, false⟩) srcX srcY dstX dstY rfl hw hh
  rw [hmem] at hshow hkeep
  by_cases hvis : v.Visible b
  · obtain ⟨px, py, k, hk, hp, hat⟩ := hvis
    have hpix := hshow px py hp k hk
    rw [← hat, hmoved, copied] at hpix
    split_ifs at hpix with hrect hsrc
    · exact ⟨px, py, k, hk, hat, hp, hrect, hsrc⟩
    · rw [← hat] at hpix
      exact absurd (hpix.trans hmb) (by decide)
    · rw [← hat] at hpix
      exact absurd (hpix.trans hmb) (by decide)
  · have hsame := hkeep b hvis
    rw [hmoved] at hsame
    exact absurd (hsame.trans hmb) (by decide)

/-- **A region that the law allows to move lies on the screen**: its first and its last byte do. -/
theorem onScreen_of_law (hlaw : CopyLaw v.toVideoInfo srcX srcY dstX dstY w h) (hw : 0 < w.toInt)
    (hh : 0 < h.toInt)
    (hsome : ¬ ∀ p ∈ copyRows v.toVideoInfo srcX srcY dstX dstY h, p.1 = p.2) :
    OnScreenRect v.toVideoInfo srcX srcY w h ∧ OnScreenRect v.toVideoInfo dstX dstY w h := by
  have hbytes := v.bytes_cases
  have hpitch : (0 : ℤ) < v.pitch.toNat := mod_cast Nat.pos_of_mul_pos_right v.mapped.1
  have hlen := v.rowLength_eq hw
  have hpos : 0 < rowLength v.toVideoInfo w := by
    rw [rowLength]
    exact Nat.mul_pos (by omega) (by omega)
  have hin := (hlaw ⟨true, fun _ => 0, ⟨0, 0, 0, 0⟩, false⟩ rfl).2
  have hmoves : ∃ y < h.toInt.toNat, v.pixelAddr dstX.toInt (dstY + Int32.ofNat y).toInt ≠
      v.pixelAddr srcX.toInt (srcY + Int32.ofNat y).toInt := by
    push Not at hsome
    obtain ⟨p, hp, hne⟩ := hsome
    obtain ⟨y, hy, rfl⟩ := mem_copyRows.1 hp
    exact ⟨y, hy, hne⟩
  have hdfit : dstY.toInt + h.toInt ≤ 2 ^ 31 := by
    refine v.fits_of_inside (fun y hy hne => ?_) hmoves
    obtain ⟨hd, hs⟩ := hin _ (mem_copyRows.2 ⟨y, hy, rfl⟩) hpos hne
    dsimp only at hd hs
    omega
  have hsfit : srcY.toInt + h.toInt ≤ 2 ^ 31 := by
    refine v.fits_of_inside (fun y hy hne => ?_) (hmoves.imp fun y hy => ⟨hy.1, hy.2.symm⟩)
    obtain ⟨hd, hs⟩ := hin _ (mem_copyRows.2 ⟨y, hy, rfl⟩) hpos hne.symm
    dsimp only at hd hs
    omega
  have hway : ∀ p ∈ copyRows v.toVideoInfo srcX srcY dstX dstY h, p.1 = p.2 +
      (v.pixelAddr dstX.toInt dstY.toInt - v.pixelAddr srcX.toInt srcY.toInt) := by
    intro p hp
    obtain ⟨y, hy, rfl⟩ := mem_copyRows.1 hp
    dsimp only
    rw [toInt_row hy (by omega), toInt_row hy (by omega)]
    simp only [VideoInfo.pixelAddr]
    ring
  have hne : v.pixelAddr dstX.toInt dstY.toInt - v.pixelAddr srcX.toInt srcY.toInt ≠ 0 := by
    intro h0
    refine hsome fun p hp => ?_
    rw [hway p hp, h0, add_zero]
  have hlast : h.toInt.toNat - 1 < h.toInt.toNat := by omega
  have hrowLast : (dstY + Int32.ofNat (h.toInt.toNat - 1)).toInt = dstY.toInt + (h.toInt - 1) := by
    rw [toInt_row hlast (by omega)]
    omega
  have hrowFirst : (dstY + Int32.ofNat 0).toInt = dstY.toInt := by
    rw [toInt_row (h := h) (by omega) (by omega)]
    omega
  -- the first byte
  obtain ⟨fx, fy, i, hi, hfirst, hf, hfin, hfsrc⟩ := v.pixel_of_reaches hlaw hw hh hne hway
    (b := v.pixelAddr dstX.toInt dstY.toInt)
    ⟨_, mem_copyRows.2 ⟨0, by omega, rfl⟩, by rw [hrowFirst], by rw [hrowFirst]; omega⟩
  -- the last byte
  obtain ⟨lx, ly, j, hj, hlastb, hl, hlin, hlsrc⟩ := v.pixel_of_reaches hlaw hw hh hne hway
    (b := v.pixelAddr dstX.toInt (dstY.toInt + (h.toInt - 1)) + rowLength v.toVideoInfo w - 1)
    ⟨_, mem_copyRows.2 ⟨_, hlast, rfl⟩, by rw [hrowLast]; omega, by rw [hrowLast]; omega⟩
  rw [InRect] at hfin hlin
  rw [VideoInfo.pixelAddr, VideoInfo.pixelAddr] at hfirst
  rw [VideoInfo.pixelAddr, VideoInfo.pixelAddr, hlen] at hlastb
  have hfy : fy = dstY.toInt := by
    have hrow : (fy - dstY.toInt) * (v.pitch.toNat : ℤ) ≤ 0 := by
      have hcol : 0 ≤ (fx - dstX.toInt) * (v.bytesPerPixel.toNat : ℤ) :=
        mul_nonneg (by omega) (Int.natCast_nonneg _)
      rw [sub_mul] at hcol ⊢
      omega
    have := nonpos_of_mul_nonpos_left hrow hpitch
    omega
  have hly : ly = dstY.toInt + (h.toInt - 1) := by
    have hrow : (dstY.toInt + (h.toInt - 1) - ly) * (v.pitch.toNat : ℤ) ≤ 0 := by
      have hcol : (lx - dstX.toInt + 1) * (v.bytesPerPixel.toNat : ℤ) ≤
          w.toInt * v.bytesPerPixel.toNat :=
        mul_le_mul_of_nonneg_right (by omega) (Int.natCast_nonneg _)
      rw [sub_mul]
      rw [add_mul, sub_mul, one_mul] at hcol
      omega
    have := nonpos_of_mul_nonpos_left hrow hpitch
    omega
  subst hfy hly
  have hcorner : fx = dstX.toInt ∧ lx = dstX.toInt + (w.toInt - 1) := by
    rcases hbytes with hb | hb | hb
    · rw [hb] at hfirst hlastb hi hj
      omega
    · rw [hb] at hfirst hlastb hi hj
      omega
    · rw [hb] at hfirst hlastb hi hj
      omega
  obtain ⟨hfx, hlx⟩ := hcorner
  rw [VideoInfo.OnScreen] at hf hfsrc hl hlsrc
  rw [OnScreenRect, OnScreenRect]
  omega

theorem copyLaw_iff (srcX srcY dstX dstY w h : Int32) :
    CopyLaw v.toVideoInfo srcX srcY dstX dstY w h ↔ CopyWhen v.toVideoInfo srcX srcY dstX dstY w h := by
  by_cases hempty : w.toInt ≤ 0 ∨ h.toInt ≤ 0
  · refine iff_of_true (fun s _ => ?_) (Or.inl hempty)
    rw [v.copyRegion_of_empty hempty]
    refine ⟨⟨fun px py _ k _ => ?_, fun _ _ => rfl⟩, fun p hp hn _ => ?_⟩
    · rw [copied, if_neg]
      rw [InRect]
      omega
    · obtain ⟨y, hy, -⟩ := mem_copyRows.1 hp
      rw [rowLength] at hn
      have := Nat.pos_of_mul_pos_right hn
      omega
  · rw [CopyWhen, or_iff_right hempty]
    obtain ⟨hw, hh⟩ := not_or.1 hempty
    constructor
    · intro hlaw
      rw [or_iff_not_imp_left]
      exact v.onScreen_of_law hlaw (by omega) (by omega)
    · rintro (hstill | ⟨hsrc, hdst⟩) s hs
      · rw [v.copyRegion_mem srcX srcY dstX dstY hs (by omega) (by omega), Moves.moveAll_of_still hstill]
        exact ⟨v.shows_of_still hstill s.mem, v.inside_of_still hstill⟩
      · exact ⟨v.copyRegion_shows hs (by omega) (by omega) hsrc hdst,
          v.inside_of_onScreen (by omega) hsrc hdst⟩

end Screen

end Tnu.Gfx
