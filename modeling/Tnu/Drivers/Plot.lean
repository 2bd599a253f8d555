/-
**Filling and copying against plotting pixel by pixel.**

The two bulk operations of the framebuffer promise no more than `framebuffer_putpixel` on each pixel
of the rectangle that lies on the screen.  Three things can take them away from that.  The clipping
compares `x + w` and `y + h`, sums of 32 bits, with the size of the screen: a sum that wraps is
small, so the rectangle is not clipped at all and the rows go on behind the screen.  The index of a
source row is a product of 32 bits.  And rows as wide as the screen are copied with `memcpy`, while
`framebuffer_putpixel` and the other path mask the byte above the colour.

Main definitions:

* `FillWhen`, `BlitWhen` — nothing wraps, no pixel is copied with more than a colour.

Main result:

* `bulkLaw_iff` — **exactly when the bulk operations are plots**.
-/

import Tnu.Drivers.Framebuffer

set_option autoImplicit false

namespace Tnu.Fb

variable {fb : Framebuffer} {x y w h rgb : UInt32} {pixels : ℕ → UInt32} {srcPitch : UInt32}

/-! ### Plotting pixel by pixel -/

/-- `framebuffer_putpixel` for each pixel of a rectangle that lies on the screen. -/
def plotRect (fb : Framebuffer) (x y w h : UInt32) (color : ℕ → ℕ → UInt32) : List Store :=
  (List.range h.toNat).flatMap fun yy => (List.range w.toNat).flatMap fun xx =>
    if x.toNat + xx < fb.width.toNat ∧ y.toNat + yy < fb.height.toNat then
      (putpixel fb (x + UInt32.ofNat xx) (y + UInt32.ofNat yy) (color yy xx)).2
    else []

/-- **Plotting leaves the picture** of the part on the screen. -/
theorem Linear.plotRect_leaves (fb : Linear) (color : ℕ → ℕ → UInt32) (f : ℕ → UInt8) :
    Bytes.copyAll f (plotRect fb.toFramebuffer x y w h color) =
      Bytes.copyAll f (picture fb.toFramebuffer x.toNat y.toNat
        (min h.toNat (fb.height.toNat - y.toNat)) fun yy =>
          rowBytes fb.toFramebuffer (min w.toNat (fb.width.toNat - x.toNat)) (color yy)) := by
  have hwidth := fb.width.toNat_lt
  have hheight := fb.height.toNat_lt
  rw [plotRect, Bytes.flatMap_range_of_nil (Nat.min_le_left _ (fb.height.toNat - y.toNat))]
  · refine Bytes.copyAll_flatMap_congr (fun yy hyy f => ?_) f
    have hyy' := List.mem_range.1 hyy
    rw [Bytes.flatMap_range_of_nil (Nat.min_le_left _ (fb.width.toNat - x.toNat))]
    · refine Bytes.paints_cells (k := fb.unit) (fun _ _ => fb.length_shown _) (fun xx hxx => ?_) f
      have hx : (x + UInt32.ofNat xx).toNat = x.toNat + xx := toNat_add_counter (by omega)
      have hy : (y + UInt32.ofNat yy).toNat = y.toNat + yy := toNat_add_counter (by omega)
      rw [if_pos (by omega)]
      refine (fb.putpixel_paints (by omega) (by omega) _).of_eq ?_ rfl
      rw [Framebuffer.row, hx, hy, rowAt, Nat.mul_add, Nat.add_assoc]
    · intro xx hlo hhi
      exact if_neg (by omega)
  · intro yy hlo hhi
    exact List.flatMap_eq_nil_iff.2 fun xx _ => if_neg (by omega)

/-! ### Addresses stored to -/

variable {n bound start extent : UInt32}

theorem loop_covers {body : UInt32 → List Store} {k i : ℕ} (hk : k < n.toNat)
    (h : Bytes.Covers (body (UInt32.ofNat k)) i) : Bytes.Covers (loop n body) i :=
  Bytes.covers_flatMap.2 ⟨k, List.mem_range.2 hk, h⟩

theorem memset32_covers {dst n i : ℕ} (value : UInt32) (hi : i < 4 * n) :
    Bytes.Covers (memset32 dst value n) (dst + i) := by
  refine ⟨(dst + 4 * (i / 4), Bytes.le 4 value.toNat),
    List.mem_map.2 ⟨i / 4, List.mem_range.2 (by omega), rfl⟩, ?_, ?_⟩
  · change dst + 4 * (i / 4) ≤ dst + i
    omega
  · rw [Bytes.length_le]
    omega

theorem pairs16_covers {rowb xx : ℕ} {remaining : UInt32} (pixel : UInt16)
    (hxx : xx < remaining.toNat) (hfit : 2 * xx < 2 ^ 32) :
    Bytes.Covers (pairs16 rowb remaining pixel) (rowb + 2 * xx) := by
  rw [pairs16, Bytes.covers_append, toNat_half]
  by_cases hpair : 2 * xx < 4 * (remaining.toNat / 2)
  · exact Or.inl (memset32_covers _ hpair)
  · -- what is left is the odd last pixel
    have hodd := (and_one_ne_zero remaining).2 (by omega)
    have hlast : ((remaining &&& ~~~1) * 2).toNat = 2 * xx := by
      have hxx' : 2 * (remaining.toNat / 2) = xx := by omega
      rw [UInt32.toNat_mul, toNat_even, hxx', Nat.mul_comm]
      exact Nat.mod_eq_of_lt hfit
    refine Or.inr ?_
    rw [if_pos hodd, hlast, Bytes.covers_single, Bytes.length_le]
    omega

section Covers

variable {xx : ℕ} (hxx : xx < w.toNat)
include hxx

theorem fillRow32_covers (hb : fb.bpp = 32) :
    Bytes.Covers (fillRow32 fb x y w rgb) (fb.row y + fb.unit * x.toNat + fb.unit * xx) := by
  rw [unit_of_32 hb]
  exact memset32_covers _ (by omega)

theorem blitRow32_covers (hb : fb.bpp = 32) (c : ℕ → UInt32) :
    Bytes.Covers (blitRow32 fb x y w c) (fb.row y + fb.unit * x.toNat + fb.unit * xx) := by
  rw [unit_of_32 hb]
  refine loop_covers hxx ?_
  rw [toNat_counter hxx, Bytes.covers_single, Bytes.length_le]
  omega

theorem copyRow32_covers (hb : fb.bpp = 32) (c : ℕ → UInt32) :
    Bytes.Covers (copyRow32 fb x y w c) (fb.row y + fb.unit * x.toNat + fb.unit * xx) := by
  rw [unit_of_32 hb, copyRow32, Bytes.covers_single,
    Bytes.length_flatMap_range fun _ _ => Bytes.length_le 4 _]
  omega

theorem blitRow16_covers (hb : fb.bpp = 16) (c : ℕ → UInt32) :
    Bytes.Covers (blitRow16 fb x y w c) (fb.row y + fb.unit * x.toNat + fb.unit * xx) := by
  rw [unit_of_16 hb]
  refine loop_covers hxx ?_
  rw [toNat_counter hxx, Bytes.covers_single, Bytes.length_le]
  omega

theorem fillRow16_covers (hb : fb.bpp = 16) (hfit : fb.unit * (x.toNat + xx) < 2 ^ 32) (pixel : UInt16) :
    Bytes.Covers (fillRow16 fb x y w pixel) (fb.row y + fb.unit * x.toNat + fb.unit * xx) := by
  rw [unit_of_16 hb] at hfit ⊢
  have hstart : (x * 2).toNat = 2 * x.toNat :=
    toNat_mul_of_lt (by change 2 * x.toNat < _; omega)
  have hless : (w - 1).toNat = w.toNat - 1 :=
    UInt32.toNat_sub_of_le w 1 (UInt32.le_iff_toNat_le.2 (by change 1 ≤ w.toNat; omega))
  rw [fillRow16, hstart]
  split_ifs with hodd
  · rcases Nat.eq_zero_or_pos xx with rfl | hpos
    · refine ⟨_, List.mem_cons_self, le_rfl, ?_⟩
      rw [Bytes.length_le]
      omega
    · have hrest : Bytes.Covers (pairs16 (fb.row y + 2 * x.toNat + 2) (w - 1) pixel)
          (fb.row y + 2 * x.toNat + 2 + 2 * (xx - 1)) := pairs16_covers pixel (by omega) (by omega)
      have hat : fb.row y + 2 * x.toNat + 2 + 2 * (xx - 1) = fb.row y + 2 * x.toNat + 2 * xx := by omega
      obtain ⟨s, hs, hi⟩ := hrest
      rw [hat] at hi
      exact ⟨s, List.mem_cons_of_mem _ hs, hi⟩
  · exact pairs16_covers pixel hxx (by omega)

theorem blitRow24_covers (hb : fb.bpp = 24) (hfit : fb.unit * (x.toNat + xx) < 2 ^ 32)
    (c : ℕ → UInt32) :
    Bytes.Covers (blitRow24 fb x y w c) (fb.row y + fb.unit * x.toNat + fb.unit * xx) := by
  rw [unit_of_24 hb] at hfit ⊢
  have hstart : (x * 3).toNat = 3 * x.toNat :=
    toNat_mul_of_lt (by change 3 * x.toNat < _; omega)
  have hmul : (UInt32.ofNat xx * 3).toNat = 3 * xx := by
    rw [UInt32.toNat_mul, toNat_counter hxx, Nat.mul_comm]
    exact Nat.mod_eq_of_lt (by change 3 * xx < _; omega)
  refine loop_covers hxx ⟨_, List.mem_cons_self, ?_, ?_⟩
  · rw [hstart, hmul]
  · rw [hstart, hmul, List.length_singleton]
    omega

end Covers

theorem rowAt_zero (hpitch : fb.pitch.toNat = fb.unit * fb.width.toNat) (xx yy : ℕ) :
    rowAt fb (0 : UInt32).toNat y.toNat yy + fb.unit * xx =
      fb.row y + fb.unit * (yy * fb.width.toNat + xx) := by
  rw [rowAt, Framebuffer.row, hpitch]
  change (y.toNat + yy) * (fb.unit * fb.width.toNat) + fb.unit * 0 + fb.unit * xx = _
  ring

theorem rowAt_eq {yy : ℕ} (hy : y.toNat + yy < 2 ^ 32) :
    rowAt fb x.toNat y.toNat yy = fb.row (y + UInt32.ofNat yy) + fb.unit * x.toNat := by
  rw [rowAt, Framebuffer.row, toNat_add_counter hy]

theorem Linear.fillStores_covers (fb : Linear) {xx yy : ℕ} (hxx : xx < w.toNat) (hyy : yy < h.toNat)
    (hfit : fb.unit * (x.toNat + xx) < 2 ^ 32) (hy : y.toNat + yy < 2 ^ 32) :
    Bytes.Covers (fillStores fb.toFramebuffer x y w h rgb)
      (rowAt fb.toFramebuffer x.toNat y.toNat yy + fb.unit * xx) := by
  have hindex : yy * w.toNat + xx < w.toNat * h.toNat := by
    have hstep : (yy + 1) * w.toNat ≤ h.toNat * w.toNat := Nat.mul_le_mul_right _ hyy
    rw [Nat.add_mul, Nat.mul_comm h.toNat] at hstep
    omega
  rcases fb.depth with hb | hb | hb
  · have h32 : fb.bpp ≠ 32 := by rw [hb]; decide
    rw [fillStores, if_neg h32, if_pos hb]
    split_ifs with hfast
    · obtain ⟨rfl, rfl, hpitch, heven⟩ := hfast
      have hmod : ¬ fb.width.toNat % 2 = 1 := fun h => (and_one_ne_zero _).2 h heven
      have hpairs : 4 * (fb.width.toNat / 2 * h.toNat) = 2 * (fb.width.toNat * h.toNat) := by
        have hhalf : fb.width.toNat = 2 * (fb.width.toNat / 2) := by omega
        conv_rhs => rw [hhalf]
        ring
      rw [rowAt_zero (fb.toNat_pitch hpitch (unit_of_16 hb).symm), unit_of_16 hb, toNat_half]
      exact memset32_covers _ (by rw [hpairs]; omega)
    · rw [rowAt_eq hy]
      exact loop_covers hyy (fillRow16_covers hxx hb hfit _)
  · have h32 : fb.bpp ≠ 32 := by rw [hb]; decide
    have h16 : fb.bpp ≠ 16 := by rw [hb]; decide
    rw [fillStores, if_neg h32, if_neg h16, if_pos hb, rowAt_eq hy]
    exact loop_covers hyy (blitRow24_covers hxx hb hfit fun _ => rgb)
  · rw [fillStores, if_pos hb]
    split_ifs with hfast
    · obtain ⟨rfl, rfl, hpitch⟩ := hfast
      rw [rowAt_zero (fb.toNat_pitch hpitch (unit_of_32 hb).symm), unit_of_32 hb]
      exact memset32_covers _ (by omega)
    · rw [rowAt_eq hy]
      exact loop_covers hyy (fillRow32_covers hxx hb)

theorem Linear.blitStores_covers (fb : Linear) {xx yy : ℕ} (hxx : xx < w.toNat) (hyy : yy < h.toNat)
    (hfit : fb.unit * (x.toNat + xx) < 2 ^ 32) (hy : y.toNat + yy < 2 ^ 32) :
    Bytes.Covers (blitStores fb.toFramebuffer x y w h pixels srcPitch)
      (rowAt fb.toFramebuffer x.toNat y.toNat yy + fb.unit * xx) := by
  rw [rowAt_eq hy]
  rcases fb.depth with hb | hb | hb
  · have h32 : fb.bpp ≠ 32 := by rw [hb]; decide
    rw [blitStores, if_neg h32, if_pos hb]
    exact loop_covers hyy (blitRow16_covers hxx hb _)
  · have h32 : fb.bpp ≠ 32 := by rw [hb]; decide
    have h16 : fb.bpp ≠ 16 := by rw [hb]; decide
    rw [blitStores, if_neg h32, if_neg h16, if_pos hb]
    exact loop_covers hyy (blitRow24_covers hxx hb hfit _)
  · rw [blitStores, if_pos hb]
    refine loop_covers hyy ?_
    dsimp only
    split_ifs
    · exact copyRow32_covers hxx hb _
    · exact blitRow32_covers hxx hb _

/-! ### When rows agree -/

theorem Linear.length_blitBytes (fb : Linear) (pixels : ℕ → UInt32) (srcPitch x w : UInt32) (yy : ℕ) :
    (blitBytes pixels srcPitch fb.toFramebuffer x w yy).length = fb.unit * w.toNat := by
  rw [blitBytes]
  split_ifs with hfast
  · rw [unit_of_32 hfast.1, Bytes.length_flatMap_range fun _ _ => Bytes.length_le 4 _]
  · exact fb.length_rowBytes _ _

/-- **Two pictures are the same when their rows are.** -/
theorem Linear.picture_eq_iff (fb : Linear) {x y w h : ℕ} {rows rows' : ℕ → List UInt8}
    (hx : x + w ≤ fb.width.toNat) (hlen : ∀ yy, (rows yy).length = fb.unit * w)
    (hlen' : ∀ yy, (rows' yy).length = fb.unit * w) :
    (∀ f, Bytes.copyAll f (picture fb.toFramebuffer x y h rows) =
      Bytes.copyAll f (picture fb.toFramebuffer x y h rows')) ↔ ∀ yy < h, rows yy = rows' yy := by
  have happart : ∀ rows : ℕ → List UInt8, (∀ yy, (rows yy).length = fb.unit * w) →
      (List.range h).Pairwise fun yy yy' =>
        rowAt fb.toFramebuffer x y yy + (rows yy).length ≤ rowAt fb.toFramebuffer x y yy' := by
    intro rows hlen
    refine List.pairwise_lt_range.imp fun {yy yy'} hlt => ?_
    have hrow : fb.unit * w ≤ fb.pitch.toNat :=
      le_trans (Nat.mul_le_mul_left _ (by omega)) fb.fits
    have hstep : (y + yy + 1) * fb.pitch.toNat ≤ (y + yy') * fb.pitch.toNat :=
      Nat.mul_le_mul_right _ (by omega)
    rw [Nat.succ_mul] at hstep
    rw [hlen, rowAt, rowAt]
    omega
  constructor
  · intro heq yy hyy
    have hmem := List.mem_range.2 hyy
    have hheld := Bytes.holds_rows (f := fun _ => 0) (fun _ _ => Bytes.paints_single _ _)
      (happart rows hlen) hmem
    have hheld' := Bytes.holds_rows (f := fun _ => 0) (fun _ _ => Bytes.paints_single _ _)
      (happart rows' hlen') hmem
    change Bytes.Holds (Bytes.copyAll _ (picture fb.toFramebuffer x y h rows)) _ _ at hheld
    rw [heq] at hheld
    exact (hheld.window_eq (hlen yy)).symm.trans (hheld'.window_eq (hlen' yy))
  · intro heq f
    rw [picture, picture]
    congr 1
    exact List.flatMap_congr fun yy hyy => by rw [heq yy (List.mem_range.1 hyy)]

theorem toNat_masked (c : UInt32) : (c &&& 0x00ffffff).toNat = c.toNat % 2 ^ 24 := by
  rw [UInt32.toNat_and]
  exact Nat.and_two_pow_sub_one_eq_mod _ 24

theorem le_inj {m n : ℕ} (hm : m < 2 ^ 32) (hn : n < 2 ^ 32) :
    Bytes.le 4 m = Bytes.le 4 n ↔ m = n := by
  constructor
  · intro h
    have hread := congrArg Bytes.ofLe h
    rw [Bytes.ofLe_le, Bytes.ofLe_le] at hread
    omega
  · rintro rfl
    rfl

theorem le_eq_shown_iff (hb : fb.bpp = 32) (c d : UInt32) :
    Bytes.le 4 c.toNat = fb.shown d ↔ fb.shown c = fb.shown d ∧ c.toNat < 2 ^ 24 := by
  have hc := c.toNat_lt
  rw [shown_of_32 hb, shown_of_32 hb, toNat_masked, toNat_masked, le_inj (by omega) (by omega),
    le_inj (by omega) (by omega)]
  omega

/-! ### Clipping -/

theorem clip_of_fits (hin : start.toNat < bound.toNat)
    (hfit : start.toNat + extent.toNat < 2 ^ 32) :
    (clip start extent bound).toNat = min extent.toNat (bound.toNat - start.toNat) := by
  have hsum : (start + extent).toNat = start.toNat + extent.toNat := by
    rw [UInt32.toNat_add]
    exact Nat.mod_eq_of_lt hfit
  have hrest : (bound - start).toNat = bound.toNat - start.toNat :=
    UInt32.toNat_sub_of_le _ _ (UInt32.le_iff_toNat_le.2 hin.le)
  have hlt : bound < start + extent ↔ bound.toNat < start.toNat + extent.toNat := by
    rw [UInt32.lt_iff_toNat_lt, hsum]
  rw [clip]
  split_ifs with hcut
  · have := hlt.1 hcut
    omega
  · have := mt hlt.2 hcut
    omega

theorem clip_of_wraps (hin : start.toNat < bound.toNat)
    (hwrap : 2 ^ 32 ≤ start.toNat + extent.toNat) : clip start extent bound = extent := by
  have hstart := start.toNat_lt
  have hextent := extent.toNat_lt
  have hsum : (start + extent).toNat = start.toNat + extent.toNat - 2 ^ 32 := by
    rw [UInt32.toNat_add, Nat.mod_eq_sub_mod hwrap]
    exact Nat.mod_eq_of_lt (by omega)
  refine if_neg fun hcut => ?_
  rw [UInt32.lt_iff_toNat_lt, hsum] at hcut
  omega

theorem clip_ne_zero (hin : start.toNat < bound.toNat)
    (hne : extent ≠ 0) : clip start extent bound ≠ 0 := by
  have hpos : extent.toNat ≠ 0 := fun h0 => hne (UInt32.toNat_inj.1 h0)
  intro h0
  rcases Nat.lt_or_ge (start.toNat + extent.toNat) (2 ^ 32) with hfit | hwrap
  · have hclip := clip_of_fits hin hfit
    rw [h0] at hclip
    change 0 = _ at hclip
    omega
  · exact hne (by rw [← clip_of_wraps hin hwrap, h0])

theorem clip_zero (hin : start.toNat < bound.toNat) :
    clip start 0 bound = 0 := by
  have hstart := start.toNat_lt
  have hclip : (clip start 0 bound).toNat = min (0 : UInt32).toNat (bound.toNat - start.toNat) :=
    clip_of_fits hin (by change start.toNat + 0 < _; omega)
  exact UInt32.toNat_inj.1 (hclip.trans (Nat.min_eq_left (Nat.zero_le _)))

/-! ### The laws -/

/-- The stores leave exactly the bytes that the others leave, and touch no other address. -/
def Matches (ws ws' : List Store) : Prop :=
  (∀ f, Bytes.copyAll f ws = Bytes.copyAll f ws') ∧ ∀ i, Bytes.Covers ws i → Bytes.Covers ws' i

theorem matches_iff {ws ws' : List Store} :
    Matches ws ws' ↔ ∀ f, Bytes.copyAll f ws = Bytes.copyAll f ws' :=
  ⟨fun h => h.1, fun h => ⟨h, fun _ hi => hi.of_copyAll_eq h⟩⟩

/-- Filling is plotting the colour on each pixel of the rectangle that lies on the screen. -/
def FillLaw (fb : Framebuffer) (x y w h rgb : UInt32) : Prop :=
  Matches (fillrect fb x y w h rgb).2 (plotRect fb x y w h fun _ _ => rgb)

/-- Copying is plotting the pixels of the array that lie on the screen. -/
def BlitLaw (fb : Framebuffer) (x y w h : UInt32) (pixels : ℕ → UInt32) (srcPitch : UInt32) : Prop :=
  Matches (blit fb x y w h (some pixels) srcPitch).2 (plotRect fb x y w h (pixelAt pixels srcPitch))

def OffScreen (fb : Framebuffer) (x y w h : UInt32) : Prop :=
  fb.width ≤ x ∨ fb.height ≤ y ∨ w = 0 ∨ h = 0

def EndsFit (x y w h : UInt32) : Prop :=
  x.toNat + w.toNat < 2 ^ 32 ∧ y.toNat + h.toNat < 2 ^ 32

def FillWhen (fb : Framebuffer) (x y w h : UInt32) : Prop := OffScreen fb x y w h ∨ EndsFit x y w h

/-- The array's pixels on the screen are read where they are, and have nothing above the colour
where the rows are copied as they are. -/
def PixelsFit (fb : Framebuffer) (x y w h : UInt32) (pixels : ℕ → UInt32) (srcPitch : UInt32) : Prop :=
  ∀ yy < min h.toNat (fb.height.toNat - y.toNat), ∀ xx < min w.toNat (fb.width.toNat - x.toNat),
    fb.shown (pixelRead pixels srcPitch yy xx) = fb.shown (pixelAt pixels srcPitch yy xx) ∧
      (fb.bpp = 32 ∧ x = 0 ∧ fb.width ≤ w ∧ srcPitch = fb.width →
        (pixelRead pixels srcPitch yy xx).toNat < 2 ^ 24)

def BlitWhen (fb : Framebuffer) (x y w h : UInt32) (pixels : ℕ → UInt32) (srcPitch : UInt32) : Prop :=
  OffScreen fb x y w h ∨ EndsFit x y w h ∧ PixelsFit fb x y w h pixels srcPitch

theorem plotRect_of_offScreen (hoff : OffScreen fb x y w h) (color : ℕ → ℕ → UInt32) :
    plotRect fb x y w h color = [] := by
  refine List.flatMap_eq_nil_iff.2 fun yy hyy => List.flatMap_eq_nil_iff.2 fun xx hxx => ?_
  rw [List.mem_range] at hyy hxx
  refine if_neg ?_
  rcases hoff with hx | hy | rfl | rfl
  · have := UInt32.le_iff_toNat_le.1 hx
    omega
  · have := UInt32.le_iff_toNat_le.1 hy
    omega
  · exact absurd hxx (Nat.not_lt_zero xx)
  · exact absurd hyy (Nat.not_lt_zero yy)

theorem onScreen_of_not_offScreen (hon : ¬ OffScreen fb x y w h) :
    x.toNat < fb.width.toNat ∧ y.toNat < fb.height.toNat ∧ w ≠ 0 ∧ h ≠ 0 := by
  rw [OffScreen] at hon
  push Not at hon
  obtain ⟨hx, hy, hw, hh⟩ := hon
  rw [UInt32.not_le, UInt32.lt_iff_toNat_lt] at hx hy
  exact ⟨hx, hy, hw, hh⟩

theorem Linear.clipped_of_offScreen (fb : Linear) (hoff : OffScreen fb.toFramebuffer x y w h)
    (stores : UInt32 → UInt32 → List Store) : (clipped fb.toFramebuffer x y w h stores).2 = [] := by
  rw [clipped]
  split_ifs with hout hzero
  · rfl
  · rfl
  · exfalso
    rw [not_or, not_or, UInt32.not_le, UInt32.not_le, UInt32.lt_iff_toNat_lt,
      UInt32.lt_iff_toNat_lt] at hout
    obtain ⟨-, hx, hy⟩ := hout
    rcases hoff with hx' | hy' | rfl | rfl
    · have := UInt32.le_iff_toNat_le.1 hx'
      omega
    · have := UInt32.le_iff_toNat_le.1 hy'
      omega
    · exact hzero (Or.inl (clip_zero hx))
    · exact hzero (Or.inr (clip_zero hy))

theorem Linear.clipped_of_onScreen (fb : Linear) (hx : x.toNat < fb.width.toNat)
    (hy : y.toNat < fb.height.toNat) (hw : w ≠ 0) (hh : h ≠ 0)
    (stores : UInt32 → UInt32 → List Store) :
    (clipped fb.toFramebuffer x y w h stores).2 =
      stores (clip x w fb.width) (clip y h fb.height) := by
  have hsome : ¬ (clip x w fb.width = 0 ∨ clip y h fb.height = 0) :=
    not_or.2 ⟨clip_ne_zero hx hw, clip_ne_zero hy hh⟩
  rw [clipped, if_neg (fb.inside hx hy), if_neg hsome]

/-- **Stores that match a plot end below 2^32**, when they touch each pixel of the clipped
rectangle: a wrapped sum takes them beyond the last row or beyond the end of a row. -/
theorem Linear.endsFit_of_leaves (fb : Linear) {ws : List Store} {color : ℕ → ℕ → UInt32}
    (hx : x.toNat < fb.width.toNat) (hy : y.toNat < fb.height.toNat) (hw : w ≠ 0) (hh : h ≠ 0)
    (hcov : ∀ xx < (clip x w fb.width).toNat, ∀ yy < (clip y h fb.height).toNat,
      fb.unit * (x.toNat + xx) < 2 ^ 32 → y.toNat + yy < 2 ^ 32 →
        Bytes.Covers ws (rowAt fb.toFramebuffer x.toNat y.toNat yy + fb.unit * xx))
    (hsame : ∀ f, Bytes.copyAll f ws = Bytes.copyAll f (plotRect fb.toFramebuffer x y w h color)) :
    EndsFit x y w h := by
  have hbefore : ∀ i, Bytes.Covers ws i →
      ∃ yy < min h.toNat (fb.height.toNat - y.toNat),
        i < (y.toNat + yy) * fb.pitch.toNat + fb.unit * fb.width.toNat := by
    intro i hi
    have hpic := hi.of_copyAll_eq fun f => (hsame f).trans (fb.plotRect_leaves color f)
    obtain ⟨yy, hyy, hcell⟩ := Bytes.covers_flatMap.1 hpic
    refine ⟨yy, List.mem_range.1 hyy, lt_of_lt_of_le (Bytes.covers_single.1 hcell).2 ?_⟩
    rw [fb.length_rowBytes, rowAt, Nat.add_assoc, ← Nat.mul_add]
    exact Nat.add_le_add_left (Nat.mul_le_mul_left _ (by omega)) _
  have hwpos : 0 < (clip x w fb.width).toNat :=
    Nat.pos_of_ne_zero fun h0 => clip_ne_zero hx hw (UInt32.toNat_inj.1 h0)
  have hhpos : 0 < (clip y h fb.height).toNat :=
    Nat.pos_of_ne_zero fun h0 => clip_ne_zero hy hh (UInt32.toNat_inj.1 h0)
  have hheight := fb.height.toNat_lt
  have hfits := fb.fits
  have hylt : y.toNat + h.toNat < 2 ^ 32 := by
    by_contra hwrap
    -- the loop reaches row 2^32 - 1
    rw [clip_of_wraps hy (not_lt.1 hwrap)] at hcov
    obtain ⟨yy, hyy, hi⟩ := hbefore _ (hcov 0 hwpos (2 ^ 32 - 1 - y.toNat) (by omega)
      (fb.offset_lt hx.le) (by omega))
    have hstep : (y.toNat + yy + 1) * fb.pitch.toNat ≤
        (y.toNat + (2 ^ 32 - 1 - y.toNat)) * fb.pitch.toNat := Nat.mul_le_mul_right _ (by omega)
    rw [Nat.succ_mul] at hstep
    rw [rowAt] at hi
    omega
  refine ⟨?_, hylt⟩
  by_contra hwrap
  -- the last row goes on behind the screen
  have hwidth := fb.width.toNat_lt
  have hh' := clip_of_fits hy hylt
  rw [clip_of_wraps hx (not_lt.1 hwrap)] at hcov
  have hend : x.toNat + (fb.width.toNat - x.toNat) = fb.width.toNat := by omega
  obtain ⟨yy, hyy, hi⟩ := hbefore _ (hcov (fb.width.toNat - x.toNat) (by omega)
    ((clip y h fb.height).toNat - 1) (by omega) (by rw [hend]; exact fb.offset_lt le_rfl) (by omega))
  have hstep : (y.toNat + yy) * fb.pitch.toNat ≤
      (y.toNat + ((clip y h fb.height).toNat - 1)) * fb.pitch.toNat :=
    Nat.mul_le_mul_right _ (by omega)
  rw [rowAt, Nat.add_assoc, ← Nat.mul_add, hend] at hi
  omega

theorem Linear.fillLaw_iff (fb : Linear) (x y w h rgb : UInt32) :
    FillLaw fb.toFramebuffer x y w h rgb ↔ FillWhen fb.toFramebuffer x y w h := by
  rw [FillLaw, matches_iff, fillrect, FillWhen]
  by_cases hoff : OffScreen fb.toFramebuffer x y w h
  · rw [fb.clipped_of_offScreen hoff, plotRect_of_offScreen hoff]
    exact iff_of_true (fun _ => rfl) (Or.inl hoff)
  · obtain ⟨hx, hy, hw, hh⟩ := onScreen_of_not_offScreen hoff
    rw [fb.clipped_of_onScreen hx hy hw hh, or_iff_right hoff]
    constructor
    · exact fb.endsFit_of_leaves hx hy hw hh fun xx hxx yy hyy => fb.fillStores_covers hxx hyy
    · rintro ⟨hxw, hyh⟩ f
      have hcx := clip_of_fits hx hxw
      have hcy := clip_of_fits hy hyh
      rw [fb.fillStores_leaves (clip_ne_zero hx hw) (by omega) (by omega), fb.plotRect_leaves, hcx, hcy]

theorem Linear.blitBytes_eq_iff (fb : Linear) (yy : ℕ)
    (hn : n.toNat = min w.toNat (fb.width.toNat - x.toNat)) :
    blitBytes pixels srcPitch fb.toFramebuffer x n yy =
        rowBytes fb.toFramebuffer n.toNat (pixelAt pixels srcPitch yy) ↔
      ∀ xx < n.toNat,
        fb.shown (pixelRead pixels srcPitch yy xx) = fb.shown (pixelAt pixels srcPitch yy xx) ∧
          (fb.bpp = 32 ∧ x = 0 ∧ fb.width ≤ w ∧ srcPitch = fb.width →
            (pixelRead pixels srcPitch yy xx).toNat < 2 ^ 24) := by
  have hwhole : x = 0 → (n = fb.width ↔ fb.width ≤ w) := by
    rintro rfl
    rw [← UInt32.toNat_inj, hn, UInt32.le_iff_toNat_le]
    change min w.toNat (fb.width.toNat - 0) = fb.width.toNat ↔ _
    omega
  have hlen : ∀ c : UInt32, (fb.shown c).length = fb.unit := fb.length_shown
  rw [blitBytes]
  by_cases hfast : fb.bpp = 32 ∧ x = 0 ∧ fb.width ≤ w ∧ srcPitch = fb.width
  · have hfast' : fb.bpp = 32 ∧ x = 0 ∧ n = fb.width ∧ srcPitch = fb.width :=
      ⟨hfast.1, hfast.2.1, (hwhole hfast.2.1).2 hfast.2.2.1, hfast.2.2.2⟩
    rw [if_pos hfast', rowBytes, Bytes.flatMap_range_inj (fun _ _ => Bytes.length_le 4 _) fun _ _ => by
      rw [hlen, unit_of_32 hfast.1]]
    refine forall₂_congr fun xx _ => ?_
    rw [le_eq_shown_iff hfast.1, imp_iff_right hfast]
  · have hfast' : ¬ (fb.bpp = 32 ∧ x = 0 ∧ n = fb.width ∧ srcPitch = fb.width) :=
      fun h => hfast ⟨h.1, h.2.1, (hwhole h.2.1).1 h.2.2.1, h.2.2.2⟩
    rw [if_neg hfast', rowBytes, rowBytes,
      Bytes.flatMap_range_inj (fun _ _ => hlen _) fun _ _ => hlen _]
    refine forall₂_congr fun xx _ => ?_
    rw [and_iff_left fun h => absurd h hfast]

theorem Linear.blitStores_iff (fb : Linear) (hx : x.toNat < fb.width.toNat)
    (hy : y.toNat < fb.height.toNat) (hends : EndsFit x y w h) :
    (∀ f, Bytes.copyAll f (blitStores fb.toFramebuffer x y (clip x w fb.width) (clip y h fb.height)
        pixels srcPitch) =
      Bytes.copyAll f (plotRect fb.toFramebuffer x y w h (pixelAt pixels srcPitch))) ↔
        PixelsFit fb.toFramebuffer x y w h pixels srcPitch := by
  have hcx := clip_of_fits hx hends.1
  have hcy := clip_of_fits hy hends.2
  have hxw : x.toNat + (clip x w fb.width).toNat ≤ fb.width.toNat := by omega
  have hyh : y.toNat + (clip y h fb.height).toNat ≤ fb.height.toNat := by omega
  have hpictures := fb.picture_eq_iff (y := y.toNat) (h := (clip y h fb.height).toNat) hxw
    (fb.length_blitBytes pixels srcPitch x (clip x w fb.width))
    fun yy => fb.length_rowBytes _ (pixelAt pixels srcPitch yy)
  simp only [fb.plotRect_leaves, ← hcx, ← hcy, fb.blitStores_leaves hxw hyh]
  rw [hpictures, PixelsFit, ← hcx, ← hcy]
  exact forall₂_congr fun yy _ => fb.blitBytes_eq_iff yy hcx

theorem Linear.blitLaw_iff (fb : Linear) (x y w h : UInt32) (pixels : ℕ → UInt32) (srcPitch : UInt32) :
    BlitLaw fb.toFramebuffer x y w h pixels srcPitch ↔
      BlitWhen fb.toFramebuffer x y w h pixels srcPitch := by
  rw [BlitLaw, matches_iff, blit, BlitWhen]
  by_cases hoff : OffScreen fb.toFramebuffer x y w h
  · rw [fb.clipped_of_offScreen hoff, plotRect_of_offScreen hoff]
    exact iff_of_true (fun _ => rfl) (Or.inl hoff)
  · obtain ⟨hx, hy, hw, hh⟩ := onScreen_of_not_offScreen hoff
    rw [fb.clipped_of_onScreen hx hy hw hh, or_iff_right hoff]
    constructor
    · intro hsame
      have hends := fb.endsFit_of_leaves hx hy hw hh
        (fun xx hxx yy hyy => fb.blitStores_covers hxx hyy) hsame
      exact ⟨hends, (fb.blitStores_iff hx hy hends).1 hsame⟩
    · rintro ⟨hends, hpixels⟩
      exact (fb.blitStores_iff hx hy hends).2 hpixels

/-- **Bulk operations are pixel plots**, filling when the rectangle ends below 2^32, copying when
in addition no pixel has bits above its colour where rows are copied as they are. -/
theorem bulkLaw_iff (fb : Linear) (x y w h rgb : UInt32) (pixels : ℕ → UInt32) (srcPitch : UInt32) :
    (FillLaw fb.toFramebuffer x y w h rgb ↔ FillWhen fb.toFramebuffer x y w h) ∧
      (BlitLaw fb.toFramebuffer x y w h pixels srcPitch ↔
        BlitWhen fb.toFramebuffer x y w h pixels srcPitch) :=
  ⟨fb.fillLaw_iff x y w h rgb, fb.blitLaw_iff x y w h pixels srcPitch⟩

theorem depth_screen : (32 : UInt8) = 16 ∨ (32 : UInt8) = 24 ∨ (32 : UInt8) = 32 := Or.inr (Or.inr rfl)

def screen : Linear where
  kind := .linear
  address := 0xfd000000
  width := 1024
  height := 768
  pitch := 4096
  bpp := 32
  isLinear := rfl
  depth := depth_screen
  fits := by decide

/-- A row of pixels with an alpha channel is copied with it. -/
theorem not_bulkLaw : ¬ ∀ (fb : Linear) (x y w h rgb : UInt32) (pixels : ℕ → UInt32) (srcPitch : UInt32),
    FillLaw fb.toFramebuffer x y w h rgb ∧ BlitLaw fb.toFramebuffer x y w h pixels srcPitch := by
  intro hlaw
  have hblit := (hlaw screen 0 0 1024 1 0 (fun _ => 0xff000000) 1024).2
  rcases (screen.blitLaw_iff 0 0 1024 1 (fun _ => 0xff000000) 1024).1 hblit with hoff | ⟨-, hpixels⟩
  · rcases hoff with hx | hy | hw | hh
    · exact absurd hx (by decide)
    · exact absurd hy (by decide)
    · exact absurd hw (by decide)
    · exact absurd hh (by decide)
  · have hcolor := (hpixels 0 (by decide) 0 (by decide)).2 ⟨rfl, rfl, by decide, rfl⟩
    exact absurd hcolor (by decide)

end Tnu.Fb
