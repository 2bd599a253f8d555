/-
**The dirty rectangle.**

Every call that draws marks the rectangle it drew in, and the dirty rectangle grows to the union with
it, in sums of signed 32-bit words.  While these sums fit, what was dirty stays dirty and the marked
rectangle is added.  `gfx_draw_pixel` and `gfx_fill_rect` mark what they changed after clipping;
`gfx_copy_region` marks the rectangle it was asked for, which is what it changed when the region may
be copied.  So after a run of such calls every pixel that was changed since the rectangle was
cleared lies inside it.

Main definitions:

* `RunFits` — every call of a run fits the state it finds.

Main results:

* `Screen.dirtyLaw_run` — **what was changed is dirty**, after every run that fits;
* `drawing_law` — when filling and copying are clipped, with the above.
-/

import Tnu.Drivers.CopyRegion

set_option autoImplicit false

namespace Tnu.Gfx

/-! ### Marking -/

def Fits32 (z : ℤ) : Prop := -2 ^ 31 ≤ z ∧ z < 2 ^ 31

/-- The sums that marking a rectangle makes, with the rectangle that is dirty already, are 32-bit
numbers. -/
def MarkFits (s : State) (x y w h : Int32) : Prop :=
  (Fits32 (x.toInt + w.toInt) ∧ Fits32 (y.toInt + h.toInt)) ∧
    (s.hasDirty = true →
      Fits32 (max (s.dirty.x.toInt + s.dirty.w.toInt) (x.toInt + w.toInt) - min s.dirty.x.toInt x.toInt) ∧
        Fits32 (max (s.dirty.y.toInt + s.dirty.h.toInt) (y.toInt + h.toInt) - min s.dirty.y.toInt y.toInt))

def Sound (s : State) : Prop :=
  s.hasDirty = true → Fits32 (s.dirty.x.toInt + s.dirty.w.toInt) ∧ Fits32 (s.dirty.y.toInt + s.dirty.h.toInt)

def Covered (s : State) (px py : ℤ) : Prop :=
  ∃ r, getDirtyRect s = some r ∧ InRect r.x r.y r.w r.h px py

variable {s : State} {x y w h : Int32}

theorem covered_iff {px py : ℤ} : Covered s px py ↔
    s.hasDirty = true ∧ InRect s.dirty.x s.dirty.y s.dirty.w s.dirty.h px py := by
  rw [Covered, getDirtyRect]
  by_cases hd : s.hasDirty = true
  · rw [if_pos hd]
    constructor
    · rintro ⟨r, hr, hin⟩
      rw [← Option.some.inj hr] at hin
      exact ⟨hd, hin⟩
    · rintro ⟨-, hin⟩
      exact ⟨_, rfl, hin⟩
  · rw [if_neg hd]
    constructor
    · rintro ⟨r, hr, -⟩
      cases hr
    · rintro ⟨h, -⟩
      exact absurd h hd

theorem toInt_union {a b c d : Int32} (hab : Fits32 (a.toInt + b.toInt)) (hcd : Fits32 (c.toInt + d.toInt))
    (hfit : Fits32 (max (a.toInt + b.toInt) (c.toInt + d.toInt) - min a.toInt c.toInt)) :
    (if a < c then a else c).toInt = min a.toInt c.toInt ∧
      ((if c + d < a + b then a + b else c + d) - if a < c then a else c).toInt =
        max (a.toInt + b.toInt) (c.toInt + d.toInt) - min a.toInt c.toInt := by
  have hsum := toInt_add_of_fits hab.1 hab.2
  have hsum' := toInt_add_of_fits hcd.1 hcd.2
  have hmin : (if a < c then a else c).toInt = min a.toInt c.toInt := by
    split_ifs with hlt
    · rw [Int32.lt_iff_toInt_lt] at hlt
      omega
    · rw [Int32.lt_iff_toInt_lt] at hlt
      omega
  have hmax : (if c + d < a + b then a + b else c + d).toInt =
      max (a.toInt + b.toInt) (c.toInt + d.toInt) := by
    split_ifs with hlt
    · rw [Int32.lt_iff_toInt_lt, hsum, hsum'] at hlt
      omega
    · rw [Int32.lt_iff_toInt_lt, hsum, hsum'] at hlt
      omega
  refine ⟨hmin, ?_⟩
  rw [← hmin, ← hmax] at hfit ⊢
  exact toInt_sub_of_fits hfit.1 hfit.2

theorem markDirty_of_dirty (hd : s.hasDirty = true) (hs : Sound s) (hfit : MarkFits s x y w h) :
    ∃ r, markDirty s x y w h = { s with dirty := r } ∧
      (r.x.toInt = min s.dirty.x.toInt x.toInt ∧
        r.x.toInt + r.w.toInt = max (s.dirty.x.toInt + s.dirty.w.toInt) (x.toInt + w.toInt)) ∧
        r.y.toInt = min s.dirty.y.toInt y.toInt ∧
          r.y.toInt + r.h.toInt = max (s.dirty.y.toInt + s.dirty.h.toInt) (y.toInt + h.toInt) := by
  obtain ⟨⟨hx, hy⟩, hunion⟩ := hfit
  obtain ⟨hux, huy⟩ := hunion hd
  obtain ⟨hsx, hsy⟩ := hs hd
  obtain ⟨hx1, hw1⟩ := toInt_union hsx hx hux
  obtain ⟨hy1, hh1⟩ := toInt_union hsy hy huy
  rw [markDirty, if_pos hd]
  refine ⟨_, rfl, ⟨hx1, ?_⟩, hy1, ?_⟩
  · rw [hx1, hw1]
    ring
  · rw [hy1, hh1]
    ring

theorem markDirty_of_clean (hd : ¬ s.hasDirty = true) :
    markDirty s x y w h = { s with dirty := ⟨x, y, w, h⟩, hasDirty := true } := if_neg hd

/-- What marking does to a state whose dirty rectangle is known. -/
structure Marks (s s' : State) (x y w h : Int32) : Prop where
  sound : Sound s'
  kept : ∀ px py, Covered s px py → Covered s' px py
  added : ∀ px py, InRect x y w h px py → Covered s' px py

/-- **Marking keeps what is dirty and adds the rectangle.** -/
theorem marks_markDirty (hs : Sound s) (hfit : MarkFits s x y w h) :
    Marks s (markDirty s x y w h) x y w h := by
  by_cases hd : s.hasDirty = true
  · obtain ⟨r, hr, ⟨hrx, hrw⟩, hry, hrh⟩ := markDirty_of_dirty hd hs hfit
    obtain ⟨hsx, hsy⟩ := hs hd
    obtain ⟨⟨hx, hy⟩, -⟩ := hfit
    rw [hr]
    rw [Fits32] at hsx hsy hx hy
    refine ⟨fun _ => ?_, fun px py hp => covered_iff.2 ⟨hd, ?_⟩, fun px py hp => covered_iff.2 ⟨hd, ?_⟩⟩
    · rw [Fits32, Fits32]
      dsimp only
      omega
    · have hin := (covered_iff.1 hp).2
      rw [InRect] at hin ⊢
      dsimp only
      omega
    · rw [InRect] at hp ⊢
      dsimp only
      omega
  · rw [markDirty_of_clean hd]
    exact ⟨fun _ => hfit.1, fun px py hp => absurd (covered_iff.1 hp).1 hd,
      fun px py hp => covered_iff.2 ⟨rfl, hp⟩⟩

/-! ### Marking inside a box -/

/-- A box of 32-bit coordinates that holds the dirty rectangle. -/
structure Boxed (s : State) (left right top bottom : ℤ) : Prop where
  horizontal : -2 ^ 31 ≤ left ∧ right < 2 ^ 31 ∧ right - left < 2 ^ 31
  vertical : -2 ^ 31 ≤ top ∧ bottom < 2 ^ 31 ∧ bottom - top < 2 ^ 31
  holds : s.hasDirty = true →
    (left ≤ s.dirty.x.toInt ∧ s.dirty.x.toInt + s.dirty.w.toInt ≤ right) ∧
      top ≤ s.dirty.y.toInt ∧ s.dirty.y.toInt + s.dirty.h.toInt ≤ bottom

section Box

variable {left right top bottom : ℤ}

theorem Boxed.markFits (hb : Boxed s left right top bottom) (hw : 0 ≤ w.toInt) (hh : 0 ≤ h.toInt)
    (hx : left ≤ x.toInt ∧ x.toInt + w.toInt ≤ right) (hy : top ≤ y.toInt ∧ y.toInt + h.toInt ≤ bottom) :
    MarkFits s x y w h := by
  have hhor := hb.horizontal
  have hver := hb.vertical
  refine ⟨⟨⟨by omega, by omega⟩, by omega, by omega⟩, fun hd => ?_⟩
  obtain ⟨hholdX, hholdY⟩ := hb.holds hd
  exact ⟨⟨by omega, by omega⟩, by omega, by omega⟩

theorem Boxed.markDirty (hb : Boxed s left right top bottom) (hs : Sound s) (hw : 0 ≤ w.toInt)
    (hh : 0 ≤ h.toInt) (hx : left ≤ x.toInt ∧ x.toInt + w.toInt ≤ right)
    (hy : top ≤ y.toInt ∧ y.toInt + h.toInt ≤ bottom) :
    Boxed (markDirty s x y w h) left right top bottom := by
  refine ⟨hb.horizontal, hb.vertical, fun _ => ?_⟩
  by_cases hd : s.hasDirty = true
  · obtain ⟨hholdX, hholdY⟩ := hb.holds hd
    obtain ⟨r, hr, ⟨hrx, hrw⟩, hry, hrh⟩ := markDirty_of_dirty hd hs (hb.markFits hw hh hx hy)
    rw [hr]
    dsimp only
    omega
  · rw [markDirty_of_clean hd]
    exact ⟨hx, hy⟩

theorem boxed_union (hs : Sound s) (hfit : MarkFits s x y w h) (hw : 0 ≤ w.toInt) (hh : 0 ≤ h.toInt) :
    ∃ left right top bottom, Boxed s left right top bottom ∧
      (left ≤ x.toInt ∧ x.toInt + w.toInt ≤ right) ∧ top ≤ y.toInt ∧ y.toInt + h.toInt ≤ bottom := by
  obtain ⟨⟨hx, hy⟩, hunion⟩ := hfit
  have hxlo := x.le_toInt
  have hylo := y.le_toInt
  have hxhi := w.toInt_lt
  have hyhi := h.toInt_lt
  rw [Fits32] at hx hy
  by_cases hd : s.hasDirty = true
  · obtain ⟨hux, huy⟩ := hunion hd
    obtain ⟨hsx, hsy⟩ := hs hd
    rw [Fits32] at hux huy hsx hsy
    have hdx := s.dirty.x.le_toInt
    have hdy := s.dirty.y.le_toInt
    refine ⟨min s.dirty.x.toInt x.toInt, max (s.dirty.x.toInt + s.dirty.w.toInt) (x.toInt + w.toInt),
      min s.dirty.y.toInt y.toInt, max (s.dirty.y.toInt + s.dirty.h.toInt) (y.toInt + h.toInt),
      ⟨?_, ?_, fun _ => ?_⟩, ?_, ?_, ?_⟩
    all_goals omega
  · exact ⟨x.toInt, x.toInt + w.toInt, y.toInt, y.toInt + h.toInt,
      ⟨by omega, by omega, fun h => absurd h hd⟩, by omega, by omega, by omega⟩

end Box

/-! ### What the drawing calls mark -/

def Changed (v : VideoInfo) (m m' : ℤ → UInt8) (px py : ℤ) : Prop :=
  v.OnScreen px py ∧ ∃ k < v.bytesPerPixel.toNat, m' (v.pixelAddr px py + k) ≠ m (v.pixelAddr px py + k)

/-- What a call does to a state whose dirty rectangle is known: what was dirty stays dirty, and what
changes becomes dirty. -/
structure Tracks (v : VideoInfo) (s s' : State) : Prop where
  sound : Sound s'
  kept : ∀ px py, Covered s px py → Covered s' px py
  changed : ∀ px py, Changed v s.mem s'.mem px py → Covered s' px py

theorem tracks_refl {v : VideoInfo} (hs : Sound s) : Tracks v s s :=
  ⟨hs, fun _ _ h => h, fun _ _ h => absurd rfl h.2.choose_spec.2⟩

theorem Marks.tracks {v : VideoInfo} {m : ℤ → UInt8} {s' : State}
    (hmarks : Marks { s with mem := m } s' x y w h) (hmem : s'.mem = m)
    (hchanged : ∀ px py, Changed v s.mem m px py → InRect x y w h px py) : Tracks v s s' :=
  ⟨hmarks.sound, fun px py hp => hmarks.kept px py hp,
    fun px py hp => hmarks.added px py (hchanged px py (hmem ▸ hp))⟩

/-- The rectangle that `gfx_fill_rect` clips to. -/
def clippedRect (v : VideoInfo) (x y w h : Int32) : Rect :=
  let x1 := clamp32 x 0 v.width.toInt32
  let y1 := clamp32 y 0 v.height.toInt32
  ⟨x1, y1, clamp32 (x + w) 0 v.width.toInt32 - x1, clamp32 (y + h) 0 v.height.toInt32 - y1⟩

namespace Screen

variable (v : Screen) {color : UInt32}
  {m : ℤ → UInt8}

theorem put_changed {l : List UInt8} (hl : l.length = v.bytesPerPixel.toNat)
    {px py qx qy : ℤ} (hp : v.OnScreen px py)
    (hch : Changed v.toVideoInfo m (put m (v.pixelAddr px py) l) qx qy) : (qx, qy) = (px, py) := by
  obtain ⟨hq, k, hk, hne⟩ := hch
  rw [v.put_pixel hl hp hq hk] at hne
  by_contra hcon
  exact hne (if_neg hcon)

theorem drawPixel_tracks (color : UInt32) (hs : Sound s)
    (hfit : onScreen v.toVideoInfo x y → MarkFits s x y 1 1) :
    Tracks v.toVideoInfo s (drawPixel v.toVideoInfo s x y color) := by
  rw [drawPixel]
  split_ifs with hskip
  · exact tracks_refl hs
  · have hon := not_not.1 (not_or.1 hskip).2
    have hmarks := marks_markDirty (s := { s with
      mem := put s.mem (v.pixelAddr x.toInt y.toInt) (v.shown color) }) hs (hfit hon)
    refine hmarks.tracks (markDirty_mem _ _ _ _ _) fun qx qy hch => ?_
    obtain ⟨rfl, rfl⟩ := Prod.mk.inj (v.put_changed (v.length_shown color) (v.onScreen_iff.1 hon) hch)
    have hone : (1 : Int32).toInt = 1 := rfl
    rw [InRect, hone]
    omega

theorem drawPixels_boxed (color : UInt32) {left right top bottom : ℤ} {pixels : List (Int32 × Int32)}
    (hs : Sound s) (hb : Boxed s left right top bottom)
    (hin : ∀ p ∈ pixels, (left ≤ p.1.toInt ∧ p.1.toInt < right) ∧ top ≤ p.2.toInt ∧ p.2.toInt < bottom) :
    Sound (drawPixels v.toVideoInfo s pixels color) ∧
      Boxed (drawPixels v.toVideoInfo s pixels color) left right top bottom ∧
        ∀ px py, Covered s px py → Covered (drawPixels v.toVideoInfo s pixels color) px py := by
  induction pixels generalizing s with
  | nil => exact ⟨hs, hb, fun _ _ h => h⟩
  | cons p pixels ih =>
    have hone : (1 : Int32).toInt = 1 := rfl
    obtain ⟨⟨hl, hr⟩, ht, hbot⟩ := hin p List.mem_cons_self
    have hfits : MarkFits s p.1 p.2 1 1 :=
      hb.markFits (by omega) (by omega) (by omega) (by omega)
    have htracks := v.drawPixel_tracks color hs fun _ => hfits
    have hboxed : Boxed (drawPixel v.toVideoInfo s p.1 p.2 color) left right top bottom := by
      rw [drawPixel]
      split_ifs
      · exact hb
      · have hb' : Boxed { s with mem := put s.mem (v.pixelAddr p.1.toInt p.2.toInt) (v.shown color) }
            left right top bottom := ⟨hb.horizontal, hb.vertical, hb.holds⟩
        exact hb'.markDirty hs (by omega) (by omega) (by omega) (by omega)
    obtain ⟨hsound, hbox, hkept⟩ := ih htracks.sound hboxed fun q hq => hin q (List.mem_cons_of_mem _ hq)
    exact ⟨hsound, hbox, fun px py hp => hkept px py (htracks.kept px py hp)⟩

theorem plot_changed {l : List UInt8} (hl : l.length = v.bytesPerPixel.toNat)
    {pixels : List (ℤ × ℤ)} (hpixels : ∀ p ∈ pixels, v.OnScreen p.1 p.2) {px py : ℤ}
    (hch : Changed v.toVideoInfo m (plot v.toVideoInfo m pixels l) px py) : (px, py) ∈ pixels := by
  obtain ⟨hp, k, hk, hne⟩ := hch
  by_contra hcon
  exact hne (((v.plot_shows hl hpixels).1 px py hp k hk).trans (if_neg hcon))

theorem clippedRect_bounds (x y w h : Int32) :
    ((0 ≤ (clippedRect v.toVideoInfo x y w h).x.toInt ∧
        (clippedRect v.toVideoInfo x y w h).x.toInt + (clippedRect v.toVideoInfo x y w h).w.toInt ≤
          v.width.toNat)) ∧
      0 ≤ (clippedRect v.toVideoInfo x y w h).y.toInt ∧
        (clippedRect v.toVideoInfo x y w h).y.toInt + (clippedRect v.toVideoInfo x y w h).h.toInt ≤
          v.height.toNat := by
  rw [clippedRect]
  exact ⟨(clamped_axis v.width_lt (v.toInt_clampX x) (v.toInt_clampX (x + w))).1,
    (clamped_axis v.height_lt (v.toInt_clampY y) (v.toInt_clampY (y + h))).1⟩

/-- **Filling marks what it changes.** -/
theorem fillRect_tracks (hs : Sound s)
    (hfit : 0 < (clippedRect v.toVideoInfo x y w h).w.toInt → 0 < (clippedRect v.toVideoInfo x y w h).h.toInt →
      MarkFits s (clippedRect v.toVideoInfo x y w h).x (clippedRect v.toVideoInfo x y w h).y
        (clippedRect v.toVideoInfo x y w h).w (clippedRect v.toVideoInfo x y w h).h) :
    Tracks v.toVideoInfo s (fillRect v.toVideoInfo s x y w h color) := by
  by_cases hempty : s.initialized = false ∨ w ≤ 0 ∨ h ≤ 0
  · rw [fillRect, if_pos hempty]
    exact tracks_refl hs
  · have hinit : s.initialized = true := by
      simpa using (not_or.1 hempty).1
    have hwidth := v.width_lt
    have hheight := v.height_lt
    obtain ⟨⟨hx0, hxw⟩, hy0, hyh⟩ := v.clippedRect_bounds x y w h
    have heq : fillRect v.toVideoInfo s x y w h color =
        if (clippedRect v.toVideoInfo x y w h).w ≤ 0 ∨ (clippedRect v.toVideoInfo x y w h).h ≤ 0 then s
        else fillClipped v.toVideoInfo s (clippedRect v.toVideoInfo x y w h).x
          (clippedRect v.toVideoInfo x y w h).y (clippedRect v.toVideoInfo x y w h).w
          (clippedRect v.toVideoInfo x y w h).h color := (if_neg hempty).trans rfl
    rw [heq]
    generalize clippedRect v.toVideoInfo x y w h = r at *
    by_cases hnone : r.w ≤ 0 ∨ r.h ≤ 0
    · rw [if_pos hnone]
      exact tracks_refl hs
    · have hzero : (0 : Int32).toInt = 0 := rfl
      rw [if_neg hnone]
      rw [Int32.le_iff_toInt_le, Int32.le_iff_toInt_le, hzero, not_or, not_le, not_le] at hnone
      obtain ⟨hw, hh⟩ := hnone
      have hfits := hfit hw hh
      have hcells : ∀ p ∈ cells r.x.toInt r.y.toInt r.w.toInt.toNat r.h.toInt.toNat,
          v.OnScreen p.1 p.2 := by
        intro p hp
        have hcell := mem_cells.1 hp
        exact ⟨by omega, by omega, by omega, by omega⟩
      have hrect : ∀ px py, (px, py) ∈ cells r.x.toInt r.y.toInt r.w.toInt.toNat r.h.toInt.toNat →
          InRect r.x r.y r.w r.h px py := by
        intro px py hp
        rw [mem_cells] at hp
        rw [InRect]
        omega
      rw [fillClipped]
      split_ifs with hb
      · have hmarks := marks_markDirty (s := { s with
          mem := fillWords v.toVideoInfo s.mem r.x r.y r.w r.h color }) hs hfits
        refine hmarks.tracks (markDirty_mem _ _ _ _ _) fun px py hch => hrect px py ?_
        rw [v.fillWords_eq hb] at hch
        exact v.plot_changed (v.length_shown color) hcells hch
      · obtain ⟨left, right, top, bottom, hbox, hbx, hby⟩ := boxed_union hs hfits hw.le hh.le
        have hmap := map_rectPixels r.x r.y r.w r.h (by omega) (by omega)
        have hpix : ∀ p ∈ rectPixels r.x r.y r.w r.h,
            (p.1.toInt, p.2.toInt) ∈ cells r.x.toInt r.y.toInt r.w.toInt.toNat r.h.toInt.toNat := by
          intro p hp
          rw [← hmap]
          exact List.mem_map.2 ⟨p, hp, rfl⟩
        have hinbox : ∀ p ∈ rectPixels r.x r.y r.w r.h,
            (left ≤ p.1.toInt ∧ p.1.toInt < right) ∧ top ≤ p.2.toInt ∧ p.2.toInt < bottom := by
          intro p hp
          have hcell := mem_cells.1 (hpix p hp)
          omega
        obtain ⟨hsound, hbox', hkept⟩ := v.drawPixels_boxed color hs hbox hinbox
        have hmem := v.drawPixels_mem color hinit fun p hp => hcells _ (hpix p hp)
        rw [fillPixels_eq]
        have hmarks := marks_markDirty hsound (hbox'.markFits hw.le hh.le hbx hby)
        refine ⟨hmarks.sound, fun px py hp => hmarks.kept px py (hkept px py hp), fun px py hch => ?_⟩
        rw [markDirty_mem, hmem, hmap] at hch
        exact hmarks.added px py (hrect px py (v.plot_changed (v.length_shown color) hcells hch))

/-- **Copying marks what it changes**, when the law allows it. -/
theorem copyRegion_tracks {srcX srcY dstX dstY : Int32} (hs : Sound s)
    (hfit : 0 < w.toInt → 0 < h.toInt →
      CopyWhen v.toVideoInfo srcX srcY dstX dstY w h ∧ MarkFits s dstX dstY w h) :
    Tracks v.toVideoInfo s (copyRegion v.toVideoInfo s srcX srcY dstX dstY w h) := by
  by_cases hempty : w.toInt ≤ 0 ∨ h.toInt ≤ 0
  · rw [v.copyRegion_of_empty hempty]
    exact tracks_refl hs
  · obtain ⟨hw, hh⟩ := not_or.1 hempty
    obtain ⟨hwhen, hfits⟩ := hfit (not_le.1 hw) (not_le.1 hh)
    have hlaw := (v.copyLaw_iff srcX srcY dstX dstY w h).2 hwhen
    by_cases hinit : s.initialized = true
    · have hshow := (hlaw s hinit).1.1
      rw [v.copyRegion_mem srcX srcY dstX dstY hinit (not_le.1 hw) (not_le.1 hh)] at hshow
      have hzero : (0 : Int32).toInt = 0 := rfl
      have hgo : ¬ (s.initialized = false ∨ w ≤ 0 ∨ h ≤ 0) := by
        rw [hinit, Int32.le_iff_toInt_le, Int32.le_iff_toInt_le, hzero, not_or]
        exact ⟨Bool.noConfusion, hempty⟩
      rw [copyRegion, if_neg hgo]
      have hmarks := marks_markDirty (s := { s with
        mem := Moves.moveAll s.mem (rowLength v.toVideoInfo w)
          (copyRows v.toVideoInfo srcX srcY dstX dstY h) }) hs hfits
      refine hmarks.tracks (markDirty_mem _ _ _ _ _) fun px py hch => ?_
      obtain ⟨hp, k, hk, hne⟩ := hch
      by_contra hcon
      exact hne ((hshow px py hp k hk).trans (if_neg hcon))
    · have hskip : copyRegion v.toVideoInfo s srcX srcY dstX dstY w h = s :=
        if_pos (Or.inl (by simpa using hinit))
      rw [hskip]
      exact tracks_refl hs

end Screen

/-! ### Runs -/

/-- The calls of the module that draw or that keep the dirty rectangle; lines, circles, ellipses and
bitmaps are sequences of `gfx_draw_pixel`. -/
inductive Call
  | drawPixel (x y : Int32) (color : UInt32)
  | fillRect (x y w h : Int32) (color : UInt32)
  | copyRegion (srcX srcY dstX dstY w h : Int32)
  | markDirty (x y w h : Int32)
  | clearDirty

def step (v : VideoInfo) (s : State) : Call → State
  | .drawPixel x y color => drawPixel v s x y color
  | .fillRect x y w h color => fillRect v s x y w h color
  | .copyRegion srcX srcY dstX dstY w h => copyRegion v s srcX srcY dstX dstY w h
  | .markDirty x y w h => markDirty s x y w h
  | .clearDirty => clearDirty s

/-- The state and the pixels that were changed since the dirty rectangle was cleared. -/
structure History where
  state : State
  changed : ℤ → ℤ → Prop

def History.step (v : VideoInfo) (t : History) (c : Call) : History where
  state := Gfx.step v t.state c
  changed := match c with
    | .clearDirty => fun _ _ => False
    | _ => fun px py => t.changed px py ∨ Changed v t.state.mem (Gfx.step v t.state c).mem px py

/-- Calls one after the other, from a state whose dirty rectangle was cleared. -/
def History.run (v : VideoInfo) (s : State) (calls : List Call) : History :=
  calls.foldl (History.step v) ⟨clearDirty s, fun _ _ => False⟩

/-- What a call marks fits into 32-bit sums, and a region that it copies may be copied. -/
def CallFits (v : VideoInfo) (s : State) : Call → Prop
  | .drawPixel x y _ => onScreen v x y → MarkFits s x y 1 1
  | .fillRect x y w h _ =>
    0 < (clippedRect v x y w h).w.toInt → 0 < (clippedRect v x y w h).h.toInt →
      MarkFits s (clippedRect v x y w h).x (clippedRect v x y w h).y (clippedRect v x y w h).w
        (clippedRect v x y w h).h
  | .copyRegion srcX srcY dstX dstY w h =>
    0 < w.toInt → 0 < h.toInt → CopyWhen v srcX srcY dstX dstY w h ∧ MarkFits s dstX dstY w h
  | .markDirty x y w h => MarkFits s x y w h
  | .clearDirty => True

def RunFits (v : VideoInfo) : State → List Call → Prop
  | _, [] => True
  | s, c :: calls => CallFits v s c ∧ RunFits v (step v s c) calls

/-- Every pixel that was changed lies inside the dirty rectangle. -/
def DirtyLaw (t : History) : Prop := ∀ px py, t.changed px py → Covered t.state px py

namespace Screen

variable (v : Screen)

/-- **One call keeps the dirty law.** -/
theorem dirtyLaw_step {t : History} {c : Call} (hs : Sound t.state) (hlaw : DirtyLaw t)
    (hfit : CallFits v.toVideoInfo t.state c) :
    Sound (t.step v.toVideoInfo c).state ∧ DirtyLaw (t.step v.toVideoInfo c) := by
  have htracked : ∀ {s' : State}, Tracks v.toVideoInfo t.state s' →
      Sound s' ∧ ∀ px py, t.changed px py ∨ Changed v.toVideoInfo t.state.mem s'.mem px py →
        Covered s' px py := by
    intro s' htracks
    refine ⟨htracks.sound, fun px py hp => ?_⟩
    rcases hp with hbefore | hnow
    · exact htracks.kept px py (hlaw px py hbefore)
    · exact htracks.changed px py hnow
  cases c with
  | drawPixel x y color => exact htracked (v.drawPixel_tracks color hs hfit)
  | fillRect x y w h color => exact htracked (v.fillRect_tracks hs hfit)
  | copyRegion srcX srcY dstX dstY w h => exact htracked (v.copyRegion_tracks hs hfit)
  | markDirty x y w h =>
    have hmarks := marks_markDirty hs hfit
    refine htracked ⟨hmarks.sound, hmarks.kept, fun px py hch => ?_⟩
    exact absurd (congrFun (markDirty_mem t.state x y w h) _) hch.2.choose_spec.2
  | clearDirty => exact ⟨fun h => Bool.noConfusion h, fun _ _ h => h.elim⟩

variable {calls : List Call}

theorem dirtyLaw_foldl {t : History} (hs : Sound t.state) (hlaw : DirtyLaw t)
    (hfit : RunFits v.toVideoInfo t.state calls) :
    DirtyLaw (calls.foldl (History.step v.toVideoInfo) t) := by
  induction calls generalizing t with
  | nil => exact hlaw
  | cons c calls ih =>
    obtain ⟨hcall, hrest⟩ := hfit
    obtain ⟨hs', hlaw'⟩ := v.dirtyLaw_step hs hlaw hcall
    exact ih hs' hlaw' hrest

/-- **Every changed pixel is dirty** after a run whose calls fit. -/
theorem dirtyLaw_run
    (hfit : RunFits v.toVideoInfo (clearDirty s) calls) :
    DirtyLaw (History.run v.toVideoInfo s calls) :=
  v.dirtyLaw_foldl (fun h => Bool.noConfusion h) (fun _ _ h => h.elim) hfit

end Screen

/-! ### The laws of the module -/

/-- **When drawing is clipped**: filling while the sides are 32-bit coordinates, copying while both
rectangles lie on the screen; and after every run of calls whose copies are such and whose marks fit
into 32-bit sums, what was changed is dirty. -/
theorem drawing_law (v : Screen) :
    (∀ (x y w h : Int32) (color : UInt32),
      FillLaw v.toVideoInfo x y w h color ↔ FillWhen v.toVideoInfo x y w h) ∧
      (∀ srcX srcY dstX dstY w h : Int32,
        CopyLaw v.toVideoInfo srcX srcY dstX dstY w h ↔ CopyWhen v.toVideoInfo srcX srcY dstX dstY w h) ∧
        ∀ (s : State) (calls : List Call), RunFits v.toVideoInfo (clearDirty s) calls →
          DirtyLaw (History.run v.toVideoInfo s calls) :=
  ⟨v.fillLaw_iff, v.copyLaw_iff, fun _ _ hfit => v.dirtyLaw_run hfit⟩

def screen : Screen where
  width := 1024
  height := 768
  pitch := 4096
  bitsPerPixel := 32
  bytesPerPixel := 4
  depth := Or.inr (Or.inr rfl)
  bytes := by decide
  fits := by decide
  mapped := by decide

theorem drawing_law_pixel : DirtyLaw (History.run screen.toVideoInfo
    ⟨true, fun _ => 0, ⟨0, 0, 0, 0⟩, false⟩ [.drawPixel 3 4 0xff]) :=
  (drawing_law screen).2.2 _ _
    ⟨fun _ => ⟨⟨⟨by decide, by decide⟩, by decide, by decide⟩, fun h => Bool.noConfusion h⟩, trivial⟩

/-- A region that ends behind the right edge goes on in the next line. -/
theorem not_drawing_law : ¬ ∀ v : Screen,
    (∀ (x y w h : Int32) (color : UInt32), FillLaw v.toVideoInfo x y w h color) ∧
      (∀ srcX srcY dstX dstY w h : Int32, CopyLaw v.toVideoInfo srcX srcY dstX dstY w h) ∧
        ∀ (s : State) (calls : List Call), DirtyLaw (History.run v.toVideoInfo s calls) := by
  intro hlaw
  have hcopy := (hlaw screen).2.1 0 0 1020 0 8 1
  rcases (screen.copyLaw_iff 0 0 1020 0 8 1).1 hcopy with hempty | hstill | ⟨-, hdst⟩
  · exact absurd hempty (by decide)
  · have hrow := hstill _ (mem_copyRows.2 ⟨0, by decide, rfl⟩)
    exact absurd hrow (by decide)
  · exact absurd hdst.1.2 (by decide)

end Tnu.Gfx
