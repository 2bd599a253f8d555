/-
**The linear framebuffer.**

The driver draws into memory that the screen shows: a pixel of 16, 24 or 32 bits at `pitch` bytes a
row.  `framebuffer_putpixel` writes one, `framebuffer_fillrect` and `framebuffer_blit` write
rectangles, in words where they can: whole pictures when the rows have no gap, pairs of 16-bit
pixels after an odd leading one, otherwise pixel by pixel.  An operation is modelled by the stores it
makes, in order, at offsets from the address of the framebuffer; these stay below 2^64, so no two of
them are one address.

Main definitions:

* `picture` — a rectangle stored row by row.

Main results:

* `fillRow16_paints` — an odd leading pixel, pairs and an odd last one are a row;
* `Linear.fillStores_leaves`, `Linear.blitStores_leaves` — **whichever path is taken**,
  a rectangle on the screen leaves its picture.
-/

import Tnu.Lib.Paint

set_option autoImplicit false

namespace Tnu.Fb

/-! ### The framebuffer -/

inductive Kind
  | none
  | vgaText
  | linear
  deriving DecidableEq, Repr

/-- What the driver knows about the framebuffer. -/
structure Framebuffer where
  kind : Kind
  address : UInt64
  width : UInt32
  height : UInt32
  pitch : UInt32
  bpp : UInt8

/-- A store: where it goes, counted from the address of the framebuffer, and its bytes. -/
abbrev Store := ℕ × List UInt8

/-- Where a row begins, `(uint64_t)y * fb.pitch`. -/
def Framebuffer.row (fb : Framebuffer) (y : UInt32) : ℕ := y.toNat * fb.pitch.toNat

def pack565 (rgb : UInt32) : UInt16 :=
  let r := ((rgb >>> 19) &&& 0x1f).toUInt16
  let g := ((rgb >>> 10) &&& 0x3f).toUInt16
  let b := ((rgb >>> 3) &&& 0x1f).toUInt16
  (r <<< 11) ||| (g <<< 5) ||| b

def store24 (base i₀ i₁ i₂ : ℕ) (rgb : UInt32) : List Store :=
  [(base + i₀, [(rgb &&& 0xff).toUInt8]), (base + i₁, [((rgb >>> 8) &&& 0xff).toUInt8]),
    (base + i₂, [((rgb >>> 16) &&& 0xff).toUInt8])]

section Pixels

variable (fb : Framebuffer) (x y rgb : UInt32)

def writePixel32 : List Store :=
  [(fb.row y + 4 * x.toNat, Bytes.le 4 (rgb &&& 0x00ffffff).toNat)]

def writePixel24 : List Store := store24 (fb.row y + (x * 3).toNat) 0 1 2 rgb

def writePixel16 : List Store := [(fb.row y + 2 * x.toNat, Bytes.le 2 (pack565 rgb).toNat)]

/-- `framebuffer_putpixel`: what it returns and the stores it makes. -/
def putpixel : ℤ × List Store :=
  if fb.kind ≠ .linear ∨ fb.width ≤ x ∨ fb.height ≤ y then (-1, [])
  else if fb.bpp = 32 then (0, writePixel32 fb x y rgb)
  else if fb.bpp = 24 then (0, writePixel24 fb x y rgb)
  else if fb.bpp = 16 then (0, writePixel16 fb x y rgb)
  else (-1, [])

end Pixels

/-! ### Filling and copying rectangles -/

/-- `for (uint32_t i = 0; i < n; i++)`. -/
def loop (n : UInt32) (body : UInt32 → List Store) : List Store :=
  (List.range n.toNat).flatMap fun i => body (UInt32.ofNat i)

/-- `memset32`: one word after the other. -/
def memset32 (dst : ℕ) (value : UInt32) (count : ℕ) : List Store :=
  (List.range count).map fun i => (dst + 4 * i, Bytes.le 4 value.toNat)

/-- `if (start + extent > bound) extent = bound - start`. -/
def clip (start extent bound : UInt32) : UInt32 :=
  if bound < start + extent then bound - start else extent

def pack (pixel : UInt16) : UInt32 := (pixel.toUInt32 <<< 16) ||| pixel.toUInt32

def pairs16 (rowb : ℕ) (remaining : UInt32) (pixel : UInt16) : List Store :=
  memset32 rowb (pack pixel) (remaining >>> 1).toNat ++
    if remaining &&& 1 ≠ 0 then
      [(rowb + ((remaining &&& ~~~1) * 2).toNat, Bytes.le 2 pixel.toNat)]
    else []

section Rows

variable (fb : Framebuffer) (x y w rgb : UInt32) (pixel : UInt16) (src : ℕ → UInt32)

def fillRow32 : List Store := memset32 (fb.row y + 4 * x.toNat) (rgb &&& 0x00ffffff) w.toNat

def fillRow16 : List Store :=
  let start := fb.row y + (x * 2).toNat
  if (fb.address + UInt64.ofNat start) &&& 2 ≠ 0 then
    (start, Bytes.le 2 pixel.toNat) :: pairs16 (start + 2) (w - 1) pixel
  else pairs16 start w pixel

def fillRow24 : List Store :=
  loop w fun xx =>
    store24 (fb.row y + (x * 3).toNat) (xx * 3).toNat (xx * 3 + 1).toNat (xx * 3 + 2).toNat rgb

def blitRow32 : List Store :=
  loop w fun xx =>
    [(fb.row y + 4 * x.toNat + 4 * xx.toNat, Bytes.le 4 (src xx.toNat &&& 0x00ffffff).toNat)]

/-- `memcpy` of a row of words. -/
def copyRow32 : List Store :=
  [(fb.row y + 4 * x.toNat, (List.range w.toNat).flatMap fun xx => Bytes.le 4 (src xx).toNat)]

def blitRow16 : List Store :=
  loop w fun xx =>
    [(fb.row y + 2 * x.toNat + 2 * xx.toNat, Bytes.le 2 (pack565 (src xx.toNat)).toNat)]

def blitRow24 : List Store :=
  loop w fun xx =>
    store24 (fb.row y + (x * 3).toNat) (xx * 3).toNat (xx * 3 + 1).toNat (xx * 3 + 2).toNat
      (src xx.toNat)

end Rows

section Rectangles

variable (fb : Framebuffer) (x y w h : UInt32)

/-- The stores of `framebuffer_fillrect` for a rectangle that was clipped. -/
def fillStores (rgb : UInt32) : List Store :=
  if fb.bpp = 32 then
    if x = 0 ∧ w = fb.width ∧ fb.pitch = fb.width * 4 then
      memset32 (fb.row y) (rgb &&& 0x00ffffff) (w.toNat * h.toNat)
    else loop h fun yy => fillRow32 fb x (y + yy) w rgb
  else if fb.bpp = 16 then
    if x = 0 ∧ w = fb.width ∧ fb.pitch = fb.width * 2 ∧ w &&& 1 = 0 then
      memset32 (fb.row y) (pack (pack565 rgb)) ((w >>> 1).toNat * h.toNat)
    else loop h fun yy => fillRow16 fb x (y + yy) w (pack565 rgb)
  else if fb.bpp = 24 then loop h fun yy => fillRow24 fb x (y + yy) w rgb
  else loop h fun yy => loop w fun xx => (putpixel fb (x + xx) (y + yy) rgb).2

def clipped (stores : UInt32 → UInt32 → List Store) : ℤ × List Store :=
  if fb.kind ≠ .linear ∨ fb.width ≤ x ∨ fb.height ≤ y then (-1, [])
  else if clip x w fb.width = 0 ∨ clip y h fb.height = 0 then (0, [])
  else (0, stores (clip x w fb.width) (clip y h fb.height))

/-- `framebuffer_fillrect`: what it returns and the stores it makes. -/
def fillrect (rgb : UInt32) : ℤ × List Store :=
  clipped fb x y w h fun w h => fillStores fb x y w h rgb

/-- The stores of `framebuffer_blit` for a rectangle that was clipped. -/
def blitStores (pixels : ℕ → UInt32) (srcPitch : UInt32) : List Store :=
  if fb.bpp = 32 then
    loop h fun yy =>
      let src := fun xx => pixels ((yy * srcPitch).toNat + xx)
      if x = 0 ∧ w = fb.width ∧ srcPitch = fb.width then copyRow32 fb x (y + yy) w src
      else blitRow32 fb x (y + yy) w src
  else if fb.bpp = 16 then
    loop h fun yy => blitRow16 fb x (y + yy) w fun xx => pixels ((yy * srcPitch).toNat + xx)
  else if fb.bpp = 24 then
    loop h fun yy => blitRow24 fb x (y + yy) w fun xx => pixels ((yy * srcPitch).toNat + xx)
  else
    loop h fun yy => loop w fun xx =>
      (putpixel fb (x + xx) (y + yy) (pixels (yy * srcPitch + xx).toNat)).2

/-- `framebuffer_blit`, of an array that is not the framebuffer's own memory. -/
def blit (pixels : Option (ℕ → UInt32)) (srcPitch : UInt32) : ℤ × List Store :=
  match pixels with
  | none => (-1, [])
  | some pixels => clipped fb x y w h fun w h => blitStores fb x y w h pixels srcPitch

end Rectangles

/-! ### Linear framebuffers -/

def Framebuffer.unit (fb : Framebuffer) : ℕ := fb.bpp.toNat / 8

def Framebuffer.shown (fb : Framebuffer) (rgb : UInt32) : List UInt8 :=
  if fb.bpp = 32 then Bytes.le 4 (rgb &&& 0x00ffffff).toNat
  else if fb.bpp = 24 then
    [(rgb &&& 0xff).toUInt8, ((rgb >>> 8) &&& 0xff).toUInt8, ((rgb >>> 16) &&& 0xff).toUInt8]
  else Bytes.le 2 (pack565 rgb).toNat

/-- A linear framebuffer of a depth the driver draws: a row's pixels fit into its pitch. -/
structure Linear extends Framebuffer where
  isLinear : kind = .linear
  depth : bpp = 16 ∨ bpp = 24 ∨ bpp = 32
  fits : toFramebuffer.unit * width.toNat ≤ pitch.toNat

variable {fb : Framebuffer} {x y w h rgb : UInt32}

theorem unit_of_32 (hb : fb.bpp = 32) : fb.unit = 4 := by rw [Framebuffer.unit, hb]; rfl

theorem unit_of_24 (hb : fb.bpp = 24) : fb.unit = 3 := by rw [Framebuffer.unit, hb]; rfl

theorem unit_of_16 (hb : fb.bpp = 16) : fb.unit = 2 := by rw [Framebuffer.unit, hb]; rfl

theorem shown_of_32 (hb : fb.bpp = 32) (rgb : UInt32) :
    fb.shown rgb = Bytes.le 4 (rgb &&& 0x00ffffff).toNat := if_pos hb

theorem shown_of_24 (hb : fb.bpp = 24) (rgb : UInt32) :
    fb.shown rgb =
      [(rgb &&& 0xff).toUInt8, ((rgb >>> 8) &&& 0xff).toUInt8, ((rgb >>> 16) &&& 0xff).toUInt8] := by
  rw [Framebuffer.shown, hb]
  rfl

theorem shown_of_16 (hb : fb.bpp = 16) (rgb : UInt32) :
    fb.shown rgb = Bytes.le 2 (pack565 rgb).toNat := by
  rw [Framebuffer.shown, hb]
  rfl

@[simp] theorem Linear.length_shown (fb : Linear) (rgb : UInt32) :
    (fb.shown rgb).length = fb.unit := by
  rcases fb.depth with hb | hb | hb
  · rw [shown_of_16 hb, unit_of_16 hb, Bytes.length_le]
  · rw [shown_of_24 hb, unit_of_24 hb]
    rfl
  · rw [shown_of_32 hb, unit_of_32 hb, Bytes.length_le]

theorem Linear.offset_lt (fb : Linear) {n : ℕ} (hn : n ≤ fb.width.toNat) : fb.unit * n < 2 ^ 32 :=
  calc fb.unit * n ≤ fb.unit * fb.width.toNat := Nat.mul_le_mul_left _ hn
    _ ≤ fb.pitch.toNat := fb.fits
    _ < 2 ^ 32 := fb.pitch.toNat_lt

theorem toNat_mul_of_lt {x k : UInt32} (h : k.toNat * x.toNat < 2 ^ 32) :
    (x * k).toNat = k.toNat * x.toNat := by
  rw [UInt32.toNat_mul, Nat.mul_comm]
  exact Nat.mod_eq_of_lt h

theorem Linear.toNat_pitch (fb : Linear) {k : UInt32} (hpitch : fb.pitch = fb.width * k)
    (hk : k.toNat = fb.unit) : fb.pitch.toNat = fb.unit * fb.width.toNat := by
  rw [hpitch, ← hk]
  exact toNat_mul_of_lt (hk ▸ fb.offset_lt le_rfl)

theorem Linear.inside (fb : Linear) (hx : x.toNat < fb.width.toNat) (hy : y.toNat < fb.height.toNat) :
    ¬ (fb.kind ≠ .linear ∨ fb.width ≤ x ∨ fb.height ≤ y) := by
  rintro (hk | hx' | hy')
  · exact hk fb.isLinear
  · exact absurd (UInt32.le_iff_toNat_le.1 hx') (by omega)
  · exact absurd (UInt32.le_iff_toNat_le.1 hy') (by omega)

/-! ### Pixels -/

theorem store24_paints (base i : ℕ) (rgb : UInt32) :
    Bytes.Paints (store24 base i (i + 1) (i + 2) rgb) (base + i)
      [(rgb &&& 0xff).toUInt8, ((rgb >>> 8) &&& 0xff).toUInt8, ((rgb >>> 16) &&& 0xff).toUInt8] := by
  have h₁ := Bytes.paints_single (base + i) [(rgb &&& 0xff).toUInt8]
  have h₂ := Bytes.paints_single (base + (i + 1)) [((rgb >>> 8) &&& 0xff).toUInt8]
  have h₃ := Bytes.paints_single (base + (i + 2)) [((rgb >>> 16) &&& 0xff).toUInt8]
  exact h₁.append (h₂.append h₃)

/-- **A pixel that is plotted** leaves its bytes at its place. -/
theorem Linear.putpixel_paints (fb : Linear) (hx : x.toNat < fb.width.toNat)
    (hy : y.toNat < fb.height.toNat) (rgb : UInt32) :
    Bytes.Paints (putpixel fb.toFramebuffer x y rgb).2 (fb.row y + fb.unit * x.toNat)
      (fb.shown rgb) := by
  have hwrap := fb.offset_lt hx.le
  rw [putpixel, if_neg (fb.inside hx hy)]
  rcases fb.depth with hb | hb | hb
  · rw [shown_of_16 hb, unit_of_16 hb, hb]
    exact Bytes.paints_single _ _
  · rw [unit_of_24 hb] at hwrap
    have hmul : (x * 3).toNat = 3 * x.toNat := toNat_mul_of_lt hwrap
    have h := store24_paints (fb.row y + 3 * x.toNat) 0 rgb
    rw [shown_of_24 hb, unit_of_24 hb, hb, ← hmul]
    rw [← hmul] at h
    exact h
  · rw [shown_of_32 hb, unit_of_32 hb, hb]
    exact Bytes.paints_single _ _

/-! ### Rows -/

theorem loop_paints {body : UInt32 → List Store} {bytes : ℕ → List UInt8} {a k : ℕ} (n : UInt32)
    (hlen : ∀ i < n.toNat, (bytes i).length = k)
    (h : ∀ i < n.toNat, Bytes.Paints (body (UInt32.ofNat i)) (a + k * i) (bytes i)) :
    Bytes.Paints (loop n body) a ((List.range n.toNat).flatMap bytes) := Bytes.paints_cells hlen h

theorem toNat_counter {n : UInt32} {i : ℕ} (hi : i < n.toNat) : (UInt32.ofNat i).toNat = i :=
  Nat.mod_eq_of_lt (lt_trans hi n.toNat_lt)

theorem memset32_paints (dst : ℕ) (value : UInt32) (n : ℕ) :
    Bytes.Paints (memset32 dst value n) dst (List.replicate n (Bytes.le 4 value.toNat)).flatten := by
  rw [memset32, List.map_eq_flatMap, ← Bytes.flatMap_range_const]
  exact Bytes.paints_cells (fun _ _ => Bytes.length_le 4 _) fun i _ => Bytes.paints_single _ _

theorem toNat_pack (pixel : UInt16) : (pack pixel).toNat = pixel.toNat + 65536 * pixel.toNat := by
  have hlt := pixel.toNat_lt
  have hshift : pixel.toNat <<< 16 < 2 ^ 32 := by
    rw [Nat.shiftLeft_eq]
    omega
  rw [pack, UInt32.toNat_or, UInt32.toNat_shiftLeft, UInt16.toNat_toUInt32]
  change pixel.toNat <<< 16 % 2 ^ 32 ||| pixel.toNat = _
  rw [Nat.mod_eq_of_lt hshift, ← Nat.shiftLeft_add_eq_or_of_lt hlt, Nat.shiftLeft_eq]
  omega

theorem le_pack (pixel : UInt16) :
    Bytes.le 4 (pack pixel).toNat = Bytes.le 2 pixel.toNat ++ Bytes.le 2 pixel.toNat := by
  have hlt := pixel.toNat_lt
  have h₁ : (pixel.toNat + 65536 * pixel.toNat) % 256 = pixel.toNat % 256 := by omega
  have h₂ : (pixel.toNat + 65536 * pixel.toNat) / 256 % 256 = pixel.toNat / 256 % 256 := by omega
  have h₃ : (pixel.toNat + 65536 * pixel.toNat) / 256 / 256 = pixel.toNat := by omega
  rw [toNat_pack]
  simp only [Bytes.le, h₁, h₂, h₃, List.cons_append, List.nil_append]

theorem toNat_half (n : UInt32) : (n >>> 1).toNat = n.toNat / 2 := by
  rw [UInt32.toNat_shiftRight]
  exact Nat.shiftRight_eq_div_pow _ 1

theorem and_one_ne_zero (n : UInt32) : n &&& 1 ≠ 0 ↔ n.toNat % 2 = 1 := by
  rw [Ne, ← UInt32.toNat_inj, UInt32.toNat_and]
  simp [Nat.and_one_is_mod]

theorem toNat_even (n : UInt32) : (n &&& ~~~(1 : UInt32)).toNat = 2 * (n.toNat / 2) := by
  have hshift : n &&& ~~~(1 : UInt32) = (n >>> 1) <<< 1 := by
    rw [← UInt32.toBitVec_inj]
    ext i hi
    have hone : (1 : UInt32).toBitVec = BitVec.twoPow 32 0 := rfl
    rw [UInt32.toBitVec_and, UInt32.toBitVec_not, hone]
    by_cases h0 : i = 0
    · simp [h0]
    · have hi1 : 1 + (i - 1) = i := by omega
      simp [h0, hi1, hi, BitVec.getLsbD_eq_getElem]
  have hlt := n.toNat_lt
  rw [hshift, UInt32.toNat_shiftLeft, toNat_half, Nat.shiftLeft_eq]
  change n.toNat / 2 * 2 % 2 ^ 32 = _
  omega

theorem pairs16_paints {rowb : ℕ} {remaining : UInt32} {pixel : UInt16}
    (hfit : 2 * remaining.toNat < 2 ^ 32) :
    Bytes.Paints (pairs16 rowb remaining pixel) rowb
      (List.replicate remaining.toNat (Bytes.le 2 pixel.toNat)).flatten := by
  have hpairs := memset32_paints rowb (pack pixel) (remaining >>> 1).toNat
  rw [le_pack, Bytes.flatten_replicate_double, toNat_half] at hpairs
  have hlen : (List.replicate (2 * (remaining.toNat / 2)) (Bytes.le 2 pixel.toNat)).flatten.length =
      2 * (2 * (remaining.toNat / 2)) := by simp [Nat.mul_comm]
  rw [pairs16, toNat_half]
  by_cases hodd : remaining &&& 1 ≠ 0
  · have hmod := (and_one_ne_zero remaining).1 hodd
    have hlast : ((remaining &&& ~~~1) * 2).toNat = 2 * (2 * (remaining.toNat / 2)) := by
      rw [UInt32.toNat_mul, toNat_even, Nat.mul_comm]
      exact Nat.mod_eq_of_lt (by change 2 * (2 * (remaining.toNat / 2)) < _; omega)
    have hn : remaining.toNat = 2 * (remaining.toNat / 2) + 1 := by omega
    rw [if_pos hodd, hlast]
    refine (hpairs.append ((Bytes.paints_single _ _).of_eq (by rw [hlen]) rfl)).of_eq rfl ?_
    conv_rhs => rw [hn]
    rw [List.replicate_succ', List.flatten_append, List.flatten_singleton]
  · have hmod : ¬ remaining.toNat % 2 = 1 := fun h => hodd ((and_one_ne_zero remaining).2 h)
    rw [if_neg hodd, List.append_nil]
    refine hpairs.of_eq rfl ?_
    congr 2
    omega

theorem fillRow32_paints (hb : fb.bpp = 32) :
    Bytes.Paints (fillRow32 fb x y w rgb) (fb.row y + fb.unit * x.toNat)
      ((List.range w.toNat).flatMap fun _ => fb.shown rgb) := by
  rw [unit_of_32 hb, shown_of_32 hb, Bytes.flatMap_range_const]
  exact memset32_paints _ _ _

theorem fillRow16_paints (hb : fb.bpp = 16) (hw : w ≠ 0)
    (hfit : fb.unit * (x.toNat + w.toNat) < 2 ^ 32) :
    Bytes.Paints (fillRow16 fb x y w (pack565 rgb)) (fb.row y + fb.unit * x.toNat)
      ((List.range w.toNat).flatMap fun _ => fb.shown rgb) := by
  rw [unit_of_16 hb] at hfit ⊢
  rw [shown_of_16 hb, Bytes.flatMap_range_const]
  have hstart : (x * 2).toNat = 2 * x.toNat :=
    toNat_mul_of_lt (by change 2 * x.toNat < _; omega)
  have hpos : 0 < w.toNat := Nat.pos_of_ne_zero fun h0 => hw (UInt32.toNat_inj.1 h0)
  have hless : (w - 1).toNat = w.toNat - 1 :=
    UInt32.toNat_sub_of_le w 1 (UInt32.le_iff_toNat_le.2 hpos)
  rw [fillRow16, hstart]
  split_ifs with hodd
  · have hhead := Bytes.paints_single (fb.row y + 2 * x.toNat) (Bytes.le 2 (pack565 rgb).toNat)
    have hrest : Bytes.Paints (pairs16 (fb.row y + 2 * x.toNat + 2) (w - 1) (pack565 rgb)) _ _ :=
      pairs16_paints (by omega)
    refine (hhead.append (hrest.of_eq (by rw [Bytes.length_le]) rfl)).of_eq rfl ?_
    rw [hless, ← List.flatten_cons, ← List.replicate_succ, Nat.sub_add_cancel hpos]
  · exact pairs16_paints (by omega)

theorem cells24_paints (hb : fb.bpp = 24) (c : ℕ → UInt32)
    (hfit : fb.unit * (x.toNat + w.toNat) < 2 ^ 32) :
    Bytes.Paints (blitRow24 fb x y w c) (fb.row y + fb.unit * x.toNat)
      ((List.range w.toNat).flatMap fun xx => fb.shown (c xx)) := by
  rw [unit_of_24 hb] at hfit ⊢
  have hstart : (x * 3).toNat = 3 * x.toNat :=
    toNat_mul_of_lt (by change 3 * x.toNat < _; omega)
  rw [blitRow24, hstart]
  refine loop_paints (k := 3) w (fun i _ => ?_) fun i hi => ?_
  · rw [shown_of_24 hb]
    rfl
  · have hmul : (UInt32.ofNat i * 3).toNat = 3 * i := by
      rw [UInt32.toNat_mul, toNat_counter hi, Nat.mul_comm]
      exact Nat.mod_eq_of_lt (by change 3 * i < _; omega)
    have hone : (UInt32.ofNat i * 3 + 1).toNat = 3 * i + 1 := by
      rw [UInt32.toNat_add, hmul]
      exact Nat.mod_eq_of_lt (by change 3 * i + 1 < _; omega)
    have htwo : (UInt32.ofNat i * 3 + 2).toNat = 3 * i + 2 := by
      rw [UInt32.toNat_add, hmul]
      exact Nat.mod_eq_of_lt (by change 3 * i + 2 < _; omega)
    rw [hmul, hone, htwo, toNat_counter hi, shown_of_24 hb]
    exact store24_paints _ _ _

theorem blitRow32_paints (hb : fb.bpp = 32) (c : ℕ → UInt32) :
    Bytes.Paints (blitRow32 fb x y w c) (fb.row y + fb.unit * x.toNat)
      ((List.range w.toNat).flatMap fun xx => fb.shown (c xx)) := by
  rw [unit_of_32 hb]
  refine loop_paints (k := 4) w (fun i _ => ?_) fun i hi => ?_
  · rw [shown_of_32 hb, Bytes.length_le]
  · rw [toNat_counter hi, shown_of_32 hb]
    exact Bytes.paints_single _ _

theorem blitRow16_paints (hb : fb.bpp = 16) (c : ℕ → UInt32) :
    Bytes.Paints (blitRow16 fb x y w c) (fb.row y + fb.unit * x.toNat)
      ((List.range w.toNat).flatMap fun xx => fb.shown (c xx)) := by
  rw [unit_of_16 hb]
  refine loop_paints (k := 2) w (fun i _ => ?_) fun i hi => ?_
  · rw [shown_of_16 hb, Bytes.length_le]
  · rw [toNat_counter hi, shown_of_16 hb]
    exact Bytes.paints_single _ _

/-! ### Pictures -/

def rowAt (fb : Framebuffer) (x y yy : ℕ) : ℕ := (y + yy) * fb.pitch.toNat + fb.unit * x

def rowBytes (fb : Framebuffer) (w : ℕ) (c : ℕ → UInt32) : List UInt8 :=
  (List.range w).flatMap fun xx => fb.shown (c xx)

def picture (fb : Framebuffer) (x y h : ℕ) (rows : ℕ → List UInt8) : List Store :=
  (List.range h).flatMap fun yy => [(rowAt fb x y yy, rows yy)]

theorem Linear.length_rowBytes (fb : Linear) (w : ℕ) (c : ℕ → UInt32) :
    (rowBytes fb.toFramebuffer w c).length = fb.unit * w :=
  Bytes.length_flatMap_range fun _ _ => fb.length_shown _

theorem rowBytes_const (fb : Framebuffer) (w : ℕ) (rgb : UInt32) :
    rowBytes fb w (fun _ => rgb) = (List.replicate w (fb.shown rgb)).flatten :=
  Bytes.flatMap_range_const _ _

theorem toNat_add_counter {yy : ℕ} (hfit : y.toNat + yy < 2 ^ 32) :
    (y + UInt32.ofNat yy).toNat = y.toNat + yy := by
  have hyy : (UInt32.ofNat yy).toNat = yy := Nat.mod_eq_of_lt (by omega)
  rw [UInt32.toNat_add, hyy]
  exact Nat.mod_eq_of_lt hfit

theorem loop_leaves {body : UInt32 → List Store} {rows : ℕ → List UInt8}
    (hfit : y.toNat + h.toNat ≤ fb.height.toNat)
    (hrow : ∀ y' : UInt32, ∀ yy < h.toNat, y' = y + UInt32.ofNat yy →
      Bytes.Paints (body (UInt32.ofNat yy)) (fb.row y' + fb.unit * x.toNat) (rows yy))
    (f : ℕ → UInt8) :
    Bytes.copyAll f (loop h body) = Bytes.copyAll f (picture fb x.toNat y.toNat h.toNat rows) := by
  refine Bytes.copyAll_flatMap_congr (fun yy hyy f => ?_) f
  have hlt := List.mem_range.1 hyy
  have hbound := fb.height.toNat_lt
  have hat := hrow _ yy hlt rfl f
  rw [Framebuffer.row, toNat_add_counter (by omega)] at hat
  exact hat

theorem Linear.whole_leaves (fb : Linear) {ws : List Store} (hpitch : fb.pitch.toNat = fb.unit * w.toNat)
    (hws : Bytes.Paints ws (fb.row y)
      (List.replicate (w.toNat * h.toNat) (fb.shown rgb)).flatten) (f : ℕ → UInt8) :
    Bytes.copyAll f ws = Bytes.copyAll f (picture fb.toFramebuffer (0 : UInt32).toNat y.toNat h.toNat fun _ =>
      rowBytes fb.toFramebuffer w.toNat fun _ => rgb) := by
  have hrows : Bytes.Paints (picture fb.toFramebuffer (0 : UInt32).toNat y.toNat h.toNat fun _ =>
      rowBytes fb.toFramebuffer w.toNat fun _ => rgb) (fb.row y)
      ((List.range h.toNat).flatMap fun _ => rowBytes fb.toFramebuffer w.toNat fun _ => rgb) := by
    refine Bytes.paints_cells (k := fb.unit * w.toNat) (fun _ _ => fb.length_rowBytes _ _)
      fun yy _ => (Bytes.paints_single _ _).of_eq ?_ rfl
    change (y.toNat + yy) * fb.pitch.toNat + fb.unit * 0 = y.toNat * fb.pitch.toNat + _
    rw [Nat.add_mul, Nat.mul_zero, Nat.add_zero, ← hpitch, Nat.mul_comm yy]
  rw [Bytes.flatMap_range_const, rowBytes_const, Bytes.flatten_replicate_mul] at hrows
  rw [hws f, rowBytes_const, hrows f]

/-- **Filling leaves the picture**: whichever way a rectangle on the screen is filled. -/
theorem Linear.fillStores_leaves (fb : Linear) (hw : w ≠ 0)
    (hx : x.toNat + w.toNat ≤ fb.width.toNat) (hy : y.toNat + h.toNat ≤ fb.height.toNat)
    (f : ℕ → UInt8) :
    Bytes.copyAll f (fillStores fb.toFramebuffer x y w h rgb) =
      Bytes.copyAll f (picture fb.toFramebuffer x.toNat y.toNat h.toNat fun _ =>
        rowBytes fb.toFramebuffer w.toNat fun _ => rgb) := by
  have hwrap := fb.offset_lt hx
  rcases fb.depth with hb | hb | hb
  · have h32 : fb.bpp ≠ 32 := by rw [hb]; decide
    rw [fillStores, if_neg h32, if_pos hb]
    split_ifs with hfast
    · obtain ⟨rfl, rfl, hpitch, heven⟩ := hfast
      have hmod : ¬ fb.width.toNat % 2 = 1 := fun h => (and_one_ne_zero _).2 h heven
      have hpairs := memset32_paints (fb.row y) (pack (pack565 rgb)) ((fb.width >>> 1).toNat * h.toNat)
      rw [le_pack, Bytes.flatten_replicate_double, toNat_half, ← Nat.mul_assoc] at hpairs
      refine fb.whole_leaves (fb.toNat_pitch hpitch (unit_of_16 hb).symm) ?_ f
      rw [shown_of_16 hb, toNat_half]
      refine hpairs.of_eq rfl ?_
      congr 3
      omega
    · exact loop_leaves hy (fun y' yy _ hy' => hy' ▸ fillRow16_paints hb hw hwrap) f
  · have h32 : fb.bpp ≠ 32 := by rw [hb]; decide
    have h16 : fb.bpp ≠ 16 := by rw [hb]; decide
    rw [fillStores, if_neg h32, if_neg h16, if_pos hb]
    exact loop_leaves hy (fun y' yy _ hy' => hy' ▸ cells24_paints hb (fun _ => rgb) hwrap) f
  · rw [fillStores, if_pos hb]
    split_ifs with hfast
    · obtain ⟨rfl, rfl, hpitch⟩ := hfast
      refine fb.whole_leaves (fb.toNat_pitch hpitch (unit_of_32 hb).symm) ?_ f
      rw [shown_of_32 hb]
      exact memset32_paints _ _ _
    · exact loop_leaves hy (fun y' yy _ hy' => hy' ▸ fillRow32_paints hb) f

/-! ### Copying a rectangle -/

section Blit

variable (pixels : ℕ → UInt32) (srcPitch : UInt32)

/-- The pixel of the array that belongs at a place of the rectangle. -/
def pixelAt (yy xx : ℕ) : UInt32 := pixels (yy * srcPitch.toNat + xx)

/-- The pixel of the array that is read there: the index of a row is a 32-bit word. -/
def pixelRead (yy xx : ℕ) : UInt32 := pixels (yy * srcPitch.toNat % 2 ^ 32 + xx)

/-- A row as it is stored, copied without masking when the rows are as wide as the screen. -/
def blitBytes (fb : Framebuffer) (x w : UInt32) (yy : ℕ) : List UInt8 :=
  if fb.bpp = 32 ∧ x = 0 ∧ w = fb.width ∧ srcPitch = fb.width then
    (List.range w.toNat).flatMap fun xx => Bytes.le 4 (pixelRead pixels srcPitch yy xx).toNat
  else rowBytes fb w.toNat (pixelRead pixels srcPitch yy)

end Blit

variable {pixels : ℕ → UInt32} {srcPitch : UInt32}

theorem toNat_source {yy : ℕ} (hyy : yy < h.toNat) :
    (UInt32.ofNat yy * srcPitch).toNat = yy * srcPitch.toNat % 2 ^ 32 := by
  rw [UInt32.toNat_mul, toNat_counter hyy]

/-- **Copying leaves the picture** of the rows as they are stored. -/
theorem Linear.blitStores_leaves (fb : Linear) (hx : x.toNat + w.toNat ≤ fb.width.toNat)
    (hy : y.toNat + h.toNat ≤ fb.height.toNat) (f : ℕ → UInt8) :
    Bytes.copyAll f (blitStores fb.toFramebuffer x y w h pixels srcPitch) =
      Bytes.copyAll f (picture fb.toFramebuffer x.toNat y.toNat h.toNat
        (blitBytes pixels srcPitch fb.toFramebuffer x w)) := by
  have hwrap := fb.offset_lt hx
  rcases fb.depth with hb | hb | hb
  · have h32 : fb.bpp ≠ 32 := by rw [hb]; decide
    rw [blitStores, if_neg h32, if_pos hb]
    refine loop_leaves hy (fun y' yy hyy hy' => ?_) f
    rw [hy', toNat_source hyy, blitBytes, if_neg (fun h => h32 h.1)]
    exact blitRow16_paints hb _
  · have h32 : fb.bpp ≠ 32 := by rw [hb]; decide
    have h16 : fb.bpp ≠ 16 := by rw [hb]; decide
    rw [blitStores, if_neg h32, if_neg h16, if_pos hb]
    refine loop_leaves hy (fun y' yy hyy hy' => ?_) f
    rw [hy', toNat_source hyy, blitBytes, if_neg (fun h => h32 h.1)]
    exact cells24_paints hb _ hwrap
  · rw [blitStores, if_pos hb]
    refine loop_leaves hy (fun y' yy hyy hy' => ?_) f
    dsimp only
    rw [hy', toNat_source hyy, blitBytes]
    by_cases hfast : x = 0 ∧ w = fb.width ∧ srcPitch = fb.width
    · rw [if_pos hfast, if_pos ⟨hb, hfast⟩, unit_of_32 hb]
      exact Bytes.paints_single _ _
    · rw [if_neg hfast, if_neg fun h => hfast h.2]
      exact blitRow32_paints hb _

end Tnu.Fb
