import AuroraOS.Lib.Int32

/-!
# The back buffer

The drawing primitives of `kernel/gfx.c` that the syscalls of programs use, with the 32-bit
arithmetic of the source. The back buffer is indexed as in the source; an index outside the array
is other memory.

## Main definitions

- `Display` — the screen size and the font scale
- `gfxPutpixel`, `gfxFillRect`, `gfxDrawChar`, `gfxDrawString`
- `Confined` — two buffers agree on all pixels outside a region

## Main results

- `gfxFillRect_apply`
- `drawString_confined`
-/

namespace AuroraOS.Gfx

open AuroraOS.Lib

/-- `gfx_color_t`. -/
abbrev GfxColor := UInt32

/-- `screen_w`, `screen_h` and `glyph_scale`, within the limits of `gfx_init` and
    `gfx_set_font_scale`. -/
structure Display where
  screenW : ℤ
  screenH : ℤ
  glyphScale : ℤ
  screenW_nonneg : 0 ≤ screenW
  screenH_nonneg : 0 ≤ screenH
  screenW_le : screenW ≤ 1920
  screenH_le : screenH ≤ 1080
  glyphScale_pos : 1 ≤ glyphScale
  glyphScale_fits : Fits32 glyphScale

theorem unitScale_pos : 1 ≤ (1 : ℤ) := le_rfl

theorem unitScale_fits : Fits32 1 := by decide

/-- `back_buffer` and the memory around it. -/
abbrev BackBuffer := ℤ → GfxColor

/-- The pixel is on the screen. -/
def Display.Has (g : Display) (x y : ℤ) : Prop := (0 ≤ x ∧ x < g.screenW) ∧ 0 ≤ y ∧ y < g.screenH

/-- The index of a pixel. -/
def Display.index (g : Display) (x y : ℤ) : ℤ := y * g.screenW + x

/-- `gfx_putpixel`. -/
def gfxPutpixel (g : Display) (x y : ℤ) (color : GfxColor) (buf : BackBuffer) : BackBuffer :=
  if x < 0 ∨ y < 0 ∨ x ≥ g.screenW ∨ y ≥ g.screenH then buf
  else Function.update buf (y * g.screenW + x) color

/-- `n` entries from `start` on get the color. -/
def fillRow (start : ℤ) (n : ℕ) (color : GfxColor) (buf : BackBuffer) : BackBuffer :=
  (List.range n).foldl (fun buf (xx : ℕ) => Function.update buf (start + xx) color) buf

/-- `gfx_fill_rect`. -/
def gfxFillRect (g : Display) (x y w h : ℤ) (color : GfxColor) (buf : BackBuffer) : BackBuffer :=
  let x0 := if x < 0 then 0 else x
  let y0 := if y < 0 then 0 else y
  let x1 := if wrap32 (x + w) > g.screenW then g.screenW else wrap32 (x + w)
  let y1 := if wrap32 (y + h) > g.screenH then g.screenH else wrap32 (y + h)
  (List.range (y1 - y0).toNat).foldl (fun buf (r : ℕ) =>
    fillRow (wrap32 ((y0 + r) * g.screenW + x0)) (wrap32 (x1 - x0)).toNat color buf) buf

/-- `font8x8_basic`. -/
def font8x8Basic : List (List ℕ) :=
  [[0x00, 0x00, 0x00, 0x00, 0x00, 0x00, 0x00, 0x00],
   [0x18, 0x18, 0x18, 0x18, 0x18, 0x00, 0x18, 0x00],
   [0x6C, 0x6C, 0x6C, 0x00, 0x00, 0x00, 0x00, 0x00],
   [0x36, 0x36, 0x7F, 0x36, 0x7F, 0x36, 0x36, 0x00],
   [0x18, 0x3E, 0x60, 0x3C, 0x06, 0x7C, 0x18, 0x00],
   [0x00, 0x63, 0x66, 0x0C, 0x18, 0x33, 0x63, 0x00],
   [0x1C, 0x36, 0x1C, 0x3B, 0x6E, 0x66, 0x3B, 0x00],
   [0x18, 0x18, 0x30, 0x00, 0x00, 0x00, 0x00, 0x00],
   [0x0C, 0x18, 0x30, 0x30, 0x30, 0x18, 0x0C, 0x00],
   [0x30, 0x18, 0x0C, 0x0C, 0x0C, 0x18, 0x30, 0x00],
   [0x00, 0x66, 0x3C, 0xFF, 0x3C, 0x66, 0x00, 0x00],
   [0x00, 0x18, 0x18, 0x7E, 0x18, 0x18, 0x00, 0x00],
   [0x00, 0x00, 0x00, 0x00, 0x00, 0x18, 0x18, 0x30],
   [0x00, 0x00, 0x00, 0x7E, 0x00, 0x00, 0x00, 0x00],
   [0x00, 0x00, 0x00, 0x00, 0x00, 0x18, 0x18, 0x00],
   [0x03, 0x06, 0x0C, 0x18, 0x30, 0x60, 0x40, 0x00],
   [0x3E, 0x63, 0x67, 0x6B, 0x73, 0x63, 0x3E, 0x00],
   [0x18, 0x38, 0x18, 0x18, 0x18, 0x18, 0x7E, 0x00],
   [0x3E, 0x63, 0x03, 0x0E, 0x38, 0x60, 0x7F, 0x00],
   [0x3E, 0x63, 0x03, 0x1E, 0x03, 0x63, 0x3E, 0x00],
   [0x06, 0x0E, 0x1E, 0x36, 0x66, 0x7F, 0x06, 0x00],
   [0x7F, 0x60, 0x7E, 0x03, 0x03, 0x63, 0x3E, 0x00],
   [0x1E, 0x30, 0x60, 0x7E, 0x63, 0x63, 0x3E, 0x00],
   [0x7F, 0x63, 0x06, 0x0C, 0x18, 0x18, 0x18, 0x00],
   [0x3E, 0x63, 0x63, 0x3E, 0x63, 0x63, 0x3E, 0x00],
   [0x3E, 0x63, 0x63, 0x3F, 0x03, 0x06, 0x3C, 0x00],
   [0x00, 0x18, 0x18, 0x00, 0x00, 0x18, 0x18, 0x00],
   [0x00, 0x18, 0x18, 0x00, 0x00, 0x18, 0x18, 0x30],
   [0x0E, 0x18, 0x30, 0x60, 0x30, 0x18, 0x0E, 0x00],
   [0x00, 0x00, 0x7E, 0x00, 0x7E, 0x00, 0x00, 0x00],
   [0x70, 0x18, 0x0C, 0x06, 0x0C, 0x18, 0x70, 0x00],
   [0x3E, 0x63, 0x06, 0x0C, 0x0C, 0x00, 0x0C, 0x00],
   [0x3E, 0x63, 0x6F, 0x6B, 0x6E, 0x60, 0x3E, 0x00],
   [0x1C, 0x36, 0x63, 0x63, 0x7F, 0x63, 0x63, 0x00],
   [0x7E, 0x63, 0x63, 0x7E, 0x63, 0x63, 0x7E, 0x00],
   [0x3E, 0x63, 0x60, 0x60, 0x60, 0x63, 0x3E, 0x00],
   [0x7C, 0x66, 0x63, 0x63, 0x63, 0x66, 0x7C, 0x00],
   [0x7F, 0x60, 0x60, 0x7C, 0x60, 0x60, 0x7F, 0x00],
   [0x7F, 0x60, 0x60, 0x7C, 0x60, 0x60, 0x60, 0x00],
   [0x3E, 0x63, 0x60, 0x6F, 0x63, 0x63, 0x3E, 0x00],
   [0x63, 0x63, 0x63, 0x7F, 0x63, 0x63, 0x63, 0x00],
   [0x3C, 0x18, 0x18, 0x18, 0x18, 0x18, 0x3C, 0x00],
   [0x1F, 0x06, 0x06, 0x06, 0x06, 0x66, 0x3C, 0x00],
   [0x63, 0x66, 0x6C, 0x78, 0x6C, 0x66, 0x63, 0x00],
   [0x60, 0x60, 0x60, 0x60, 0x60, 0x60, 0x7F, 0x00],
   [0x63, 0x77, 0x7F, 0x6B, 0x63, 0x63, 0x63, 0x00],
   [0x63, 0x73, 0x7B, 0x6F, 0x67, 0x63, 0x63, 0x00],
   [0x3E, 0x63, 0x63, 0x63, 0x63, 0x63, 0x3E, 0x00],
   [0x7E, 0x63, 0x63, 0x7E, 0x60, 0x60, 0x60, 0x00],
   [0x3E, 0x63, 0x63, 0x63, 0x6B, 0x6E, 0x3D, 0x00],
   [0x7E, 0x63, 0x63, 0x7E, 0x6C, 0x66, 0x63, 0x00],
   [0x3E, 0x63, 0x60, 0x3E, 0x03, 0x63, 0x3E, 0x00],
   [0x7E, 0x18, 0x18, 0x18, 0x18, 0x18, 0x18, 0x00],
   [0x63, 0x63, 0x63, 0x63, 0x63, 0x63, 0x3E, 0x00],
   [0x63, 0x63, 0x63, 0x63, 0x63, 0x36, 0x1C, 0x00],
   [0x63, 0x63, 0x63, 0x6B, 0x7F, 0x77, 0x63, 0x00],
   [0x63, 0x63, 0x36, 0x1C, 0x36, 0x63, 0x63, 0x00],
   [0x66, 0x66, 0x66, 0x3C, 0x18, 0x18, 0x18, 0x00],
   [0x7F, 0x03, 0x06, 0x1C, 0x30, 0x60, 0x7F, 0x00],
   [0x3C, 0x30, 0x30, 0x30, 0x30, 0x30, 0x3C, 0x00],
   [0x40, 0x60, 0x30, 0x18, 0x0C, 0x06, 0x03, 0x00],
   [0x3C, 0x0C, 0x0C, 0x0C, 0x0C, 0x0C, 0x3C, 0x00],
   [0x08, 0x1C, 0x36, 0x63, 0x00, 0x00, 0x00, 0x00],
   [0x00, 0x00, 0x00, 0x00, 0x00, 0x00, 0x00, 0xFF],
   [0x30, 0x18, 0x0C, 0x00, 0x00, 0x00, 0x00, 0x00],
   [0x00, 0x00, 0x3C, 0x06, 0x3E, 0x66, 0x3B, 0x00],
   [0x60, 0x60, 0x7C, 0x66, 0x66, 0x66, 0x7C, 0x00],
   [0x00, 0x00, 0x3E, 0x60, 0x60, 0x60, 0x3E, 0x00],
   [0x06, 0x06, 0x3E, 0x66, 0x66, 0x66, 0x3E, 0x00],
   [0x00, 0x00, 0x3C, 0x66, 0x7E, 0x60, 0x3E, 0x00],
   [0x0E, 0x18, 0x3E, 0x18, 0x18, 0x18, 0x18, 0x00],
   [0x00, 0x00, 0x3B, 0x66, 0x66, 0x3E, 0x06, 0x7C],
   [0x60, 0x60, 0x7C, 0x66, 0x66, 0x66, 0x66, 0x00],
   [0x18, 0x00, 0x38, 0x18, 0x18, 0x18, 0x3C, 0x00],
   [0x06, 0x00, 0x06, 0x06, 0x06, 0x66, 0x66, 0x3C],
   [0x60, 0x60, 0x66, 0x6C, 0x78, 0x6C, 0x66, 0x00],
   [0x38, 0x18, 0x18, 0x18, 0x18, 0x18, 0x3C, 0x00],
   [0x00, 0x00, 0x66, 0x7F, 0x7F, 0x6B, 0x63, 0x00],
   [0x00, 0x00, 0x7C, 0x66, 0x66, 0x66, 0x66, 0x00],
   [0x00, 0x00, 0x3C, 0x66, 0x66, 0x66, 0x3C, 0x00],
   [0x00, 0x00, 0x7C, 0x66, 0x66, 0x7C, 0x60, 0x60],
   [0x00, 0x00, 0x3E, 0x66, 0x66, 0x3E, 0x06, 0x06],
   [0x00, 0x00, 0x6E, 0x73, 0x60, 0x60, 0x60, 0x00],
   [0x00, 0x00, 0x3E, 0x60, 0x3C, 0x06, 0x7C, 0x00],
   [0x18, 0x18, 0x7E, 0x18, 0x18, 0x18, 0x0E, 0x00],
   [0x00, 0x00, 0x66, 0x66, 0x66, 0x66, 0x3B, 0x00],
   [0x00, 0x00, 0x66, 0x66, 0x66, 0x3C, 0x18, 0x00],
   [0x00, 0x00, 0x63, 0x6B, 0x7F, 0x7F, 0x36, 0x00],
   [0x00, 0x00, 0x63, 0x36, 0x1C, 0x36, 0x63, 0x00],
   [0x00, 0x00, 0x66, 0x66, 0x66, 0x3E, 0x06, 0x7C],
   [0x00, 0x00, 0x7E, 0x0C, 0x18, 0x30, 0x7E, 0x00],
   [0x0E, 0x18, 0x18, 0x70, 0x18, 0x18, 0x0E, 0x00],
   [0x18, 0x18, 0x18, 0x00, 0x18, 0x18, 0x18, 0x00],
   [0x70, 0x18, 0x18, 0x0E, 0x18, 0x18, 0x70, 0x00],
   [0x3B, 0x6E, 0x00, 0x00, 0x00, 0x00, 0x00, 0x00]]

/-- `font8x8_get_glyph`. -/
def font8x8GetGlyph (c : UInt8) : List ℕ :=
  let uc := if c < 0x20 ∨ c > 0x7E then 0x3F else c
  font8x8Basic.getD (uc - 0x20).toNat []

/-- The bit for a row and a column of a glyph is set. -/
def glyphBit (c : UInt8) (row col : ℕ) : Bool :=
  (font8x8GetGlyph c).getD row 0 &&& (0x80 >>> col) != 0

/-- The rows and columns of a glyph, in the order of the two loops. -/
def glyphCells : List (ℕ × ℕ) :=
  (List.range 8).flatMap fun row => (List.range 8).map fun col => (row, col)

/-- A block of the fast path of `gfx_draw_char`. -/
def glyphBlock (g : Display) (px py : ℤ) (fg : GfxColor) (buf : BackBuffer) : BackBuffer :=
  (List.range g.glyphScale.toNat).foldl (fun buf (yy : ℕ) =>
    fillRow (wrap32 ((py + yy) * g.screenW + px)) g.glyphScale.toNat fg buf) buf

/-- `gfx_draw_char`. -/
def gfxDrawChar (g : Display) (x y : ℤ) (c : UInt8) (fg : GfxColor) (buf : BackBuffer) :
    BackBuffer :=
  let size := wrap32 (8 * g.glyphScale)
  let px (col : ℕ) := wrap32 (x + col * g.glyphScale)
  let py (row : ℕ) := wrap32 (y + row * g.glyphScale)
  if x ≥ 0 ∧ y ≥ 0 ∧ wrap32 (x + size) ≤ g.screenW ∧ wrap32 (y + size) ≤ g.screenH then
    glyphCells.foldl (fun buf p =>
      if glyphBit c p.1 p.2 then glyphBlock g (px p.2) (py p.1) fg buf else buf) buf
  else
    glyphCells.foldl (fun buf p =>
      if glyphBit c p.1 p.2 then
        gfxFillRect g (px p.2) (py p.1) g.glyphScale g.glyphScale fg buf
      else buf) buf

/-- `gfx_char_width` and `gfx_char_height`. -/
def gfxCharSize (g : Display) : ℤ := wrap32 (8 * g.glyphScale)

/-- The loop of `gfx_draw_string`: the memory from `*s` on, and the position of the next
    character. -/
def drawStringLoop (g : Display) (x : ℤ) (fg : GfxColor) : List UInt8 → ℤ → ℤ →
    BackBuffer → BackBuffer
  | [], _, _, buf => buf
  | c :: s, cx, y, buf =>
    if c = 0 then buf
    else if c = 0x0A then drawStringLoop g x fg s x (wrap32 (y + gfxCharSize g)) buf
    else drawStringLoop g x fg s (wrap32 (cx + gfxCharSize g)) y (gfxDrawChar g cx y c fg buf)

/-- `gfx_draw_string`. -/
def gfxDrawString (g : Display) (x y : ℤ) (s : List UInt8) (fg : GfxColor) (buf : BackBuffer) :
    BackBuffer :=
  drawStringLoop g x fg s x y buf

/-- The buffers agree on all pixels of the screen outside the region. -/
def Confined (g : Display) (inside : ℤ → ℤ → Prop) (buf buf' : BackBuffer) : Prop :=
  ∀ x y, g.Has x y → ¬ inside x y → buf' (g.index x y) = buf (g.index x y)

section pixels

variable {g : Display} {inside : ℤ → ℤ → Prop} {buf buf' buf'' : BackBuffer} {color : GfxColor}

theorem Confined.refl : Confined g inside buf buf := fun _ _ _ _ => rfl

theorem Confined.trans (h₁ : Confined g inside buf buf') (h₂ : Confined g inside buf' buf'') :
    Confined g inside buf buf'' :=
  fun x y hp hin => (h₂ x y hp hin).trans (h₁ x y hp hin)

/-- A loop whose body is confined. -/
theorem Confined.foldl {α : Type} {f : BackBuffer → α → BackBuffer} {l : List α}
    (h : ∀ buf, ∀ a ∈ l, Confined g inside buf (f buf a)) (buf : BackBuffer) :
    Confined g inside buf (l.foldl f buf) := by
  induction l generalizing buf with
  | nil => exact .refl
  | cons a l ih =>
    exact (h buf a List.mem_cons_self).trans
      (ih (fun buf b hb => h buf b (List.mem_cons_of_mem a hb)) _)

/-- Row and column of an index are determined by it. -/
theorem index_eq_iff {w x y x' y' : ℤ} (hx : 0 ≤ x ∧ x < w) (hx' : 0 ≤ x' ∧ x' < w) :
    y * w + x = y' * w + x' ↔ y = y' ∧ x = x' := by
  refine ⟨fun h => ?_, by rintro ⟨rfl, rfl⟩; rfl⟩
  have hy : y = y' := by
    have hdiv := congrArg (· / w) h
    simp only [Int.add_comm (_ * w), Int.add_mul_ediv_right _ _ (show w ≠ 0 by omega)] at hdiv
    rwa [Int.ediv_eq_zero_of_lt hx.1 hx.2, Int.ediv_eq_zero_of_lt hx'.1 hx'.2, zero_add,
      zero_add] at hdiv
  subst hy
  exact ⟨rfl, by omega⟩

theorem putpixel_confined {x y : ℤ} (h : g.Has x y → inside x y) :
    Confined g inside buf (gfxPutpixel g x y color buf) := by
  rw [gfxPutpixel]
  split
  · exact .refl
  · next hon =>
    have hp : g.Has x y := ⟨⟨by omega, by omega⟩, by omega, by omega⟩
    intro px py hpix hout
    refine Function.update_of_ne (fun heq => hout ?_) _ _
    obtain ⟨rfl, rfl⟩ := (index_eq_iff hpix.1 hp.1).mp heq
    exact h hp

theorem fillRow_apply (start : ℤ) (n : ℕ) (i : ℤ) :
    fillRow start n color buf i = if start ≤ i ∧ i < start + n then color else buf i := by
  induction n with
  | zero => simp [fillRow, show ¬ (start ≤ i ∧ i < start) by omega]
  | succ n ih =>
    rw [fillRow, List.range_succ, List.foldl_append, ← fillRow]
    simp only [List.foldl_cons, List.foldl_nil, Function.update_apply, ih]
    by_cases hi : i = start + n
    · rw [if_pos hi, if_pos (by omega)]
    · rw [if_neg hi]
      exact if_congr (by omega) rfl rfl

/-- Rows of the same length. -/
theorem fillRows_apply (start : ℕ → ℤ) (m n : ℕ) (i : ℤ) :
    (List.range m).foldl (fun buf r => fillRow (start r) n color buf) buf i =
      if ∃ r < m, start r ≤ i ∧ i < start r + n then color else buf i := by
  induction m with
  | zero => simp
  | succ m ih =>
    rw [List.range_succ, List.foldl_append]
    simp only [List.foldl_cons, List.foldl_nil, fillRow_apply, ih]
    by_cases hlast : start m ≤ i ∧ i < start m + n
    · rw [if_pos hlast, if_pos ⟨m, by omega, hlast⟩]
    · rw [if_neg hlast]
      refine if_congr ⟨fun ⟨r, hr, hi⟩ => ⟨r, by omega, hi⟩, fun ⟨r, hr, hi⟩ => ?_⟩ rfl rfl
      have hne : r ≠ m := fun h => hlast (h ▸ hi)
      exact ⟨r, by omega, hi⟩

/-- An index lies in a row of the screen from column `a` to column `b`. -/
theorem index_in_row_iff {a b row px py : ℤ} (ha : 0 ≤ a) (hb : b ≤ g.screenW) (hp : g.Has px py) :
    (row * g.screenW + a ≤ g.index px py ∧ g.index px py < row * g.screenW + a + (b - a)) ↔
      py = row ∧ a ≤ px ∧ px < b := by
  constructor
  · intro h
    have hcol : 0 ≤ g.index px py - row * g.screenW ∧
        g.index px py - row * g.screenW < g.screenW := by omega
    have heq : py * g.screenW + px =
        row * g.screenW + (g.index px py - row * g.screenW) := by
      rw [Display.index]
      omega
    obtain ⟨rfl, hpx⟩ := (index_eq_iff hp.1 hcol).mp heq
    exact ⟨rfl, by omega, by omega⟩
  · rintro ⟨rfl, hlow, hhigh⟩
    rw [Display.index]
    omega

/-- The index of a pixel that is not to the right of the screen does not overflow. -/
theorem fits32_index {x y : ℤ} (hx : 0 ≤ x ∧ x ≤ g.screenW) (hy : 0 ≤ y ∧ y < g.screenH) :
    Fits32 (y * g.screenW + x) := by
  have hw := g.screenW_le
  have hh := g.screenH_le
  have hprod : y * g.screenW ≤ 1080 * 1920 :=
    mul_le_mul (by omega) hw g.screenW_nonneg (by norm_num)
  have hprod' : 0 ≤ y * g.screenW := mul_nonneg hy.1 g.screenW_nonneg
  refine ⟨by norm_num; omega, ?_⟩
  norm_num at hprod ⊢
  omega

/-- Without overflow exactly the pixels of the rectangle get the color. -/
theorem gfxFillRect_apply {x y w h px py : ℤ} (hx : Fits32 x) (hw : Fits32 w)
    (hxw : Fits32 (x + w)) (hyh : Fits32 (y + h)) (hp : g.Has px py) :
    gfxFillRect g x y w h color buf (g.index px py) =
      if (x ≤ px ∧ px < x + w) ∧ y ≤ py ∧ py < y + h then color else buf (g.index px py) := by
  have hsw := g.screenW_le
  have hsw' := g.screenW_nonneg
  simp only [gfxFillRect, wrap32_eq hxw, wrap32_eq hyh, fillRows_apply]
  generalize hx0 : (if x < 0 then 0 else x) = x0
  generalize hy0 : (if y < 0 then 0 else y) = y0
  generalize hx1 : (if x + w > g.screenW then g.screenW else x + w) = x1
  generalize hy1 : (if y + h > g.screenH then g.screenH else y + h) = y1
  have hx0' : 0 ≤ x0 ∧ x ≤ x0 ∧ (x0 = 0 ∨ x0 = x) := by split_ifs at hx0 <;> omega
  have hy0' : 0 ≤ y0 ∧ y ≤ y0 ∧ (y0 = 0 ∨ y0 = y) := by split_ifs at hy0 <;> omega
  have hx1' : x1 ≤ g.screenW ∧ x1 ≤ x + w ∧ (x1 = g.screenW ∨ x1 = x + w) := by
    split_ifs at hx1 <;> omega
  have hy1' : y1 ≤ g.screenH ∧ y1 ≤ y + h ∧ (y1 = g.screenH ∨ y1 = y + h) := by
    split_ifs at hy1 <;> omega
  obtain ⟨⟨hpx, hpx'⟩, hpy, hpy'⟩ := hp
  have hlen : Fits32 (x1 - x0) := by
    obtain ⟨-, hx⟩ := hx
    obtain ⟨hw, -⟩ := hw
    obtain ⟨hxw, -⟩ := hxw
    refine ⟨?_, ?_⟩ <;> norm_num at * <;> omega
  rw [wrap32_eq hlen]
  have hrow : ∀ r : ℕ, (r < (y1 - y0).toNat ∧
      wrap32 ((y0 + r) * g.screenW + x0) ≤ g.index px py ∧
      g.index px py < wrap32 ((y0 + r) * g.screenW + x0) + (x1 - x0).toNat) ↔
      (y0 + r < y1 ∧ py = y0 + r ∧ x0 ≤ px ∧ px < x1) := by
    intro r
    by_cases hr : y0 + r < y1
    · by_cases hcols : x0 < x1
      · rw [wrap32_eq (fits32_index ⟨hx0'.1, by omega⟩ ⟨by omega, by omega⟩),
          Int.toNat_of_nonneg (by omega),
          index_in_row_iff hx0'.1 hx1'.1 ⟨⟨hpx, hpx'⟩, hpy, hpy'⟩]
        exact ⟨fun h => ⟨hr, h.2⟩, fun h => ⟨by omega, h.2⟩⟩
      · rw [Int.toNat_of_nonpos (show x1 - x0 ≤ 0 by omega)]
        constructor <;> intro h <;> exfalso <;> omega
    · constructor
      · intro h
        omega
      · intro h
        omega
  refine if_congr ⟨fun ⟨r, hr⟩ => ?_, fun h => ⟨(py - y0).toNat, (hrow _).mpr ?_⟩⟩ rfl rfl
  · have := (hrow r).mp hr
    omega
  · omega

theorem fillRect_confined {x y w h : ℤ} (hx : Fits32 x) (hw : Fits32 w)
    (hxw : Fits32 (x + w)) (hyh : Fits32 (y + h))
    (hin : ∀ px py, g.Has px py → x ≤ px ∧ px < x + w → y ≤ py ∧ py < y + h → inside px py) :
    Confined g inside buf (gfxFillRect g x y w h color buf) := by
  intro px py hp hout
  rw [gfxFillRect_apply hx hw hxw hyh hp, if_neg]
  exact fun hmem => hout (hin px py hp hmem.1 hmem.2)

end pixels

section text

variable {g : Display} {inside : ℤ → ℤ → Prop} {buf : BackBuffer} {fg : GfxColor}

/-- The coordinates of the glyph do not overflow, and the blocks that are drawn for it are, as far
    as they are on the screen, in the region. -/
def GlyphInside (g : Display) (inside : ℤ → ℤ → Prop) (x y : ℤ) (c : UInt8) : Prop :=
  ∀ row < 8, ∀ col < 8, glyphBit c row col = true →
    (Fits32 (8 * g.glyphScale) ∧ Fits32 (x + 8 * g.glyphScale) ∧ Fits32 (y + 8 * g.glyphScale)) ∧
    ∀ px py, g.Has px py →
      x + col * g.glyphScale ≤ px ∧ px < x + col * g.glyphScale + g.glyphScale →
      y + row * g.glyphScale ≤ py ∧ py < y + row * g.glyphScale + g.glyphScale → inside px py

/-- The same for the glyphs of a string, at the positions of `gfx_draw_string`. -/
def TextInside (g : Display) (inside : ℤ → ℤ → Prop) (x : ℤ) : List UInt8 → ℤ → ℤ → Prop
  | [], _, _ => True
  | c :: s, cx, y =>
    if c = 0 then True
    else if c = 0x0A then TextInside g inside x s x (wrap32 (y + gfxCharSize g))
    else GlyphInside g inside cx y c ∧ TextInside g inside x s (wrap32 (cx + gfxCharSize g)) y

theorem mem_glyphCells {p : ℕ × ℕ} (hp : p ∈ glyphCells) : p.1 < 8 ∧ p.2 < 8 := by
  simp only [glyphCells, List.mem_flatMap, List.mem_range, List.mem_map] at hp
  obtain ⟨row, hrow, col, hcol, rfl⟩ := hp
  exact ⟨hrow, hcol⟩

/-- A block of a glyph lies between the corners of the glyph. -/
theorem cell_le {n : ℕ} (hn : n < 8) (g : Display) :
    0 ≤ n * g.glyphScale ∧ n * g.glyphScale + g.glyphScale ≤ 8 * g.glyphScale := by
  have hpos := g.glyphScale_pos
  have hmul : (n : ℤ) * g.glyphScale ≤ 7 * g.glyphScale :=
    mul_le_mul_of_nonneg_right (by omega) (by omega)
  exact ⟨mul_nonneg (by omega) (by omega), by omega⟩

/-- A block on the screen. -/
theorem glyphBlock_confined {px py : ℤ} (hx : 0 ≤ px ∧ px + g.glyphScale ≤ g.screenW)
    (hy : 0 ≤ py ∧ py + g.glyphScale ≤ g.screenH)
    (hin : ∀ qx qy, g.Has qx qy → px ≤ qx ∧ qx < px + g.glyphScale →
      py ≤ qy ∧ qy < py + g.glyphScale → inside qx qy) :
    Confined g inside buf (glyphBlock g px py fg buf) := by
  have hpos := g.glyphScale_pos
  intro qx qy hq hout
  rw [glyphBlock, fillRows_apply, if_neg]
  rintro ⟨r, hr, hmem⟩
  rw [wrap32_eq (fits32_index ⟨hx.1, by omega⟩ ⟨by omega, by omega⟩)] at hmem
  have hlen : ((g.glyphScale.toNat : ℕ) : ℤ) = (px + g.glyphScale) - px := by omega
  rw [hlen, index_in_row_iff hx.1 hx.2 hq] at hmem
  exact hout (hin qx qy hq (by omega) (by omega))

/-- Both paths draw within the region. -/
theorem drawChar_confined {x y : ℤ} {c : UInt8} (hx : Fits32 x) (hy : Fits32 y)
    (h : GlyphInside g inside x y c) : Confined g inside buf (gfxDrawChar g x y c fg buf) := by
  have hpos := g.glyphScale_pos
  -- the coordinates of a block that is drawn
  have hcoord : ∀ {z : ℤ} {n : ℕ}, Fits32 z → n < 8 → Fits32 (z + 8 * g.glyphScale) →
      Fits32 (z + n * g.glyphScale) ∧ Fits32 (z + n * g.glyphScale + g.glyphScale) := by
    intro z n hz hn hend
    have hcell := cell_le hn g
    exact ⟨hz.of_between hend (by omega) (by omega), hz.of_between hend (by omega) (by omega)⟩
  rw [gfxDrawChar]
  split
  · next hfast =>
    refine Confined.foldl (fun buf p hp => ?_) buf
    obtain ⟨hrow, hcol⟩ := mem_glyphCells hp
    split
    · next hbit =>
      obtain ⟨⟨hsize, hxs, hys⟩, hin⟩ := h p.1 hrow p.2 hcol hbit
      rw [wrap32_eq hsize, wrap32_eq hxs, wrap32_eq hys] at hfast
      have hcellx := cell_le hcol g
      have hcelly := cell_le hrow g
      simp only [wrap32_eq (hcoord hx hcol hxs).1, wrap32_eq (hcoord hy hrow hys).1]
      exact glyphBlock_confined ⟨by omega, by omega⟩ ⟨by omega, by omega⟩ hin
    · exact .refl
  · refine Confined.foldl (fun buf p hp => ?_) buf
    obtain ⟨hrow, hcol⟩ := mem_glyphCells hp
    split
    · next hbit =>
      obtain ⟨⟨-, hxs, hys⟩, hin⟩ := h p.1 hrow p.2 hcol hbit
      simp only [wrap32_eq (hcoord hx hcol hxs).1, wrap32_eq (hcoord hy hrow hys).1]
      exact fillRect_confined (hcoord hx hcol hxs).1 g.glyphScale_fits (hcoord hx hcol hxs).2
        (hcoord hy hrow hys).2 hin
    · exact .refl

theorem drawStringLoop_confined {x : ℤ} (hx : Fits32 x) (s : List UInt8) {cx y : ℤ}
    (hcx : Fits32 cx) (hy : Fits32 y) (h : TextInside g inside x s cx y) (buf : BackBuffer) :
    Confined g inside buf (drawStringLoop g x fg s cx y buf) := by
  induction s generalizing cx y buf with
  | nil => exact .refl
  | cons c s ih =>
    rw [drawStringLoop]
    rw [TextInside] at h
    split
    · exact .refl
    · next hnul =>
      rw [if_neg hnul] at h
      split
      · next hnewline =>
        rw [if_pos hnewline] at h
        exact ih hx (fits32_wrap32 _) h buf
      · next hnewline =>
        rw [if_neg hnewline] at h
        exact (drawChar_confined hcx hy h.1).trans (ih (fits32_wrap32 _) hy h.2 _)

theorem drawString_confined {x y : ℤ} {s : List UInt8} (hx : Fits32 x) (hy : Fits32 y)
    (h : TextInside g inside x s x y) : Confined g inside buf (gfxDrawString g x y s fg buf) :=
  drawStringLoop_confined hx s hx hy h buf

end text

end AuroraOS.Gfx
