import AuroraOS.Gfx.Rect
import Mathlib.Data.List.Basic

/-!
# The two paths of the glyphs

`gfx_draw_char`, `gfx_draw_char_bg` and `gfx_draw_char_bold` write a glyph that is on the screen
straight into the back buffer and leave every other one to `gfx_fill_rect`. The test that chooses
the path adds the size of the glyph to its position; where that sum wraps around, a glyph far off
the screen takes the fast path.

## Main definitions

- `GlyphStyle`
- `fastGlyph`, `fillGlyph`, `drawGlyph`
- `gfxDrawCharBg`, `gfxDrawCharBold`, `GlyphStyle.draw`

## Main results

- `GlyphStyle.draw_eq` — the three functions are one
- `drawGlyph_agrees_iff`
-/

namespace AuroraOS.Gfx

open AuroraOS.Lib

/-- The ways to draw a glyph, with the colors. -/
inductive GlyphStyle
  | plain (fg : GfxColor)
  | background (fg bg : GfxColor)
  | bold (fg : GfxColor)

/-- The bit of a column is set. -/
def rowBit (bits col : ℕ) : Bool := bits &&& (0x80 >>> col) != 0

/-- The color that a cell of the glyph gets, if it gets one. -/
def GlyphStyle.paint (glyph : List ℕ) (p : ℕ × ℕ) : GlyphStyle → Option GfxColor
  | plain fg => if rowBit (glyph.getD p.1 0) p.2 then some fg else none
  | background fg bg => some (if rowBit (glyph.getD p.1 0) p.2 then fg else bg)
  | bold fg =>
    -- the row is dilated by one pixel to the right
    let bits := (glyph.getD p.1 0 ||| glyph.getD p.1 0 >>> 1) % 256
    if rowBit bits p.2 then some fg else none

/-- A cell of the glyph at a position, around what is done with a block. -/
def paintCell (block : ℤ → ℤ → GfxColor → BackBuffer → BackBuffer) (g : Display) (x y : ℤ)
    (style : GlyphStyle) (glyph : List ℕ) (buf : BackBuffer) (p : ℕ × ℕ) : BackBuffer :=
  match style.paint glyph p with
  | some color =>
    block (wrap32 (x + p.2 * g.glyphScale)) (wrap32 (y + p.1 * g.glyphScale)) color buf
  | none => buf

/-- The loops over the rows and columns of a glyph. -/
def drawCells (block : ℤ → ℤ → GfxColor → BackBuffer → BackBuffer) (g : Display) (x y : ℤ)
    (style : GlyphStyle) (glyph : List ℕ) (buf : BackBuffer) : BackBuffer :=
  glyphCells.foldl (paintCell block g x y style glyph) buf

/-- The fast path. -/
def fastGlyph (g : Display) : ℤ → ℤ → GlyphStyle → List ℕ → BackBuffer → BackBuffer :=
  drawCells (glyphBlock g) g

/-- The loop of `gfx_fill_rect`. -/
def fillGlyph (g : Display) : ℤ → ℤ → GlyphStyle → List ℕ → BackBuffer → BackBuffer :=
  drawCells (fun px py => gfxFillRect g px py g.glyphScale g.glyphScale) g

/-- The test for the fast path. -/
def TakesFastPath (g : Display) (x y : ℤ) : Prop :=
  x ≥ 0 ∧ y ≥ 0 ∧ wrap32 (x + wrap32 (8 * g.glyphScale)) ≤ g.screenW ∧
    wrap32 (y + wrap32 (8 * g.glyphScale)) ≤ g.screenH

instance (g : Display) (x y : ℤ) : Decidable (TakesFastPath g x y) :=
  inferInstanceAs (Decidable (_ ∧ _))

/-- What the three functions do with the bitmap. -/
def drawGlyph (g : Display) (x y : ℤ) (style : GlyphStyle) (glyph : List ℕ) (buf : BackBuffer) :
    BackBuffer :=
  if TakesFastPath g x y then fastGlyph g x y style glyph buf else fillGlyph g x y style glyph buf

/-- `gfx_draw_char_bg`. -/
def gfxDrawCharBg (g : Display) (x y : ℤ) (c : UInt8) (fg bg : GfxColor) (buf : BackBuffer) :
    BackBuffer :=
  drawGlyph g x y (.background fg bg) (font8x8GetGlyph c) buf

/-- `gfx_draw_char_bold`. -/
def gfxDrawCharBold (g : Display) (x y : ℤ) (c : UInt8) (fg : GfxColor) (buf : BackBuffer) :
    BackBuffer :=
  drawGlyph g x y (.bold fg) (font8x8GetGlyph c) buf

/-- The function for a style. -/
def GlyphStyle.draw (g : Display) (x y : ℤ) (c : UInt8) : GlyphStyle → BackBuffer → BackBuffer
  | plain fg => gfxDrawChar g x y c fg
  | background fg bg => gfxDrawCharBg g x y c fg bg
  | bold fg => gfxDrawCharBold g x y c fg

/-- The number of entries of `back_buffer`, `MAX_FB_W * MAX_FB_H`. -/
def backBufferSize : ℤ := 1920 * 1080

/-- The drawing changes the entries of the back buffer and no other memory. -/
def WritesInside (draw : BackBuffer → BackBuffer) : Prop :=
  ∀ buf i, draw buf i ≠ buf i → 0 ≤ i ∧ i < backBufferSize

/-- The size of the glyph and its right and lower edge do not wrap around. -/
def GlyphFits (g : Display) (x y : ℤ) : Prop :=
  Fits32 (8 * g.glyphScale) ∧ Fits32 (x + 8 * g.glyphScale) ∧ Fits32 (y + 8 * g.glyphScale)

/-- No cell of the glyph gets a color. -/
def GlyphStyle.Blank (style : GlyphStyle) (glyph : List ℕ) : Prop :=
  ∀ p ∈ glyphCells, style.paint glyph p = none

theorem gfxDrawChar_eq (g : Display) (x y : ℤ) (c : UInt8) (fg : GfxColor) (buf : BackBuffer) :
    gfxDrawChar g x y c fg buf = drawGlyph g x y (.plain fg) (font8x8GetGlyph c) buf := by
  have hcells : ∀ (block : ℤ → ℤ → GfxColor → BackBuffer → BackBuffer),
      glyphCells.foldl (fun buf p =>
        if glyphBit c p.1 p.2 then
          block (wrap32 (x + p.2 * g.glyphScale)) (wrap32 (y + p.1 * g.glyphScale)) fg buf
        else buf) buf = drawCells block g x y (.plain fg) (font8x8GetGlyph c) buf := by
    intro block
    rw [drawCells]
    congr 1
    funext buf p
    rw [paintCell, GlyphStyle.paint]
    change (if rowBit _ _ = true then _ else _) = _
    by_cases hbit : rowBit ((font8x8GetGlyph c).getD p.1 0) p.2
    · rw [if_pos hbit, if_pos hbit]
    · rw [if_neg hbit, if_neg hbit]
  rw [gfxDrawChar, drawGlyph, fastGlyph, fillGlyph, ← hcells, ← hcells]
  dsimp only
  split
  · next hfast => rw [if_pos (show TakesFastPath g x y from hfast)]
  · next hslow => rw [if_neg (show ¬TakesFastPath g x y from hslow)]

theorem GlyphStyle.draw_eq (g : Display) (x y : ℤ) (c : UInt8) (style : GlyphStyle)
    (buf : BackBuffer) :
    style.draw g x y c buf = drawGlyph g x y style (font8x8GetGlyph c) buf := by
  cases style with
  | plain fg => exact gfxDrawChar_eq g x y c fg buf
  | background fg bg => rfl
  | bold fg => rfl

section Cells

variable {g : Display} {x y : ℤ} {style : GlyphStyle} {glyph : List ℕ}
  {block block' : ℤ → ℤ → GfxColor → BackBuffer → BackBuffer}

/-- Two blocks that do the same in every cell. -/
theorem drawCells_congr
    (h : ∀ p ∈ glyphCells, ∀ color buf,
      block (wrap32 (x + p.2 * g.glyphScale)) (wrap32 (y + p.1 * g.glyphScale)) color buf =
        block' (wrap32 (x + p.2 * g.glyphScale)) (wrap32 (y + p.1 * g.glyphScale)) color buf)
    (buf : BackBuffer) :
    drawCells block g x y style glyph buf = drawCells block' g x y style glyph buf := by
  refine List.foldl_ext _ _ _ fun buf p hp => ?_
  rw [paintCell, paintCell]
  cases style.paint glyph p with
  | none => rfl
  | some color => exact h p hp color buf

/-- A property of an entry that every cell preserves. -/
theorem foldl_paintCell {P : GfxColor → Prop} {i : ℤ} {cells : List (ℕ × ℕ)}
    (h : ∀ p ∈ cells, ∀ color buf, style.paint glyph p = some color → P (buf i) →
      P (block (wrap32 (x + p.2 * g.glyphScale)) (wrap32 (y + p.1 * g.glyphScale)) color buf i))
    {buf : BackBuffer} (hbuf : P (buf i)) :
    P (cells.foldl (paintCell block g x y style glyph) buf i) := by
  induction cells generalizing buf with
  | nil => exact hbuf
  | cons p cells ih =>
    refine ih (fun q hq => h q (List.mem_cons_of_mem p hq)) ?_
    rw [paintCell]
    cases hcolor : style.paint glyph p with
    | none => exact hbuf
    | some color => exact h p List.mem_cons_self color buf hcolor hbuf

theorem glyphBlock_apply (px py : ℤ) (color : GfxColor) (buf : BackBuffer) (i : ℤ) :
    glyphBlock g px py color buf i =
      if ∃ yy < g.glyphScale.toNat, wrap32 ((py + (yy : ℕ)) * g.screenW + px) ≤ i ∧
        i < wrap32 ((py + (yy : ℕ)) * g.screenW + px) + g.glyphScale.toNat then color
      else buf i :=
  fillRows_apply _ _ _ i

/-- What a block of the fast path writes keeps a color of the glyph. -/
theorem fastGlyph_painted {p : ℕ × ℕ} {color base : GfxColor} {i : ℤ} (hp : p ∈ glyphCells)
    (hcolor : style.paint glyph p = some color) (hbase : ∀ q, style.paint glyph q ≠ some base)
    (hlow : wrap32
      (wrap32 (y + p.1 * g.glyphScale) * g.screenW + wrap32 (x + p.2 * g.glyphScale)) ≤ i)
    (hhigh : i < wrap32 (wrap32 (y + p.1 * g.glyphScale) * g.screenW +
      wrap32 (x + p.2 * g.glyphScale)) + g.glyphScale) (buf : BackBuffer) :
    fastGlyph g x y style glyph buf i ≠ base := by
  have hpos := g.glyphScale_pos
  obtain ⟨before, after, hcells⟩ := List.append_of_mem hp
  rw [fastGlyph, drawCells, hcells, List.foldl_append, List.foldl_cons]
  -- the cells after it paint no other color
  refine foldl_paintCell (P := (· ≠ base)) (fun q _ color' buf hcolor' hbuf => ?_) ?_
  · rw [glyphBlock_apply]
    split
    · rintro rfl
      exact hbase q hcolor'
    · exact hbuf
  · rw [paintCell, hcolor]
    dsimp only
    rw [glyphBlock_apply, if_pos ⟨0, by omega, by simpa using hlow, by simp; omega⟩]
    rintro rfl
    exact hbase p hcolor

/-- A color that is not in the glyph. -/
theorem GlyphStyle.exists_other (style : GlyphStyle) :
    ∃ base, ∀ glyph q, style.paint glyph q ≠ some base := by
  have htwo : ∀ fg bg : GfxColor, ∃ base, base ≠ fg ∧ base ≠ bg := by
    intro fg bg
    by_cases hzero : (0 : GfxColor) ≠ fg ∧ (0 : GfxColor) ≠ bg
    · exact ⟨0, hzero⟩
    by_cases hone : (1 : GfxColor) ≠ fg ∧ (1 : GfxColor) ≠ bg
    · exact ⟨1, hone⟩
    · exact ⟨2, by grind⟩
  cases style with
  | plain fg =>
    obtain ⟨base, hne, -⟩ := htwo fg fg
    exact ⟨base, fun glyph q => by grind [GlyphStyle.paint]⟩
  | background fg bg =>
    obtain ⟨base, hfg, hbg⟩ := htwo fg bg
    exact ⟨base, fun glyph q => by grind [GlyphStyle.paint]⟩
  | bold fg =>
    obtain ⟨base, hne, -⟩ := htwo fg fg
    exact ⟨base, fun glyph q => by grind [GlyphStyle.paint]⟩

theorem drawCells_blank (h : style.Blank glyph) (buf : BackBuffer) :
    drawCells block g x y style glyph buf = buf := by
  funext i
  refine foldl_paintCell (P := (· = buf i)) (fun p hp color _ hcolor _ => ?_) rfl
  rw [h p hp] at hcolor
  cases hcolor

end Cells

section OnScreen

variable {g : Display} {x y : ℤ} {style : GlyphStyle} {glyph : List ℕ}

/-- A block on the screen is a rectangle that is not clipped. -/
theorem glyphBlock_eq {px py : ℤ} (hx : 0 ≤ px ∧ px + g.glyphScale ≤ g.screenW)
    (hy : 0 ≤ py ∧ py + g.glyphScale ≤ g.screenH) (color : GfxColor) (buf : BackBuffer) :
    glyphBlock g px py color buf = gfxFillRect g px py g.glyphScale g.glyphScale color buf := by
  have hpos := g.glyphScale_pos
  have hw := g.screenW_le
  have hh := g.screenH_le
  have hfit : ∀ {n : ℤ}, 0 ≤ n → n ≤ 1920 → Fits32 n := fun hn hn' =>
    fits32_iff.mpr ⟨by omega, by omega⟩
  have hxw : Fits32 (px + g.glyphScale) := hfit (by omega) (by omega)
  have hyh : Fits32 (py + g.glyphScale) := hfit (by omega) (by omega)
  -- the rows of the block are the rows of the rectangle
  have hrows : ∀ i, (∃ yy < g.glyphScale.toNat,
      wrap32 ((py + (yy : ℕ)) * g.screenW + px) ≤ i ∧
        i < wrap32 ((py + (yy : ℕ)) * g.screenW + px) + g.glyphScale.toNat) ↔
      ∃ qx qy, Clipped g px py g.glyphScale g.glyphScale qx qy ∧ i = g.index qx qy := by
    intro i
    have hlin := @rows_iff g px py (px + g.glyphScale) (py + g.glyphScale) i
    rw [add_sub_cancel_left, add_sub_cancel_left] at hlin
    refine Iff.trans (exists_congr fun yy => and_congr_right fun hyy => ?_) (hlin.trans ?_)
    · rw [wrap32_eq (fits32_index ⟨hx.1, by omega⟩ ⟨by omega, by omega⟩)]
    · refine exists_congr fun qx => exists_congr fun qy => and_congr_left fun _ => ?_
      rw [Clipped, wrap32_eq hxw, wrap32_eq hyh]
      omega
  funext i
  obtain ⟨hin, hout⟩ := @gfxFillRect_repaints g px py g.glyphScale g.glyphScale
    (hfit hx.1 (by omega)) g.glyphScale_fits hxw.2 color buf i
  rw [glyphBlock_apply]
  split
  · next hrow => exact (hin ((hrows i).mp hrow)).symm
  · next hrow => exact (hout ((hrows i).not.mp hrow)).symm

/-- A rectangle with a right edge that does not run over changes entries of the back buffer only. -/
theorem gfxFillRect_inside {w h : ℤ} (hx : Fits32 x) (hw : Fits32 w) (hxw : x + w < 2 ^ 31)
    (color : GfxColor) : WritesInside (gfxFillRect g x y w h color) := by
  intro buf i hne
  by_contra hout
  refine hne ((gfxFillRect_repaints hx hw hxw color buf i).2 ?_)
  rintro ⟨px, py, hc, rfl⟩
  exact hout (index_bounds hc.has)

/-- The corners of a cell of a glyph whose edges do not wrap around. -/
theorem cell_fits {n : ℕ} {z : ℤ} (hz : Fits32 z) (hend : Fits32 (z + 8 * g.glyphScale))
    (hn : n < 8) :
    Fits32 (z + n * g.glyphScale) ∧ Fits32 (z + n * g.glyphScale + g.glyphScale) := by
  have hpos := g.glyphScale_pos
  have hcell := cell_le hn g
  exact ⟨hz.of_between hend (by omega) (by omega), hz.of_between hend (by omega) (by omega)⟩

/-- Without wrap-around the fast path is the loop of `gfx_fill_rect`, on the screen. -/
theorem fastGlyph_of_fits (hx : Fits32 x) (hy : Fits32 y) (hfast : TakesFastPath g x y)
    (hfit : GlyphFits g x y) :
    (∀ buf, fastGlyph g x y style glyph buf = fillGlyph g x y style glyph buf) ∧
      WritesInside (fastGlyph g x y style glyph) := by
  obtain ⟨hsize, hxs, hys⟩ := hfit
  rw [TakesFastPath, wrap32_eq hsize, wrap32_eq hxs, wrap32_eq hys] at hfast
  have hagree : ∀ buf, fastGlyph g x y style glyph buf = fillGlyph g x y style glyph buf := by
    refine drawCells_congr fun p hp color buf => ?_
    obtain ⟨hrow, hcol⟩ := mem_glyphCells hp
    have hcellx := cell_le hcol g
    have hcelly := cell_le hrow g
    rw [wrap32_eq (cell_fits hx hxs hcol).1, wrap32_eq (cell_fits hy hys hrow).1]
    exact glyphBlock_eq ⟨by omega, by omega⟩ ⟨by omega, by omega⟩ color buf
  refine ⟨hagree, fun buf i hne => ?_⟩
  by_contra hout
  refine hne ((congrFun (hagree buf) i).trans ?_)
  refine foldl_paintCell (P := (· = buf i)) (fun p hp color drawn _ hdrawn => ?_) rfl
  obtain ⟨hrow, hcol⟩ := mem_glyphCells hp
  rw [wrap32_eq (cell_fits hx hxs hcol).1, ← hdrawn]
  by_contra hne
  exact hout (gfxFillRect_inside (cell_fits hx hxs hcol).1 g.glyphScale_fits
    (cell_fits hx hxs hcol).2.2 color drawn i hne)

end OnScreen

section OffScreen

variable {g : Display} {x y : ℤ} {style : GlyphStyle} {glyph : List ℕ}

/-- Far to one side of the screen, `gfx_fill_rect` does not reach the back buffer. -/
theorem gfxFillRect_far {px py s : ℤ} (hs : 1 ≤ s ∧ s < 2 ^ 22) (hx : Fits32 px) (hy : Fits32 py)
    (hfar : (2 ^ 30 ≤ px ∨ px < -2 ^ 30) ∨ 2 ^ 30 ≤ py ∨ py < -2 ^ 30) (color : GfxColor)
    (buf : BackBuffer) {i : ℤ} (hi : 0 ≤ i ∧ i < backBufferSize) :
    gfxFillRect g px py s s color buf i = buf i := by
  have hsw := g.screenW_nonneg
  have hsw' := g.screenW_le
  have hsh := g.screenH_nonneg
  have hsh' := g.screenH_le
  have hwide : Fits32 s := fits32_iff.mpr ⟨by omega, by norm_num at hs; omega⟩
  have hx' := fits32_iff.mp hx
  have hy' := fits32_iff.mp hy
  norm_num at hs hfar
  have hempty : ∀ {a n : ℤ}, Fits32 a → 0 ≤ n → n ≤ 1920 → a + s < 2147483648 →
      (1073741824 ≤ a ∨ a < -1073741824) → min (wrap32 (a + s)) n ≤ max a 0 := by
    intro a n ha hn hn' hend hafar
    rw [fits32_iff] at ha
    rw [wrap32_eq (fits32_iff.mpr ⟨by omega, hend⟩)]
    omega
  obtain hxfar | hyfar := hfar
  · obtain hend | hover := Int.lt_or_le (px + s) 2147483648
    · rw [gfxFillRect_nothing hx hwide (Or.inr ⟨hend, hempty hx hsw hsw' hend hxfar⟩)]
    -- the rows run over, but they start beyond the buffer
    rw [fillRect_rows, overrun_length hx hwide hover, if_neg]
    rintro ⟨r, hr, hlow, hhigh⟩
    have hrow : 0 ≤ (max py 0 + (r : ℤ)) * g.screenW ∧
        (max py 0 + (r : ℤ)) * g.screenW ≤ 1080 * 1920 :=
      ⟨mul_nonneg (by omega) hsw, mul_le_mul (by omega) hsw' hsw (by norm_num)⟩
    rw [backBufferSize] at hi
    obtain hfit | hwrap := Int.lt_or_le ((max py 0 + (r : ℤ)) * g.screenW + max px 0) 2147483648
    · rw [wrap32_eq (fits32_iff.mpr ⟨by omega, hfit⟩)] at hlow
      omega
    · rw [wrap32_of_high (by norm_num; omega) (by norm_num; omega)] at hhigh
      norm_num at hhigh
      omega
  · obtain hend | hover := Int.lt_or_le (py + s) 2147483648
    · rw [gfxFillRect_nothing hx hwide (Or.inl (hempty hy hsh (by omega) hend hyfar))]
    · rw [gfxFillRect_nothing hx hwide (Or.inl (by omega))]

/-- The cells of a glyph with an edge that wraps around are far off the screen. -/
theorem cell_far {n : ℕ} {z : ℤ} (hz : Fits32 z) (hscale : g.glyphScale < 2 ^ 22)
    (hend : 2 ^ 31 ≤ z + 8 * g.glyphScale) (hn : n < 8) :
    2 ^ 30 ≤ wrap32 (z + n * g.glyphScale) ∨ wrap32 (z + n * g.glyphScale) < -2 ^ 30 := by
  have hcell := cell_le hn g
  have hpos := g.glyphScale_pos
  rw [fits32_iff] at hz
  norm_num at hscale hend ⊢
  obtain hfit | hwrap := Int.lt_or_le (z + n * g.glyphScale) 2147483648
  · rw [wrap32_eq (fits32_iff.mpr ⟨by omega, hfit⟩)]
    omega
  · rw [wrap32_of_high (by norm_num; omega) (by norm_num; omega)]
    norm_num
    omega

/-- A glyph with an edge that wraps around: the fast path writes outside the back buffer, or what
    it writes is not written by the loop of `gfx_fill_rect`. -/
theorem fits_of_agrees (hx : Fits32 x) (hy : Fits32 y) (hfast : TakesFastPath g x y)
    (hagree : ∀ buf, fastGlyph g x y style glyph buf = fillGlyph g x y style glyph buf)
    (hinside : WritesInside (fastGlyph g x y style glyph)) {p : ℕ × ℕ} {color : GfxColor}
    (hp : p ∈ glyphCells) (hcolor : style.paint glyph p = some color) : GlyphFits g x y := by
  have hpos := g.glyphScale_pos
  obtain ⟨hx0, hy0, -⟩ := hfast
  obtain ⟨base, hbase⟩ := style.exists_other
  -- the first row of the block, in a buffer of another color
  generalize hstart : wrap32 (wrap32 (y + p.1 * g.glyphScale) * g.screenW +
    wrap32 (x + p.2 * g.glyphScale)) = start
  have hpainted : ∀ i, start ≤ i → i < start + g.glyphScale →
      fastGlyph g x y style glyph (fun _ => base) i ≠ base := fun i hlow hhigh =>
    fastGlyph_painted hp hcolor (hbase glyph) (by rwa [hstart]) (by rwa [hstart]) _
  have hfirst := hpainted start le_rfl (by omega)
  have hbounds := hinside _ _ hfirst
  have hlast := hinside _ _ (hpainted (start + g.glyphScale - 1) (by omega) (by omega))
  rw [backBufferSize] at hbounds hlast
  have hscale : g.glyphScale < 2 ^ 22 := by
    norm_num
    omega
  by_contra hover
  have hfar : 2 ^ 31 ≤ x + 8 * g.glyphScale ∨ 2 ^ 31 ≤ y + 8 * g.glyphScale := by
    rw [GlyphFits, fits32_iff, fits32_iff, fits32_iff] at hover
    norm_num at hscale ⊢
    omega
  -- no block of the other path reaches the entry
  have hkept : fillGlyph g x y style glyph (fun _ => base) start = base := by
    refine foldl_paintCell (P := (· = base)) (fun q hq color drawn _ hdrawn => ?_) rfl
    obtain ⟨hrow, hcol⟩ := mem_glyphCells hq
    rw [gfxFillRect_far ⟨hpos, hscale⟩ (fits32_wrap32 _) (fits32_wrap32 _) ?_ color drawn hbounds]
    · exact hdrawn
    · exact hfar.imp (fun h => cell_far hx hscale h hcol) fun h => cell_far hy hscale h hrow
  exact hfirst ((congrFun (hagree _) start).trans hkept)

end OffScreen

/-- On the fast path the three functions draw what the loop of `gfx_fill_rect` draws, inside the
    back buffer, exactly if no edge of the glyph wraps around or nothing is drawn. -/
theorem drawGlyph_agrees_iff (g : Display) (style : GlyphStyle) (glyph : List ℕ) {x y : ℤ}
    (hx : Fits32 x) (hy : Fits32 y) (hfast : TakesFastPath g x y) :
    (∀ c buf, style.draw g x y c buf = drawGlyph g x y style (font8x8GetGlyph c) buf) ∧
      (((∀ buf, drawGlyph g x y style glyph buf = fillGlyph g x y style glyph buf) ∧
        WritesInside (drawGlyph g x y style glyph)) ↔ GlyphFits g x y ∨ style.Blank glyph) := by
  have hdraw : drawGlyph g x y style glyph = fastGlyph g x y style glyph :=
    funext fun buf => if_pos hfast
  refine ⟨fun c buf => style.draw_eq g x y c buf, ?_⟩
  rw [hdraw]
  constructor
  · rintro ⟨hagree, hinside⟩
    by_contra hneither
    obtain ⟨hover, hpainted⟩ := not_or.mp hneither
    refine hpainted fun p hp => ?_
    cases hcolor : style.paint glyph p with
    | none => rfl
    | some color => exact absurd (fits_of_agrees hx hy hfast hagree hinside hp hcolor) hover
  · rintro (hfit | hblank)
    · exact fastGlyph_of_fits hx hy hfast hfit
    · refine ⟨fun buf => ?_, fun buf i hne => absurd ?_ hne⟩
      · rw [fastGlyph, fillGlyph, drawCells_blank hblank, drawCells_blank hblank]
      · rw [fastGlyph, drawCells_blank hblank]

/-- A screen of 640 by 480 pixels, with the font at its own size. -/
def smallDisplay : Display :=
  ⟨640, 480, 1, by decide, by decide, by decide, by decide, unitScale_pos, unitScale_fits⟩

theorem drawGlyph_agrees_iff_corner :
    (∀ c buf, GlyphStyle.draw smallDisplay 632 472 c (.bold 1) buf =
      drawGlyph smallDisplay 632 472 (.bold 1) (font8x8GetGlyph c) buf) ∧
    (((∀ buf, drawGlyph smallDisplay 632 472 (.bold 1) (font8x8GetGlyph 0x41) buf =
        fillGlyph smallDisplay 632 472 (.bold 1) (font8x8GetGlyph 0x41) buf) ∧
      WritesInside (drawGlyph smallDisplay 632 472 (.bold 1) (font8x8GetGlyph 0x41))) ↔
      GlyphFits smallDisplay 632 472 ∨ GlyphStyle.Blank (.bold 1) (font8x8GetGlyph 0x41)) :=
  drawGlyph_agrees_iff smallDisplay (.bold 1) (font8x8GetGlyph 0x41) (by decide) (by decide)
    (by decide)

/-- An `A` whose right edge is at `2 ^ 31` is written behind the back buffer. -/
theorem drawGlyph_overruns :
    ¬∀ (g : Display) (style : GlyphStyle) (glyph : List ℕ) (x y : ℤ), Fits32 x → Fits32 y →
      TakesFastPath g x y →
        (∀ buf, drawGlyph g x y style glyph buf = fillGlyph g x y style glyph buf) ∧
          WritesInside (drawGlyph g x y style glyph) := by
  intro hall
  have hfast : TakesFastPath smallDisplay 2147483640 0 := by decide
  have hdraw : drawGlyph smallDisplay 2147483640 0 (.plain 1) (font8x8GetGlyph 0x41) =
      fastGlyph smallDisplay 2147483640 0 (.plain 1) (font8x8GetGlyph 0x41) :=
    funext fun buf => if_pos hfast
  obtain ⟨hagree, hinside⟩ := hall smallDisplay (.plain 1) (font8x8GetGlyph 0x41) 2147483640 0
    (by decide) (by decide) hfast
  rw [hdraw] at hagree hinside
  have hfits := fits_of_agrees (by decide) (by decide) hfast hagree hinside
    (by decide : ((0, 3) : ℕ × ℕ) ∈ glyphCells) (by decide : _ = some (1 : GfxColor))
  exact absurd hfits.2.1 (by decide)

end AuroraOS.Gfx
