import AuroraOS.Gfx.BackBuffer

/-!
# Rectangles at the edge of the numbers

`gfx_fill_rect` and `gfx_blend_rect` of `kernel/gfx.c` for all 32-bit arguments. Both clip a
rectangle exactly when its right and bottom edges are 32-bit numbers; an edge that wraps around
does no harm only where neither the rectangle nor what is made of it meets the screen.

## Main definitions

- `blend`, `gfxBlendRect`
- `PaintsExactly` — the pixels of a rectangle are repainted, and nothing else
- `EdgesHarmless`

## Main results

- `rect_exact_iff`
-/

namespace AuroraOS.Gfx

open AuroraOS.Lib

/-- `blend`. -/
def blend (bg fg : GfxColor) (alpha : UInt8) : GfxColor :=
  if alpha = 255 then fg
  else if alpha = 0 then bg
  else
    let a := alpha.toUInt32
    let mix (shift : UInt32) : UInt32 :=
      (((fg >>> shift) &&& 0xff) * a + ((bg >>> shift) &&& 0xff) * (255 - a)) / 255
    (mix 16 <<< 16) ||| (mix 8 <<< 8) ||| mix 0

/-- The inner loop of `gfx_blend_rect`, over `n` pixels from `start` on. -/
def blendRow (start : ℤ) (n : ℕ) (color : GfxColor) (alpha : UInt8) (buf : BackBuffer) :
    BackBuffer :=
  (List.range n).foldl (fun buf (xx : ℕ) =>
    Function.update buf (wrap32 (start + xx)) (blend (buf (wrap32 (start + xx))) color alpha)) buf

/-- `gfx_blend_rect`. -/
def gfxBlendRect (g : Display) (x y w h : ℤ) (color : GfxColor) (alpha : UInt8)
    (buf : BackBuffer) : BackBuffer :=
  let x0 := if x < 0 then 0 else x
  let y0 := if y < 0 then 0 else y
  let x1 := if wrap32 (x + w) > g.screenW then g.screenW else wrap32 (x + w)
  let y1 := if wrap32 (y + h) > g.screenH then g.screenH else wrap32 (y + h)
  (List.range (y1 - y0).toNat).foldl (fun buf (r : ℕ) =>
    blendRow ((y0 + r) * g.screenW + x0) (x1 - x0).toNat color alpha buf) buf

/-- The pixel is in the rectangle. -/
def InRect (x y w h px py : ℤ) : Prop := (x ≤ px ∧ px < x + w) ∧ y ≤ py ∧ py < y + h

/-- The pixels of the rectangle that are on the screen are repainted, and nothing else is
    written. -/
structure PaintsExactly (g : Display) (x y w h : ℤ) (paint : GfxColor → GfxColor)
    (buf buf' : BackBuffer) : Prop where
  inside : ∀ px py, g.Has px py → InRect x y w h px py →
    buf' (g.index px py) = paint (buf (g.index px py))
  outside : ∀ i, (∀ px py, g.Has px py → InRect x y w h px py → i ≠ g.index px py) →
    buf' i = buf i

/-- `gfx_fill_rect` paints the rectangle. -/
def FillsExactly (g : Display) (x y w h : ℤ) : Prop :=
  ∀ color buf, PaintsExactly g x y w h (fun _ => color) buf (gfxFillRect g x y w h color buf)

/-- `gfx_blend_rect` blends the rectangle. -/
def BlendsExactly (g : Display) (x y w h : ℤ) : Prop :=
  ∀ color alpha buf, PaintsExactly g x y w h (fun c => blend c color alpha) buf
    (gfxBlendRect g x y w h color alpha buf)

/-- No pixel of the screen is in the rectangle. -/
def OffScreen (g : Display) (x y w h : ℤ) : Prop := ∀ px py, g.Has px py → ¬InRect x y w h px py

/-- Neither edge wraps around, or the rectangle is off the screen and so is what lies between its
    left or upper edge and the wrapped one. -/
def EdgesHarmless (g : Display) (x y w h : ℤ) : Prop :=
  Fits32 (x + w) ∧ Fits32 (y + h) ∨ OffScreen g x y w h ∧
    (min (wrap32 (y + h)) g.screenH ≤ max y 0 ∨
      x + w < 2 ^ 31 ∧ min (wrap32 (x + w)) g.screenW ≤ max x 0)

/-- The pixel is between the clipped edges. -/
def Clipped (g : Display) (x y w h px py : ℤ) : Prop :=
  (max x 0 ≤ px ∧ px < min (wrap32 (x + w)) g.screenW) ∧
    max y 0 ≤ py ∧ py < min (wrap32 (y + h)) g.screenH

section Rows

variable {g : Display} {x y w h : ℤ} {color : GfxColor} {alpha : UInt8} {buf : BackBuffer}

theorem blendRow_apply {start : ℤ} {n : ℕ} (hfit : ∀ k < n, Fits32 (start + (k : ℕ))) (i : ℤ) :
    blendRow start n color alpha buf i =
      if start ≤ i ∧ i < start + n then blend (buf i) color alpha else buf i := by
  induction n generalizing i with
  | zero => simp [blendRow, show ¬(start ≤ i ∧ i < start) by omega]
  | succ n ih =>
    have ih := ih fun k hk => hfit k (Nat.lt_succ_of_lt hk)
    rw [blendRow, List.range_succ, List.foldl_append, ← blendRow]
    simp only [List.foldl_cons, List.foldl_nil, wrap32_eq (hfit n (Nat.lt_succ_self n)),
      Function.update_apply]
    by_cases hi : i = start + n
    · subst hi
      rw [if_pos rfl, if_pos (by omega), ih, if_neg (by omega)]
    · rw [if_neg hi, ih]
      exact if_congr (by omega) rfl rfl

/-- Rows of the same length that do not overlap. -/
theorem blendRows_apply {start : ℕ → ℤ} {m n : ℕ}
    (hfit : ∀ r < m, ∀ k < n, Fits32 (start r + (k : ℕ)))
    (hsep : ∀ r s, r < s → start r + n ≤ start s) (i : ℤ) :
    (List.range m).foldl (fun buf r => blendRow (start r) n color alpha buf) buf i =
      if ∃ r < m, start r ≤ i ∧ i < start r + n then blend (buf i) color alpha else buf i := by
  induction m generalizing i with
  | zero => simp
  | succ m ih =>
    have ih := ih fun r hr => hfit r (Nat.lt_succ_of_lt hr)
    rw [List.range_succ, List.foldl_append]
    simp only [List.foldl_cons, List.foldl_nil, blendRow_apply (hfit m (Nat.lt_succ_self m)), ih]
    by_cases hlast : start m ≤ i ∧ i < start m + n
    · -- no row above has been here
      have hnone : ¬∃ r < m, start r ≤ i ∧ i < start r + n := by
        rintro ⟨r, hr, hi⟩
        have hbelow := hsep r m hr
        omega
      rw [if_pos hlast, if_neg hnone, if_pos ⟨m, Nat.lt_succ_self m, hlast⟩]
    · rw [if_neg hlast]
      refine if_congr ⟨fun ⟨r, hr, hi⟩ => ⟨r, by omega, hi⟩, fun ⟨r, hr, hi⟩ => ?_⟩ rfl rfl
      have hne : r ≠ m := fun h => hlast (h ▸ hi)
      exact ⟨r, by omega, hi⟩

theorem clip_low (x : ℤ) : (if x < 0 then 0 else x) = max x 0 := by
  split_ifs <;> omega

theorem clip_high (x w : ℤ) : (if x > w then w else x) = min x w := by
  split_ifs <;> omega

/-- The indices of the rows are those of the pixels. -/
theorem rows_iff (i : ℤ) :
    (∃ r < (h - y).toNat, (y + (r : ℕ)) * g.screenW + x ≤ i ∧
        i < (y + (r : ℕ)) * g.screenW + x + (w - x).toNat) ↔
      ∃ px py, ((x ≤ px ∧ px < w) ∧ y ≤ py ∧ py < h) ∧ i = g.index px py := by
  constructor
  · rintro ⟨r, hr, hlow, hhigh⟩
    refine ⟨i - (y + r) * g.screenW, y + r, ⟨⟨by omega, ?_⟩, by omega, by omega⟩, ?_⟩
    · omega
    · rw [Display.index]
      omega
  · rintro ⟨px, py, ⟨hpx, hpy⟩, rfl⟩
    refine ⟨(py - y).toNat, by omega, ?_⟩
    rw [show y + ((py - y).toNat : ℤ) = py by omega, Display.index]
    omega

theorem Clipped.has {px py : ℤ} (hp : Clipped g x y w h px py) : g.Has px py := by
  obtain ⟨⟨hx, hx'⟩, hy, hy'⟩ := hp
  exact ⟨⟨by omega, by omega⟩, by omega, by omega⟩

/-- The rows of `gfx_fill_rect`. -/
theorem fillRect_rows (i : ℤ) :
    gfxFillRect g x y w h color buf i =
      if ∃ r < (min (wrap32 (y + h)) g.screenH - max y 0).toNat,
          wrap32 ((max y 0 + (r : ℕ)) * g.screenW + max x 0) ≤ i ∧
          i < wrap32 ((max y 0 + (r : ℕ)) * g.screenW + max x 0) +
            (wrap32 (min (wrap32 (x + w)) g.screenW - max x 0)).toNat then color
      else buf i := by
  rw [gfxFillRect]
  simp only [clip_low, clip_high]
  exact fillRows_apply _ _ _ i

/-- The pixels in the clipped rectangle, and only they, are repainted. -/
def Repaints (g : Display) (x y w h : ℤ) (paint : GfxColor → GfxColor) (buf buf' : BackBuffer) :
    Prop :=
  ∀ i, ((∃ px py, Clipped g x y w h px py ∧ i = g.index px py) → buf' i = paint (buf i)) ∧
    ((¬∃ px py, Clipped g x y w h px py ∧ i = g.index px py) → buf' i = buf i)

theorem gfxBlendRect_repaints (g : Display) (x y w h : ℤ) (color : GfxColor) (alpha : UInt8)
    (buf : BackBuffer) :
    Repaints g x y w h (fun c => blend c color alpha) buf
      (gfxBlendRect g x y w h color alpha buf) := by
  intro i
  have hw := g.screenW_nonneg
  rw [gfxBlendRect]
  simp only [clip_low, clip_high]
  rw [blendRows_apply]
  · exact ⟨fun hin => if_pos ((rows_iff i).mpr hin), fun hout => if_neg ((rows_iff i).not.mpr hout)⟩
  · intro r hr k hk
    rw [Int.add_assoc]
    exact fits32_index ⟨by omega, by omega⟩ ⟨by omega, by omega⟩
  · intro r s hrs
    have hle : (max y 0 + (r : ℤ) + 1) * g.screenW ≤ (max y 0 + (s : ℤ)) * g.screenW :=
      mul_le_mul_of_nonneg_right (by omega) hw
    rw [add_mul, one_mul] at hle
    omega

/-- The inner loop of `gfx_fill_rect` does not run over as long as the right edge does not. -/
theorem gfxFillRect_repaints (hx : Fits32 x) (hw : Fits32 w) (hxw : x + w < 2 ^ 31)
    (color : GfxColor) (buf : BackBuffer) :
    Repaints g x y w h (fun _ => color) buf (gfxFillRect g x y w h color buf) := by
  intro i
  have hsw := g.screenW_nonneg
  have hsw' := g.screenW_le
  rw [fits32_iff] at hx hw
  norm_num at hxw
  have hlen : wrap32 (min (wrap32 (x + w)) g.screenW - max x 0) =
      min (wrap32 (x + w)) g.screenW - max x 0 := by
    refine wrap32_eq ?_
    rw [fits32_iff]
    obtain hlow | hfit := Int.lt_or_le (x + w) (-2147483648)
    · rw [wrap32_of_low (by norm_num; omega) (by norm_num; omega)]
      omega
    · rw [wrap32_eq (fits32_iff.mpr ⟨hfit, hxw⟩)]
      omega
  have hiff : (∃ r < (min (wrap32 (y + h)) g.screenH - max y 0).toNat,
      wrap32 ((max y 0 + (r : ℕ)) * g.screenW + max x 0) ≤ i ∧
      i < wrap32 ((max y 0 + (r : ℕ)) * g.screenW + max x 0) +
        (min (wrap32 (x + w)) g.screenW - max x 0).toNat) ↔
      ∃ px py, Clipped g x y w h px py ∧ i = g.index px py := by
    refine Iff.trans (exists_congr fun r => and_congr_right fun hr => ?_) (rows_iff i)
    obtain hcols | hcols := Int.lt_or_le (max x 0) (min (wrap32 (x + w)) g.screenW)
    · rw [wrap32_eq (fits32_index ⟨by omega, by omega⟩ ⟨by omega, by omega⟩)]
    · rw [Int.toNat_of_nonpos (by omega)]
      omega
  rw [fillRect_rows, hlen]
  exact ⟨fun hin => if_pos (hiff.mpr hin), fun hout => if_neg (hiff.not.mpr hout)⟩

theorem index_bounds {px py : ℤ} (hp : g.Has px py) :
    0 ≤ g.index px py ∧ g.index px py < 2073600 := by
  obtain ⟨⟨hx, hx'⟩, hy, hy'⟩ := hp
  have hw := g.screenW_le
  have hh := g.screenH_le
  have hlow : 0 ≤ py * g.screenW := mul_nonneg hy g.screenW_nonneg
  have hhigh : py * g.screenW ≤ 1079 * 1920 :=
    mul_le_mul (by omega) hw g.screenW_nonneg (by norm_num)
  rw [Display.index]
  omega

/-- The inner loop with a right edge that runs over: the wrapped edge is to the left of the screen,
    and the difference wraps back to the width. -/
theorem overrun_length (hx : Fits32 x) (hw : Fits32 w) (hxw : 2 ^ 31 ≤ x + w) :
    wrap32 (min (wrap32 (x + w)) g.screenW - max x 0) = w := by
  have hsw := g.screenW_nonneg
  rw [fits32_iff] at hx hw
  norm_num at hxw
  have hedge : wrap32 (x + w) = x + w - 2 ^ 32 :=
    wrap32_of_high (by norm_num; omega) (by norm_num; omega)
  have hdiff : min (wrap32 (x + w)) g.screenW - max x 0 = w - 2 ^ 32 := by
    rw [hedge]
    norm_num
    omega
  rw [hdiff, wrap32_of_low (by norm_num; omega) (by norm_num; omega), sub_add_cancel]

/-- With a right edge that runs over, the inner loop leaves the screen. -/
theorem gfxFillRect_overrun (hx : Fits32 x) (hw : Fits32 w) (hxw : 2 ^ 31 ≤ x + w)
    (hrows : max y 0 < min (wrap32 (y + h)) g.screenH) (color : GfxColor) (buf : BackBuffer) :
    ∃ i, (∀ px py, g.Has px py → i ≠ g.index px py) ∧
      gfxFillRect g x y w h color buf i = color := by
  have hsw := g.screenW_nonneg
  have hsw' := g.screenW_le
  have hsh' := g.screenH_le
  have hlen := @overrun_length g x w hx hw hxw
  rw [fits32_iff] at hx hw
  norm_num at hxw
  -- the row from column `x` on, with `w` pixels
  have hrow : 0 ≤ max y 0 * g.screenW ∧ max y 0 * g.screenW ≤ 1080 * 1920 :=
    ⟨mul_nonneg (by omega) hsw, mul_le_mul (by omega) hsw' hsw (by norm_num)⟩
  have hfirst : 0 < (min (wrap32 (y + h)) g.screenH - max y 0).toNat := by omega
  obtain hfit | hover := Int.lt_or_le (max y 0 * g.screenW + max x 0) 2147483648
  · refine ⟨max y 0 * g.screenW + max x 0 + w - 1, fun px py hp heq => ?_, ?_⟩
    · have hbounds := index_bounds hp
      omega
    · rw [fillRect_rows, hlen, if_pos]
      refine ⟨0, hfirst, ?_⟩
      rw [Nat.cast_zero, add_zero, wrap32_eq (fits32_iff.mpr ⟨by omega, hfit⟩)]
      omega
  · refine ⟨max y 0 * g.screenW + max x 0 - 2 ^ 32, fun px py hp heq => ?_, ?_⟩
    · have hbounds := index_bounds hp
      norm_num at heq
      omega
    · rw [fillRect_rows, hlen, if_pos]
      refine ⟨0, hfirst, ?_⟩
      rw [Nat.cast_zero, add_zero, wrap32_of_high (by norm_num; omega) (by norm_num; omega)]
      omega

end Rows

section Exact

variable {g : Display} {x y w h : ℤ} {paint : GfxColor → GfxColor} {buf buf' : BackBuffer}

/-- Without wrap-around the clipped rectangle is the one that is wanted. -/
theorem clipped_iff (hxw : Fits32 (x + w)) (hyh : Fits32 (y + h)) {px py : ℤ} (hp : g.Has px py) :
    Clipped g x y w h px py ↔ InRect x y w h px py := by
  obtain ⟨⟨hx, hx'⟩, hy, hy'⟩ := hp
  rw [Clipped, InRect, wrap32_eq hxw, wrap32_eq hyh]
  omega

theorem Repaints.exact (hr : Repaints g x y w h paint buf buf')
    (heq : ∀ px py, g.Has px py → (Clipped g x y w h px py ↔ InRect x y w h px py)) :
    PaintsExactly g x y w h paint buf buf' where
  inside := fun px py hp hin => (hr _).1 ⟨px, py, (heq px py hp).mpr hin, rfl⟩
  outside := fun i hout => (hr i).2 fun ⟨px, py, hc, hi⟩ =>
    hout px py hc.has ((heq px py hc.has).mp hc) hi

theorem Repaints.nothing (hr : Repaints g x y w h paint buf buf')
    (hnone : ∀ px py, ¬Clipped g x y w h px py) : buf' = buf :=
  funext fun i => (hr i).2 fun ⟨px, py, hc, _⟩ => hnone px py hc

theorem PaintsExactly.nothing (hoff : OffScreen g x y w h) :
    PaintsExactly g x y w h paint buf buf where
  inside := fun px py hp hin => absurd hin (hoff px py hp)
  outside := fun _ _ => rfl

/-- What is between the clipped edges is empty. -/
theorem gfxFillRect_nothing (hx : Fits32 x) (hw : Fits32 w)
    (hempty : min (wrap32 (y + h)) g.screenH ≤ max y 0 ∨
      x + w < 2 ^ 31 ∧ min (wrap32 (x + w)) g.screenW ≤ max x 0) (color : GfxColor) :
    gfxFillRect g x y w h color buf = buf := by
  obtain hrows | ⟨hxw, hcols⟩ := hempty
  · funext i
    rw [fillRect_rows, if_neg]
    rintro ⟨r, hr, -⟩
    omega
  · exact (gfxFillRect_repaints hx hw hxw color buf).nothing fun px py hc => by
      obtain ⟨hcx, -⟩ := hc
      omega

/-- A pixel of both rectangles rules wrap-around out. -/
theorem fits_of_clipped (hx : Fits32 x) (hy : Fits32 y) (hw : Fits32 w) (hh : Fits32 h)
    {px py : ℤ} (hc : Clipped g x y w h px py) (hin : InRect x y w h px py) :
    Fits32 (x + w) ∧ Fits32 (y + h) := by
  have hfits : ∀ a b p, Fits32 a → Fits32 b → a ≤ p → p < a + b → 0 ≤ p → p < wrap32 (a + b) →
      Fits32 (a + b) := by
    intro a b p ha hb hlow hhigh hpos hwrap
    rw [fits32_iff] at ha hb ⊢
    refine ⟨by omega, ?_⟩
    by_contra hover
    rw [wrap32_of_high (by norm_num; omega) (by norm_num; omega)] at hwrap
    norm_num at hwrap
    omega
  obtain ⟨⟨hcx, hcx'⟩, hcy, hcy'⟩ := hc
  obtain ⟨⟨hix, hix'⟩, hiy, hiy'⟩ := hin
  exact ⟨hfits x w px hx hw hix hix' (by omega) (by omega),
    hfits y h py hy hh hiy hiy' (by omega) (by omega)⟩

end Exact

/-- `gfx_fill_rect` and `gfx_blend_rect` paint exactly the rectangle if and only if its edges do no
    harm. -/
theorem rect_exact_iff (g : Display) {x y w h : ℤ} (hx : Fits32 x) (hy : Fits32 y) (hw : Fits32 w)
    (hh : Fits32 h) :
    FillsExactly g x y w h ∧ BlendsExactly g x y w h ↔ EdgesHarmless g x y w h := by
  constructor
  · rintro ⟨hfill, hblend⟩
    by_cases hfit : Fits32 (x + w) ∧ Fits32 (y + h)
    · exact Or.inl hfit
    -- nothing lies between the clipped edges
    have hnone : ∀ px py, ¬Clipped g x y w h px py := by
      intro px py hc
      have hexact := hblend 1 255 fun _ => 0
      have hblended := (gfxBlendRect_repaints g x y w h 1 255 (fun _ => 0) (g.index px py)).1
        ⟨px, py, hc, rfl⟩
      have hkept := hexact.outside (g.index px py) fun qx qy hq hin heq => ?_
      · exact absurd (hblended.symm.trans hkept) (by decide : ¬blend 0 1 255 = 0)
      · obtain ⟨rfl, rfl⟩ := (index_eq_iff hc.has.1 hq.1).mp heq
        exact hfit (fits_of_clipped hx hy hw hh hc hin)
    have hempty : min (wrap32 (y + h)) g.screenH ≤ max y 0 ∨
        x + w < 2 ^ 31 ∧ min (wrap32 (x + w)) g.screenW ≤ max x 0 := by
      by_contra hcontra
      obtain ⟨hrows, hcols⟩ := not_or.mp hcontra
      obtain hover | hlow := Int.lt_or_le (x + w) (2 ^ 31)
      · exact hnone (max x 0) (max y 0) ⟨⟨le_refl _, by
          by_contra hle
          exact hcols ⟨hover, by omega⟩⟩, le_refl _, by omega⟩
      · have hrows : max y 0 < min (wrap32 (y + h)) g.screenH := Int.lt_of_not_ge hrows
        obtain ⟨i, hi, hcolor⟩ := gfxFillRect_overrun hx hw hlow hrows 1 fun _ => 0
        have hkept := (hfill 1 fun _ => 0).outside i fun px py hp _ => hi px py hp
        exact absurd (hcolor.symm.trans hkept) (by decide : ¬(1 : GfxColor) = 0)
    refine Or.inr ⟨fun px py hp hin => ?_, hempty⟩
    -- so the fill paints nothing
    have hpainted := (hfill 1 fun _ => 0).inside px py hp hin
    rw [gfxFillRect_nothing hx hw hempty] at hpainted
    exact absurd hpainted (by decide : ¬(0 : GfxColor) = 1)
  · rintro (⟨hxw, hyh⟩ | ⟨hoff, hempty⟩)
    · have hlow : x + w < 2 ^ 31 := hxw.2
      exact ⟨fun color buf => (gfxFillRect_repaints hx hw hlow color buf).exact
          fun px py hp => clipped_iff hxw hyh hp,
        fun color alpha buf => (gfxBlendRect_repaints g x y w h color alpha buf).exact
          fun px py hp => clipped_iff hxw hyh hp⟩
    · refine ⟨fun color buf => ?_, fun color alpha buf => ?_⟩
      · rw [gfxFillRect_nothing hx hw hempty]
        exact .nothing hoff
      · rw [(gfxBlendRect_repaints g x y w h color alpha buf).nothing fun px py hc => by
          obtain ⟨hcx, hcy⟩ := hc
          omega]
        exact .nothing hoff

/-- A screen of 4 by 4 pixels. -/
def tinyDisplay : Display :=
  ⟨4, 4, 1, by decide, by decide, by decide, by decide, unitScale_pos, unitScale_fits⟩

/-- A rectangle that leaves the screen on the left and at the bottom. -/
theorem rect_exact_iff_clipped :
    FillsExactly tinyDisplay (-1) 2 3 100 ∧ BlendsExactly tinyDisplay (-1) 2 3 100 :=
  (rect_exact_iff tinyDisplay (by decide) (by decide) (by decide) (by decide)).mpr
    (Or.inl ⟨by decide, by decide⟩)

/-- A rectangle with its right edge at `2 ^ 31` is written behind the screen. -/
theorem fillRect_overruns :
    ¬∀ (g : Display) (x y w h : ℤ), Fits32 x → Fits32 y → Fits32 w → Fits32 h →
      FillsExactly g x y w h ∧ BlendsExactly g x y w h := by
  intro hall
  obtain ⟨hfill, -⟩ := hall tinyDisplay 1 0 2147483647 1 (by decide) (by decide) (by decide)
    (by decide)
  obtain ⟨i, hi, hcolor⟩ := @gfxFillRect_overrun tinyDisplay 1 0 2147483647 1 (by decide)
    (by decide) (by norm_num) (by decide) 1 fun _ => 0
  have hkept := (hfill 1 fun _ => 0).outside i fun px py hp _ => hi px py hp
  exact absurd (hcolor.symm.trans hkept) (by decide : ¬(1 : GfxColor) = 0)

end AuroraOS.Gfx
