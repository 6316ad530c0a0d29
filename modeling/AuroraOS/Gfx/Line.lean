import AuroraOS.Gfx.BackBuffer
import Mathlib.Tactic.Ring

/-!
# Lines

`gfx_draw_line`. When its arithmetic does not overflow, the loop visits one point for each step
along the longer side, and the coordinate along the other side is the exact one rounded to the
nearest pixel, halves downwards.

## Main definitions

- `gfxDrawLine`
- `Segment.pointX`, `Segment.pointY` — the points of the digital line

## Main results

- `lineStep_at`
- `drawLine_confined`
-/

namespace AuroraOS.Gfx

open AuroraOS.Lib

/-- The end points of a line. -/
structure Segment where
  x0 : ℤ
  y0 : ℤ
  x1 : ℤ
  y1 : ℤ

/-- The variables that the loop of `gfx_draw_line` changes. -/
structure LineVars where
  x : ℤ
  y : ℤ
  err : ℤ

/-- `int d = b - a; if (d < 0) d = -d;` -/
def absDiff (a b : ℤ) : ℤ :=
  if wrap32 (b - a) < 0 then wrap32 (-wrap32 (b - a)) else wrap32 (b - a)

/-- `a < b ? 1 : -1`. -/
def direction (a b : ℤ) : ℤ := if a < b then 1 else -1

/-- The part of the loop body after the test. -/
def lineStep (dx dy sx sy : ℤ) (v : LineVars) : LineVars :=
  let e2 := wrap32 (2 * v.err)
  let v := if e2 > wrap32 (-dy) then { v with err := wrap32 (v.err - dy), x := wrap32 (v.x + sx) }
    else v
  if e2 < dx then { v with err := wrap32 (v.err + dx), y := wrap32 (v.y + sy) } else v

/-- The loop; `none` when it has not ended after that many rounds. -/
def lineLoop (g : Display) (l : Segment) (color : GfxColor) :
    ℕ → LineVars → BackBuffer → Option BackBuffer
  | 0, _, _ => none
  | fuel + 1, v, buf =>
    let buf := gfxPutpixel g v.x v.y color buf
    if v.x = l.x1 ∧ v.y = l.y1 then some buf
    else lineLoop g l color fuel (lineStep (absDiff l.x0 l.x1) (absDiff l.y0 l.y1)
      (direction l.x0 l.x1) (direction l.y0 l.y1) v) buf

/-- `gfx_draw_line`. The three variables have fewer than `2 ^ 96 + 1` states, so it is `none` when
    the loop does not end. -/
def gfxDrawLine (g : Display) (l : Segment) (color : GfxColor) (buf : BackBuffer) :
    Option BackBuffer :=
  lineLoop g l color (2 ^ 96)
    ⟨l.x0, l.y0, wrap32 (absDiff l.x0 l.x1 - absDiff l.y0 l.y1)⟩ buf

/-- `d * k / n`, rounded to the nearest integer. -/
def rounded (n d k : ℕ) : ℕ := (2 * d * k + n - 1) / (2 * n)

namespace Segment

variable (l : Segment)

/-- The extent in the direction of `x`. -/
def dx : ℕ := (l.x1 - l.x0).natAbs

/-- The extent in the direction of `y`. -/
def dy : ℕ := (l.y1 - l.y0).natAbs

/-- The number of steps of the line. -/
def steps : ℕ := max l.dx l.dy

/-- The column of a point of the line. -/
def pointX (k : ℕ) : ℤ := l.x0 + direction l.x0 l.x1 * rounded l.steps l.dx k

/-- The row of a point of the line. -/
def pointY (k : ℕ) : ℤ := l.y0 + direction l.y0 l.y1 * rounded l.steps l.dy k

/-- The error term at a point of the line. -/
def errAt (k : ℕ) : ℤ :=
  l.dx - l.dy - rounded l.steps l.dx k * l.dy + rounded l.steps l.dy k * l.dx

/-- The end points are values of an `int`. -/
structure Wellformed : Prop where
  x0_fits : Fits32 l.x0
  y0_fits : Fits32 l.y0
  x1_fits : Fits32 l.x1
  y1_fits : Fits32 l.y1

/-- Nothing overflows, and the points on the screen are in the region. -/
structure Inside (g : Display) (inside : ℤ → ℤ → Prop) : Prop where
  dx_fits : Fits32 l.dx
  dy_fits : Fits32 l.dy
  err_fits : ∀ k ≤ l.steps, Fits32 (2 * l.errAt k)
  point_inside : ∀ k ≤ l.steps, g.Has (l.pointX k) (l.pointY k) → inside (l.pointX k) (l.pointY k)

end Segment

section rounding

variable {n d k c : ℕ}

theorem rounded_eq_iff (hn : 0 < n) :
    rounded n d k = c ↔ 2 * (c * n) < 2 * (d * k) + n ∧ 2 * (d * k) ≤ 2 * (c * n) + n := by
  rw [rounded, Nat.div_eq_iff (by omega)]
  have h₁ : 2 * d * k = 2 * (d * k) := by ring
  have h₂ : c * (2 * n) = 2 * (c * n) := by ring
  rw [h₁, h₂]
  omega

theorem rounded_spec (hn : 0 < n) :
    2 * (rounded n d k * n) < 2 * (d * k) + n ∧ 2 * (d * k) ≤ 2 * (rounded n d k * n) + n :=
  (rounded_eq_iff hn).mp rfl

/-- Along the longer side. -/
theorem rounded_self (hn : 0 < n) : rounded n n k = k := by
  rw [rounded_eq_iff hn, Nat.mul_comm n k]
  omega

theorem rounded_zero : rounded n d 0 = 0 := by
  rw [rounded, Nat.mul_zero, Nat.div_eq_zero_iff]
  omega

/-- At the end. -/
theorem rounded_steps (hn : 0 < n) : rounded n d n = d := by
  rw [rounded_eq_iff hn]
  omega

/-- One step along the longer side. -/
theorem rounded_succ (hn : 0 < n) (hd : d ≤ n) :
    rounded n d (k + 1) = if 2 * (rounded n d k * n) + n < 2 * (d * k) + 2 * d
      then rounded n d k + 1 else rounded n d k := by
  obtain ⟨hlow, hhigh⟩ := @rounded_spec n d k hn
  generalize rounded n d k = c at *
  rw [rounded_eq_iff hn, Nat.mul_succ]
  split
  · rw [Nat.succ_mul c n]
    omega
  · omega

theorem rounded_le (hn : 0 < n) (hk : k ≤ n) : rounded n d k ≤ d := by
  obtain ⟨hlow, -⟩ := @rounded_spec n d k hn
  by_contra hlt
  have h₁ : (d + 1) * n ≤ rounded n d k * n := Nat.mul_le_mul_right n (by omega)
  have h₂ : d * k ≤ d * n := Nat.mul_le_mul_left d hk
  rw [Nat.succ_mul] at h₁
  omega

end rounding

section drawing

variable {g : Display} {inside : ℤ → ℤ → Prop} {l : Segment} {color : GfxColor}

theorem absDiff_eq {a b : ℤ} (h : Fits32 ((b - a).natAbs : ℤ)) : absDiff a b = (b - a).natAbs := by
  rw [fits32_iff] at h
  have hfit : Fits32 (b - a) := by
    rw [fits32_iff]
    omega
  rw [absDiff, wrap32_eq hfit]
  split
  · have hneg : Fits32 (-(b - a)) := by
      rw [fits32_iff]
      omega
    rw [wrap32_eq hneg]
    omega
  · omega

/-- A point on the way from one end to the other. -/
theorem between_fits {a b : ℤ} {c : ℕ} (ha : Fits32 a) (hb : Fits32 b) (hc : c ≤ (b - a).natAbs) :
    Fits32 (a + direction a b * c) := by
  rw [direction]
  split
  · exact ha.of_between hb (by omega) (by omega)
  · exact hb.of_between ha (by omega) (by omega)

theorem direction_end_iff {a b : ℤ} {c : ℕ} :
    a + direction a b * c = b ↔ c = (b - a).natAbs := by
  rw [direction]
  split <;> omega

/-- The error term of a line that is at least as wide as high. -/
theorem errAt_wide {k : ℕ} (h : l.dy ≤ l.dx) (hn : 0 < l.dx) :
    l.errAt k = l.dx - l.dy - (l.dy * k : ℕ) + (rounded l.dx l.dy k * l.dx : ℕ) := by
  rw [Segment.errAt, Segment.steps, max_eq_left h, rounded_self hn]
  push_cast
  ring

/-- The error term of a line that is higher than wide. -/
theorem errAt_high {k : ℕ} (h : l.dx < l.dy) :
    l.errAt k = l.dx - l.dy - (rounded l.dy l.dx k * l.dy : ℕ) + (l.dx * k : ℕ) := by
  rw [Segment.errAt, Segment.steps, max_eq_right h.le, @rounded_self l.dy k (by omega)]
  push_cast
  ring

/-- The two tests of the loop decide whether the rounded coordinates change. -/
theorem step_iff {k : ℕ} (hn : 0 < l.steps) :
    (2 * l.errAt k > -(l.dy : ℤ) ↔
      2 * (rounded l.steps l.dx k * l.steps) + l.steps < 2 * (l.dx * k) + 2 * l.dx) ∧
    (2 * l.errAt k < (l.dx : ℤ) ↔
      2 * (rounded l.steps l.dy k * l.steps) + l.steps < 2 * (l.dy * k) + 2 * l.dy) := by
  rcases Nat.lt_or_ge l.dx l.dy with h | h
  · have hsteps : l.steps = l.dy := max_eq_right h.le
    rw [hsteps] at hn
    obtain ⟨hlow, hhigh⟩ := @rounded_spec l.dy l.dx k hn
    rw [hsteps, errAt_high h, rounded_self hn, Nat.mul_comm k l.dy]
    generalize rounded l.dy l.dx k * l.dy = q at *
    generalize l.dx * k = p at *
    omega
  · have hsteps : l.steps = l.dx := max_eq_left h
    rw [hsteps] at hn
    obtain ⟨hlow, hhigh⟩ := @rounded_spec l.dx l.dy k hn
    -- on the diagonal the rounded coordinate is exact
    have hdiag : l.dy = l.dx → rounded l.dx l.dy k * l.dx = l.dy * k := by
      intro heq
      rw [heq, rounded_self hn, Nat.mul_comm]
    rw [hsteps, errAt_wide h hn, rounded_self hn, Nat.mul_comm k l.dx]
    generalize rounded l.dx l.dy k * l.dx = q at *
    generalize l.dy * k = p at *
    omega

theorem rounded_succ_x {k : ℕ} (hn : 0 < l.steps) :
    rounded l.steps l.dx (k + 1) = if 2 * l.errAt k > -(l.dy : ℤ)
      then rounded l.steps l.dx k + 1 else rounded l.steps l.dx k := by
  rw [rounded_succ hn (le_max_left _ _)]
  exact if_congr (step_iff hn).1.symm rfl rfl

theorem rounded_succ_y {k : ℕ} (hn : 0 < l.steps) :
    rounded l.steps l.dy (k + 1) = if 2 * l.errAt k < (l.dx : ℤ)
      then rounded l.steps l.dy k + 1 else rounded l.steps l.dy k := by
  rw [rounded_succ hn (le_max_right _ _)]
  exact if_congr (step_iff hn).2.symm rfl rfl

theorem pointX_succ {k : ℕ} (hn : 0 < l.steps) :
    l.pointX (k + 1) = if 2 * l.errAt k > -(l.dy : ℤ)
      then l.pointX k + direction l.x0 l.x1 else l.pointX k := by
  rw [Segment.pointX, Segment.pointX, rounded_succ_x hn]
  split
  · push_cast
    ring
  · rfl

theorem pointY_succ {k : ℕ} (hn : 0 < l.steps) :
    l.pointY (k + 1) = if 2 * l.errAt k < (l.dx : ℤ)
      then l.pointY k + direction l.y0 l.y1 else l.pointY k := by
  rw [Segment.pointY, Segment.pointY, rounded_succ_y hn]
  split
  · push_cast
    ring
  · rfl

theorem errAt_succ {k : ℕ} (hn : 0 < l.steps) :
    l.errAt (k + 1) = l.errAt k - (if 2 * l.errAt k > -(l.dy : ℤ) then (l.dy : ℤ) else 0) +
      (if 2 * l.errAt k < (l.dx : ℤ) then (l.dx : ℤ) else 0) := by
  have hk : l.errAt k =
      l.dx - l.dy - rounded l.steps l.dx k * l.dy + rounded l.steps l.dy k * l.dx := rfl
  rw [Segment.errAt, rounded_succ_x hn, rounded_succ_y hn]
  by_cases hx : 2 * l.errAt k > -(l.dy : ℤ)
  · by_cases hy : 2 * l.errAt k < (l.dx : ℤ)
    · rw [if_pos hx, if_pos hx, if_pos hy, if_pos hy, hk]
      push_cast
      ring
    · rw [if_pos hx, if_pos hx, if_neg hy, if_neg hy, hk]
      push_cast
      ring
  · by_cases hy : 2 * l.errAt k < (l.dx : ℤ)
    · rw [if_neg hx, if_neg hx, if_pos hy, if_pos hy, hk]
      push_cast
      ring
    · rw [if_neg hx, if_neg hx, if_neg hy, if_neg hy, hk]
      ring

/-- The points are values of an `int`. -/
theorem point_fits {k : ℕ} (hwf : l.Wellformed) (hk : k ≤ l.steps) :
    Fits32 (l.pointX k) ∧ Fits32 (l.pointY k) := by
  rcases Nat.eq_zero_or_pos k with rfl | hpos
  · rw [Segment.pointX, Segment.pointY, rounded_zero, rounded_zero]
    simpa using ⟨hwf.x0_fits, hwf.y0_fits⟩
  · exact ⟨between_fits hwf.x0_fits hwf.x1_fits (rounded_le (by omega) hk),
      between_fits hwf.y0_fits hwf.y1_fits (rounded_le (by omega) hk)⟩

/-- The loop goes from one point of the line to the next. -/
theorem lineStep_at {k : ℕ} (hwf : l.Wellformed) (hdy : Fits32 l.dy)
    (herr : ∀ k ≤ l.steps, Fits32 (2 * l.errAt k)) (hk : k < l.steps) :
    lineStep l.dx l.dy (direction l.x0 l.x1) (direction l.y0 l.y1)
        ⟨l.pointX k, l.pointY k, l.errAt k⟩ =
      ⟨l.pointX (k + 1), l.pointY (k + 1), l.errAt (k + 1)⟩ := by
  have hn : 0 < l.steps := by omega
  obtain ⟨hfitx, hfity⟩ := point_fits (k := k + 1) hwf (by omega)
  have hfite : Fits32 (l.errAt (k + 1)) := by
    have hfit := herr (k + 1) (by omega)
    rw [fits32_iff] at hfit ⊢
    omega
  have hneg : Fits32 (-(l.dy : ℤ)) := by
    rw [fits32_iff] at hdy ⊢
    omega
  rw [pointX_succ hn] at hfitx ⊢
  rw [pointY_succ hn] at hfity ⊢
  rw [errAt_succ hn] at hfite ⊢
  simp only [lineStep, wrap32_eq (herr k (by omega)), wrap32_eq hneg]
  by_cases hx : 2 * l.errAt k > -(l.dy : ℤ)
  · rw [if_pos hx] at hfitx hfite ⊢
    by_cases hy : 2 * l.errAt k < (l.dx : ℤ)
    · rw [if_pos hy] at hfity hfite ⊢
      simp only [if_pos hx, if_pos hy, wrap32_add, wrap32_eq hfitx, wrap32_eq hfity,
        wrap32_eq hfite]
    · rw [if_neg hy, add_zero] at hfite
      simp only [if_pos hx, if_neg hy, add_zero, wrap32_eq hfitx, wrap32_eq hfite]
  · rw [if_neg hx, sub_zero] at hfite
    by_cases hy : 2 * l.errAt k < (l.dx : ℤ)
    · rw [if_pos hy] at hfity hfite
      simp only [if_neg hx, if_pos hy, sub_zero, wrap32_eq hfity, wrap32_eq hfite]
    · simp only [if_neg hx, if_neg hy, sub_zero, add_zero]

/-- Only the last point is the end of the line. -/
theorem point_eq_end_iff {k : ℕ} (hk : k ≤ l.steps) :
    (l.pointX k = l.x1 ∧ l.pointY k = l.y1) ↔ k = l.steps := by
  constructor
  · rintro ⟨hx, hy⟩
    by_contra hne
    have hn : 0 < l.steps := by omega
    rcases max_choice l.dx l.dy with h | h
    · have hsteps : l.steps = l.dx := h
      rw [Segment.pointX, direction_end_iff, hsteps, rounded_self (by omega)] at hx
      exact hne (hx.trans hsteps.symm)
    · have hsteps : l.steps = l.dy := h
      rw [Segment.pointY, direction_end_iff, hsteps, rounded_self (by omega)] at hy
      exact hne (hy.trans hsteps.symm)
  · rintro rfl
    rcases Nat.eq_zero_or_pos l.steps with h | h
    · rw [Segment.pointX, Segment.pointY, h, rounded_zero, rounded_zero]
      have hmax : l.steps = max l.dx l.dy := rfl
      have hdx : l.dx = (l.x1 - l.x0).natAbs := rfl
      have hdy : l.dy = (l.y1 - l.y0).natAbs := rfl
      omega
    · rw [Segment.pointX, Segment.pointY, rounded_steps h, rounded_steps h]
      exact ⟨direction_end_iff.mpr rfl, direction_end_iff.mpr rfl⟩

/-- The loop from a point of the line on. -/
theorem lineLoop_confined (hwf : l.Wellformed) (h : l.Inside g inside) (m : ℕ) {k fuel : ℕ}
    (hm : k + m = l.steps) (hfuel : m < fuel) (buf : BackBuffer) :
    ∃ buf', lineLoop g l color fuel ⟨l.pointX k, l.pointY k, l.errAt k⟩ buf = some buf' ∧
      Confined g inside buf buf' := by
  induction m generalizing k fuel buf with
  | zero =>
    obtain ⟨fuel, rfl⟩ : ∃ f, fuel = f + 1 := ⟨fuel - 1, by omega⟩
    have hend := (@point_eq_end_iff l k (by omega)).mpr (by omega)
    refine ⟨_, by rw [lineLoop, if_pos hend], ?_⟩
    exact putpixel_confined (h.point_inside k (by omega))
  | succ m ih =>
    obtain ⟨fuel, rfl⟩ : ∃ f, fuel = f + 1 := ⟨fuel - 1, by omega⟩
    have hend := mt (@point_eq_end_iff l k (by omega)).mp (by omega)
    obtain ⟨buf', hrun, hconf⟩ := @ih (k + 1) fuel (by omega) (by omega)
      (gfxPutpixel g (l.pointX k) (l.pointY k) color buf)
    refine ⟨buf', ?_, (putpixel_confined (h.point_inside k (by omega))).trans hconf⟩
    rw [lineLoop, if_neg hend, absDiff_eq h.dx_fits, absDiff_eq h.dy_fits]
    rw [← lineStep_at hwf h.dy_fits h.err_fits (by omega)] at hrun
    exact hrun

/-- A line whose arithmetic does not overflow is drawn, within any region that holds its points. -/
theorem drawLine_confined (hwf : l.Wellformed) (h : l.Inside g inside) (buf : BackBuffer) :
    ∃ buf', gfxDrawLine g l color buf = some buf' ∧ Confined g inside buf buf' := by
  have hzero : l.errAt 0 = wrap32 (absDiff l.x0 l.x1 - absDiff l.y0 l.y1) := by
    have hfit := h.err_fits 0 (by omega)
    rw [absDiff_eq h.dx_fits, absDiff_eq h.dy_fits, ← Segment.dx, ← Segment.dy]
    have heq : l.errAt 0 = l.dx - l.dy := by
      simp [Segment.errAt, rounded_zero]
    rw [heq] at hfit ⊢
    refine (wrap32_eq ?_).symm
    rw [fits32_iff] at hfit ⊢
    omega
  have hx : l.pointX 0 = l.x0 := by simp [Segment.pointX, rounded_zero]
  have hy : l.pointY 0 = l.y0 := by simp [Segment.pointY, rounded_zero]
  have hsteps : l.steps < 2 ^ 96 := by
    have hdx := h.dx_fits
    have hdy := h.dy_fits
    have hmax : l.steps = max l.dx l.dy := rfl
    rw [fits32_iff] at hdx hdy
    norm_num
    omega
  rw [gfxDrawLine, ← hzero, ← hx, ← hy]
  exact lineLoop_confined hwf h l.steps (by omega) hsteps buf

end drawing

end AuroraOS.Gfx
