import AuroraOS.Gfx.Line
import Mathlib.Algebra.Order.Field.Basic
import Mathlib.Algebra.Order.Field.Rat
import Mathlib.Algebra.Order.Ring.Abs
import Mathlib.Data.List.Chain
import Mathlib.Data.List.Range
import Mathlib.Tactic.FieldSimp
import Mathlib.Tactic.Linarith

/-!
# The points of a line

The points that `gfx_draw_line` plots, in order: they go from one end to the other in single steps
and stay as close to the ideal line as pixels can.

## Main definitions

- `gfxLinePoints`
- `Segment.Near` — within half a pixel of the ideal line

## Main results

- `gfxLinePoints_eq`
- `gfxDrawLine_points`
-/

namespace AuroraOS.Gfx

open AuroraOS.Lib

/-- The points at which the loop of `gfx_draw_line` calls `gfx_putpixel`. -/
def linePointsLoop (l : Segment) : ℕ → LineVars → Option (List (ℤ × ℤ))
  | 0, _ => none
  | fuel + 1, v =>
    if v.x = l.x1 ∧ v.y = l.y1 then some [(v.x, v.y)]
    else (linePointsLoop l fuel (lineStep (absDiff l.x0 l.x1) (absDiff l.y0 l.y1)
      (direction l.x0 l.x1) (direction l.y0 l.y1) v)).map ((v.x, v.y) :: ·)

/-- The points that `gfx_draw_line` plots, in order. -/
def gfxLinePoints (l : Segment) : Option (List (ℤ × ℤ)) :=
  linePointsLoop l (2 ^ 96) ⟨l.x0, l.y0, wrap32 (absDiff l.x0 l.x1 - absDiff l.y0 l.y1)⟩

/-- The pixels of a list of points. -/
def plot (g : Display) (color : GfxColor) (points : List (ℤ × ℤ)) (buf : BackBuffer) : BackBuffer :=
  points.foldl (fun buf p => gfxPutpixel g p.1 p.2 color buf) buf

namespace Segment

variable (l : Segment)

def point (k : ℕ) : ℤ × ℤ := (l.pointX k, l.pointY k)

/-- The digital line. -/
def points : List (ℤ × ℤ) := (List.range (l.steps + 1)).map l.point

/-- The row of the ideal line in a column, and the column in a row. -/
def idealY (x : ℚ) : ℚ := l.y0 + (x - l.x0) * (l.y1 - l.y0) / (l.x1 - l.x0)

def idealX (y : ℚ) : ℚ := l.x0 + (y - l.y0) * (l.x1 - l.x0) / (l.y1 - l.y0)

/-- Along the shorter side, the point is within half a pixel of the ideal line. -/
def Near (p : ℤ × ℤ) : Prop :=
  (l.dy ≤ l.dx → |(p.2 : ℚ) - l.idealY p.1| ≤ 1 / 2) ∧
    (l.dx ≤ l.dy → |(p.1 : ℚ) - l.idealX p.2| ≤ 1 / 2)

/-- One step goes on by one pixel along the longer side, and by at most one along the other. -/
def Adjacent (p q : ℤ × ℤ) : Prop :=
  |q.1 - p.1| ≤ 1 ∧ |q.2 - p.2| ≤ 1 ∧
    (l.dy ≤ l.dx → |q.1 - p.1| = 1) ∧ (l.dx ≤ l.dy → |q.2 - p.2| = 1)

end Segment

section Loop

variable {l : Segment}

/-- What is drawn are the points. -/
theorem lineLoop_eq (g : Display) (color : GfxColor) (fuel : ℕ) (v : LineVars) (buf : BackBuffer) :
    lineLoop g l color fuel v buf =
      (linePointsLoop l fuel v).map fun points => plot g color points buf := by
  induction fuel generalizing v buf with
  | zero => rfl
  | succ fuel ih =>
    rw [lineLoop, linePointsLoop]
    split_ifs
    · rfl
    · rw [ih, Option.map_map]
      rfl

theorem gfxDrawLine_eq (g : Display) (color : GfxColor) (buf : BackBuffer) :
    gfxDrawLine g l color buf = (gfxLinePoints l).map fun points => plot g color points buf :=
  lineLoop_eq g color _ _ buf

/-- The loop from a point of the line on. -/
theorem linePointsLoop_eq (hwf : l.Wellformed) (hdx : Fits32 l.dx) (hdy : Fits32 l.dy)
    (herr : ∀ k ≤ l.steps, Fits32 (2 * l.errAt k)) (m : ℕ) {k fuel : ℕ} (hm : k + m = l.steps)
    (hfuel : m < fuel) :
    linePointsLoop l fuel ⟨l.pointX k, l.pointY k, l.errAt k⟩ =
      some ((List.range' k (m + 1)).map l.point) := by
  induction m generalizing k fuel with
  | zero =>
    obtain ⟨fuel, rfl⟩ : ∃ f, fuel = f + 1 := ⟨fuel - 1, by omega⟩
    rw [linePointsLoop, if_pos ((point_eq_end_iff (by omega)).mpr (by omega))]
    rfl
  | succ m ih =>
    obtain ⟨fuel, rfl⟩ : ∃ f, fuel = f + 1 := ⟨fuel - 1, by omega⟩
    rw [linePointsLoop, if_neg (mt (point_eq_end_iff (by omega)).mp (by omega)), absDiff_eq hdx,
      absDiff_eq hdy]
    show Option.map _ (linePointsLoop l fuel (lineStep l.dx l.dy _ _ _)) = _
    rw [lineStep_at hwf hdy herr (by omega), ih (by omega) (by omega), Option.map_some,
      List.range'_succ, List.map_cons]
    rfl

/-- Without overflow the loop plots the digital line. -/
theorem gfxLinePoints_eq (hwf : l.Wellformed) (hdx : Fits32 l.dx) (hdy : Fits32 l.dy)
    (herr : ∀ k ≤ l.steps, Fits32 (2 * l.errAt k)) : gfxLinePoints l = some l.points := by
  have hzero : wrap32 (absDiff l.x0 l.x1 - absDiff l.y0 l.y1) = l.errAt 0 := by
    have hfit := herr 0 (Nat.zero_le _)
    have heq : l.errAt 0 = l.dx - l.dy := by simp [Segment.errAt, rounded_zero]
    rw [absDiff_eq hdx, absDiff_eq hdy, ← Segment.dx, ← Segment.dy]
    rw [heq] at hfit ⊢
    rw [fits32_iff] at hfit
    exact wrap32_eq (fits32_iff.mpr (by omega))
  have hx : l.pointX 0 = l.x0 := by simp [Segment.pointX, rounded_zero]
  have hy : l.pointY 0 = l.y0 := by simp [Segment.pointY, rounded_zero]
  have hsteps : l.steps < 2 ^ 96 := by
    have hmax : l.steps = max l.dx l.dy := rfl
    rw [fits32_iff] at hdx hdy
    norm_num
    omega
  have hloop := linePointsLoop_eq hwf hdx hdy herr l.steps (Nat.zero_add _) hsteps
  rw [hx, hy] at hloop
  rw [gfxLinePoints, hzero, hloop, Segment.points, List.range_eq_range']

end Loop

section Geometry

variable {l : Segment} {k : ℕ}

theorem abs_direction (a b : ℤ) : |direction a b| = 1 := by
  rw [direction]
  split_ifs <;> rfl

/-- What is left of a distance is its size times its direction. -/
theorem direction_mul (a b : ℤ) : direction a b * ((b - a).natAbs : ℕ) = b - a := by
  rw [direction]
  split_ifs <;> omega

/-- The error term stays as small as the longer side of the line. -/
theorem two_errAt_bounds : -3 * (l.steps : ℤ) ≤ 2 * l.errAt k ∧
    2 * l.errAt k ≤ 3 * (l.steps : ℤ) := by
  have hsteps : l.steps = max l.dx l.dy := rfl
  obtain hzero | hn := Nat.eq_zero_or_pos l.steps
  · have hdx : l.dx = 0 := by omega
    have hdy : l.dy = 0 := by omega
    simp [Segment.errAt, hdx, hdy, hzero]
  obtain hhigh | hwide := Nat.lt_or_ge l.dx l.dy
  · obtain ⟨h₁, h₂⟩ := @rounded_spec l.dy l.dx k (by omega)
    rw [errAt_high hhigh]
    omega
  · obtain ⟨h₁, h₂⟩ := @rounded_spec l.dx l.dy k (by omega)
    rw [errAt_wide hwide (by omega)]
    omega

/-- Along the longer side every step counts. -/
theorem pointX_major (h : l.dy ≤ l.dx) (hn : 0 < l.dx) :
    l.pointX k = l.x0 + direction l.x0 l.x1 * k := by
  rw [Segment.pointX, Segment.steps, max_eq_left h, rounded_self hn]

theorem pointY_major (h : l.dx ≤ l.dy) (hn : 0 < l.dy) :
    l.pointY k = l.y0 + direction l.y0 l.y1 * k := by
  rw [Segment.pointY, Segment.steps, max_eq_right h, rounded_self hn]

theorem point_adjacent (hk : k < l.steps) : l.Adjacent (l.point k) (l.point (k + 1)) := by
  have hn : 0 < l.steps := Nat.zero_lt_of_lt hk
  have hsteps : l.steps = max l.dx l.dy := rfl
  have hdx := abs_direction l.x0 l.x1
  have hdy := abs_direction l.y0 l.y1
  refine ⟨?_, ?_, fun h => ?_, fun h => ?_⟩
  · show |l.pointX (k + 1) - l.pointX k| ≤ 1
    rw [pointX_succ hn]
    split_ifs
    · rw [add_sub_cancel_left, hdx]
    · rw [sub_self]
      decide
  · show |l.pointY (k + 1) - l.pointY k| ≤ 1
    rw [pointY_succ hn]
    split_ifs
    · rw [add_sub_cancel_left, hdy]
    · rw [sub_self]
      decide
  · show |l.pointX (k + 1) - l.pointX k| = 1
    rw [pointX_major h (by omega), pointX_major h (by omega), add_sub_add_left_eq_sub, ← mul_sub,
      Nat.cast_succ, add_sub_cancel_left, mul_one, hdx]
  · show |l.pointY (k + 1) - l.pointY k| = 1
    rw [pointY_major h (by omega), pointY_major h (by omega), add_sub_add_left_eq_sub, ← mul_sub,
      Nat.cast_succ, add_sub_cancel_left, mul_one, hdy]

/-- Rounding moves by half a unit at most. -/
theorem abs_rounded_sub_le {n d : ℕ} (hn : 0 < n) (k : ℕ) :
    |(rounded n d k : ℚ) - d * k / n| ≤ 1 / 2 := by
  obtain ⟨hlow, hhigh⟩ := @rounded_spec n d k hn
  have hlow : 2 * ((rounded n d k : ℚ) * n) < 2 * (d * k) + n := by exact_mod_cast hlow
  have hhigh : 2 * ((d : ℚ) * k) ≤ 2 * (rounded n d k * n) + n := by exact_mod_cast hhigh
  have hpos : (0 : ℚ) < n := by exact_mod_cast hn
  have heq : (rounded n d k : ℚ) - d * k / n = (rounded n d k * n - d * k) / n := by
    field_simp
  rw [heq, abs_div, abs_of_pos hpos, div_le_iff₀ hpos, abs_le]
  constructor <;> linarith

/-- A coordinate that is rounded is near the ideal one, whichever way the line goes. -/
theorem abs_sub_ideal_le {a₀ a₁ b₀ b₁ s t : ℤ} {n d : ℕ} (hn : 0 < n) (hs : |s| = 1) (ht : |t| = 1)
    (ha : s * n = a₁ - a₀) (hb : t * d = b₁ - b₀) (k : ℕ) :
    |((b₀ + t * rounded n d k : ℤ) : ℚ) -
      (b₀ + (((a₀ + s * k : ℤ) : ℚ) - a₀) * (b₁ - b₀) / (a₁ - a₀))| ≤ 1 / 2 := by
  have ha : (a₁ : ℚ) - a₀ = s * n := by exact_mod_cast ha.symm
  have hb : (b₁ : ℚ) - b₀ = t * d := by exact_mod_cast hb.symm
  have hpos : (n : ℚ) ≠ 0 := by exact_mod_cast hn.ne'
  have hs0 : (s : ℚ) ≠ 0 := by
    have hne : s ≠ 0 := fun h => by rw [h] at hs; exact absurd hs (by decide)
    exact_mod_cast hne
  have ht : |(t : ℚ)| = 1 := by exact_mod_cast ht
  have heq : ((b₀ + t * rounded n d k : ℤ) : ℚ) -
      (b₀ + (((a₀ + s * k : ℤ) : ℚ) - a₀) * (b₁ - b₀) / (a₁ - a₀)) =
        t * ((rounded n d k : ℚ) - d * k / n) := by
    rw [ha, hb]
    push_cast
    field_simp
    ring
  rw [heq, abs_mul, ht, one_mul]
  exact abs_rounded_sub_le hn k

theorem point_near : l.Near (l.point k) := by
  have hx := direction_mul l.x0 l.x1
  have hy := direction_mul l.y0 l.y1
  rw [← Segment.dx] at hx
  rw [← Segment.dy] at hy
  constructor
  · intro h
    show |(l.pointY k : ℚ) - l.idealY (l.pointX k)| ≤ 1 / 2
    obtain hzero | hn := Nat.eq_zero_or_pos l.dx
    · have hd : l.dy = 0 := Nat.le_zero.mp (hzero ▸ h)
      rw [hd, Nat.cast_zero, mul_zero, eq_comm, sub_eq_zero] at hy
      simp [Segment.idealY, Segment.pointY, Segment.steps, rounded, hzero, hd, hy]
    · rw [Segment.idealY, pointX_major h hn, Segment.pointY, Segment.steps, max_eq_left h]
      exact abs_sub_ideal_le hn (abs_direction _ _) (abs_direction _ _) hx hy k
  · intro h
    show |(l.pointX k : ℚ) - l.idealX (l.pointY k)| ≤ 1 / 2
    obtain hzero | hn := Nat.eq_zero_or_pos l.dy
    · have hd : l.dx = 0 := Nat.le_zero.mp (hzero ▸ h)
      rw [hd, Nat.cast_zero, mul_zero, eq_comm, sub_eq_zero] at hx
      simp [Segment.idealX, Segment.pointX, Segment.steps, rounded, hzero, hd, hx]
    · rw [Segment.idealX, pointY_major h hn, Segment.pointX, Segment.steps, max_eq_right h]
      exact abs_sub_ideal_le hn (abs_direction _ _) (abs_direction _ _) hy hx k

theorem point_zero : l.point 0 = (l.x0, l.y0) := by
  rw [Segment.point, Segment.pointX, Segment.pointY, rounded_zero, rounded_zero, Nat.cast_zero,
    mul_zero, mul_zero, add_zero, add_zero]

theorem point_steps : l.point l.steps = (l.x1, l.y1) := by
  obtain ⟨hx, hy⟩ := (point_eq_end_iff (Nat.le_refl l.steps)).mpr rfl
  exact Prod.ext hx hy

theorem points_chain : l.points.IsChain l.Adjacent := by
  rw [Segment.points, List.isChain_map, List.isChain_range_succ]
  exact fun k hk => point_adjacent hk

end Geometry

/-- A line between points of less than `2 ^ 28` in each coordinate is drawn to its end, in single
    steps along the longer side and within half a pixel of the ideal line. -/
theorem gfxDrawLine_points {l : Segment} (hx0 : |l.x0| < 2 ^ 28) (hy0 : |l.y0| < 2 ^ 28)
    (hx1 : |l.x1| < 2 ^ 28) (hy1 : |l.y1| < 2 ^ 28) :
    ∃ points, gfxLinePoints l = some points ∧
      (∀ g color buf, gfxDrawLine g l color buf = some (plot g color points buf)) ∧
      points.length = max (l.x1 - l.x0).natAbs (l.y1 - l.y0).natAbs + 1 ∧
      points.head? = some (l.x0, l.y0) ∧ points.getLast? = some (l.x1, l.y1) ∧
      points.IsChain l.Adjacent ∧ ∀ p ∈ points, l.Near p := by
  norm_num [abs_lt] at hx0 hy0 hx1 hy1
  have hdx : l.dx = (l.x1 - l.x0).natAbs := rfl
  have hdy : l.dy = (l.y1 - l.y0).natAbs := rfl
  have hsteps : l.steps = max l.dx l.dy := rfl
  have hpoints : gfxLinePoints l = some l.points := by
    refine gfxLinePoints_eq ?_ ?_ ?_ fun k _ => ?_
    · constructor <;> rw [fits32_iff] <;> omega
    · rw [fits32_iff]
      omega
    · rw [fits32_iff]
      omega
    · obtain ⟨hlow, hhigh⟩ := @two_errAt_bounds l k
      rw [fits32_iff]
      omega
  refine ⟨l.points, hpoints, fun g color buf => ?_, ?_, ?_, ?_, points_chain, ?_⟩
  · rw [gfxDrawLine_eq, hpoints, Option.map_some]
  · rw [Segment.points, List.length_map, List.length_range]
    rfl
  · rw [Segment.points, List.range_succ_eq_map, List.map_cons, List.head?_cons, point_zero]
  · rw [Segment.points, List.range_succ, List.map_append, List.map_singleton,
      List.getLast?_concat, point_steps]
  · intro p hp
    obtain ⟨k, -, rfl⟩ := List.mem_map.mp hp
    exact point_near

theorem gfxDrawLine_points_steep :
    ∃ points, gfxLinePoints ⟨0, 0, -1, 3⟩ = some points ∧
      (∀ g color buf, gfxDrawLine g ⟨0, 0, -1, 3⟩ color buf = some (plot g color points buf)) ∧
      points.length = 4 ∧ points.head? = some (0, 0) ∧ points.getLast? = some (-1, 3) ∧
      points.IsChain (Segment.Adjacent ⟨0, 0, -1, 3⟩) ∧
      ∀ p ∈ points, Segment.Near ⟨0, 0, -1, 3⟩ p :=
  gfxDrawLine_points (l := ⟨0, 0, -1, 3⟩) (by decide) (by decide) (by decide) (by decide)

end AuroraOS.Gfx
