import AuroraOS.Lib.Bits
import Mathlib.AlgebraicGeometry.EllipticCurve.Affine.Point
import Mathlib.Tactic.FieldSimp

/-!
# Points in Jacobian coordinates

The point `(x, y)` of the curve `y² = x³ + ax + b` has the coordinates `(xz², yz³, z)` for every `z`
that is not zero. Doubling and addition in these coordinates need no division; they follow the group
law of the affine points for every choice of representatives.

## Main definitions

- `JPoint`, `JPoint.double`, `JPoint.add`
- `JPoint.Represents`

## Main results

- `JPoint.Represents.double`, `JPoint.Represents.add`
- `JPoint.Represents.scalarMult`
-/

namespace AuroraOS.Lib

open WeierstrassCurve

variable {F : Type*} [Field F]

/-- The curve `y² = x³ + ax + b`. -/
def shortCurve (a b : F) : Affine F := ⟨0, 0, 0, a, b⟩

theorem shortCurve_Δ (a b : F) : (shortCurve a b).Δ = -(64 * a ^ 3 + 432 * b ^ 2) := by
  simp only [shortCurve, WeierstrassCurve.Δ, WeierstrassCurve.b₂, WeierstrassCurve.b₄,
    WeierstrassCurve.b₆, WeierstrassCurve.b₈]
  ring

theorem equation_shortCurve {a b x y : F} :
    (shortCurve a b).Equation x y ↔ y ^ 2 = x ^ 3 + a * x + b := by
  simp [Affine.equation_iff, shortCurve]

structure JPoint (F : Type*) where
  x : F
  y : F
  z : F

namespace JPoint

def infinity : JPoint F := ⟨0, 0, 0⟩

/-- The doubled coordinates, where neither `y` nor `z` is zero. -/
def doubleFormula (a : F) (p : JPoint F) : JPoint F :=
  let xx := p.x * p.x
  let yy := p.y * p.y
  let yyyy := yy * yy
  let zz := p.z * p.z
  let t := (p.x + yy) * (p.x + yy) - xx - yyyy
  let s := t + t
  let m := 3 * xx + a * (zz * zz)
  let x := m * m - (s + s)
  ⟨x, m * (s - x) - (yyyy + yyyy + (yyyy + yyyy) + (yyyy + yyyy + (yyyy + yyyy))),
    (p.y + p.z) * (p.y + p.z) - yy - zz⟩

def double [DecidableEq F] (a : F) (p : JPoint F) : JPoint F :=
  if p.z = 0 then p else if p.y = 0 then infinity else p.doubleFormula a

theorem doubleFormula_z (a : F) (p : JPoint F) : (p.doubleFormula a).z = 2 * p.y * p.z := by
  simp only [doubleFormula]
  ring

/-- The coordinates of the sum, where the affine `x` differ. -/
def addFormula (p q : JPoint F) : JPoint F :=
  let z1z1 := p.z * p.z
  let z2z2 := q.z * q.z
  let u1 := p.x * z2z2
  let u2 := q.x * z1z1
  let s1 := p.y * q.z * z2z2
  let s2 := q.y * p.z * z1z1
  let h := u2 - u1
  let i := (h + h) * (h + h)
  let j := h * i
  let r := s2 - s1 + (s2 - s1)
  let v := u1 * i
  let x := r * r - j - (v + v)
  ⟨x, r * (v - x) - (s1 + s1) * j, ((p.z + q.z) * (p.z + q.z) - z1z1 - z2z2) * h⟩

def add [DecidableEq F] (a : F) (p q : JPoint F) : JPoint F :=
  if p.z = 0 then q
  else if q.z = 0 then p
  else if p.x * (q.z * q.z) = q.x * (p.z * p.z) then
    if p.y * q.z * (q.z * q.z) = q.y * p.z * (p.z * p.z) then p.double a else infinity
  else p.addFormula q

theorem addFormula_z (p q : JPoint F) :
    (p.addFormula q).z = 2 * p.z * q.z * (q.x * (p.z * p.z) - p.x * (q.z * q.z)) := by
  simp only [addFormula]
  ring

/-- The coordinates stand for a point of the curve. -/
def Represents {a b : F} (p : JPoint F) : (shortCurve a b).Point → Prop
  | .zero => p.z = 0
  | .some x y _ => p.z ≠ 0 ∧ p.x = x * p.z ^ 2 ∧ p.y = y * p.z ^ 3

namespace Represents

variable {a b : F} {p q : JPoint F} {P Q : (shortCurve a b).Point}

theorem infinity : (infinity : JPoint F).Represents (0 : (shortCurve a b).Point) := rfl

/-- The coordinates of a multiple follow from its slope. -/
theorem of_coordinates {x y : F} {h : (shortCurve a b).Nonsingular x y} {r : JPoint F}
    (hz : r.z ≠ 0) (hx : r.x = x * r.z ^ 2) (hy : r.y = y * r.z ^ 3) :
    r.Represents (.some x y h : (shortCurve a b).Point) :=
  ⟨hz, hx, hy⟩

theorem negY_eq (x y : F) : (shortCurve a b).negY x y = -y := by
  simp [Affine.negY, shortCurve]

theorem addX_eq (x x' slope : F) :
    (shortCurve a b).addX x x' slope = slope ^ 2 - x - x' := by
  simp [Affine.addX, shortCurve]

theorem addY_eq (x x' y slope : F) :
    (shortCurve a b).addY x x' y slope = slope * (x - (slope ^ 2 - x - x')) - y := by
  rw [Affine.addY, Affine.negAddY, negY_eq, addX_eq]
  ring

variable [DecidableEq F]

theorem double (htwo : (2 : F) ≠ 0) (hp : p.Represents P) :
    (p.double a).Represents (P + P) := by
  cases P with
  | zero =>
    have hz : p.z = 0 := hp
    rw [JPoint.double, if_pos hz]
    exact hz
  | some x y hns =>
    obtain ⟨hz, hx, hy⟩ := hp
    rw [JPoint.double, if_neg hz]
    by_cases hyz : p.y = 0
    · have hy0 : y = 0 := by
        rw [hyz] at hy
        exact (mul_eq_zero.mp hy.symm).resolve_right (pow_ne_zero 3 hz)
      rw [if_pos hyz, Affine.Point.add_self_of_Y_eq (by rw [negY_eq, hy0, neg_zero])]
      exact infinity
    · have hy0 : y ≠ 0 := by
        rintro rfl
        rw [zero_mul] at hy
        exact hyz hy
      have hneg : y ≠ (shortCurve a b).negY x y := by
        rw [negY_eq]
        intro heq
        have hsum : 2 * y = 0 := by
          rw [two_mul]
          nth_rewrite 1 [heq]
          exact neg_add_cancel y
        exact (mul_ne_zero htwo hy0) hsum
      have hslope : (shortCurve a b).slope x x y y = (3 * x ^ 2 + a) / (2 * y) := by
        rw [Affine.slope_of_Y_ne rfl hneg, negY_eq]
        simp [shortCurve, two_mul]
      rw [if_neg hyz, Affine.Point.add_self_of_Y_ne hneg]
      have hz3 : (p.doubleFormula a).z ≠ 0 := by
        rw [doubleFormula_z]
        exact mul_ne_zero (mul_ne_zero htwo hyz) hz
      refine of_coordinates hz3 ?_ ?_
      · rw [addX_eq, hslope, doubleFormula_z, doubleFormula, hx, hy]
        field_simp
        ring
      · rw [addY_eq, hslope, doubleFormula_z, doubleFormula, hx, hy]
        field_simp
        ring

theorem add (htwo : (2 : F) ≠ 0) (hp : p.Represents P) (hq : q.Represents Q) :
    (p.add a q).Represents (P + Q) := by
  cases P with
  | zero =>
    have hz : p.z = 0 := hp
    rw [JPoint.add, if_pos hz, ← Affine.Point.zero_def, zero_add]
    exact hq
  | some x₁ y₁ h₁ =>
    cases Q with
    | zero =>
      have hzq : q.z = 0 := hq
      rw [JPoint.add, if_neg hp.1, if_pos hzq, ← Affine.Point.zero_def, add_zero]
      exact hp
    | some x₂ y₂ h₂ =>
      have hdouble := hp.double htwo
      obtain ⟨hz₁, hx₁, hy₁⟩ := hp
      obtain ⟨hz₂, hx₂, hy₂⟩ := hq
      have hu : p.x * (q.z * q.z) = q.x * (p.z * p.z) ↔ x₁ = x₂ := by
        have hscale : (p.z * q.z) ^ 2 ≠ 0 := pow_ne_zero 2 (mul_ne_zero hz₁ hz₂)
        rw [hx₁, hx₂, ← mul_left_inj' (a := x₁) hscale]
        constructor <;> intro heq <;> linear_combination heq
      have hs : p.y * q.z * (q.z * q.z) = q.y * p.z * (p.z * p.z) ↔ y₁ = y₂ := by
        have hscale : (p.z * q.z) ^ 3 ≠ 0 := pow_ne_zero 3 (mul_ne_zero hz₁ hz₂)
        rw [hy₁, hy₂, ← mul_left_inj' (a := y₁) hscale]
        constructor <;> intro heq <;> linear_combination heq
      rw [JPoint.add, if_neg hz₁, if_neg hz₂]
      split
      · next hsame =>
        obtain rfl := hu.mp hsame
        split
        · next hsame =>
          obtain rfl := hs.mp hsame
          exact hdouble
        · next hdiff =>
          -- points over the same `x` that differ are inverse
          have hy : y₁ = (shortCurve a b).negY x₁ y₂ :=
            (Affine.Y_eq_of_X_eq h₁.1 h₂.1 rfl).resolve_left (mt hs.mpr hdiff)
          rw [Affine.Point.add_of_Y_eq rfl hy]
          exact infinity
      · next hdiff =>
        have hx : x₁ ≠ x₂ := mt hu.mpr hdiff
        have hsub : x₁ - x₂ ≠ 0 := sub_ne_zero.mpr hx
        rw [Affine.Point.add_of_X_ne hx]
        have hz3 : (p.addFormula q).z ≠ 0 := by
          rw [addFormula_z]
          exact mul_ne_zero (mul_ne_zero (mul_ne_zero htwo hz₁) hz₂)
            (sub_ne_zero.mpr (Ne.symm hdiff))
        refine of_coordinates hz3 ?_ ?_
        · rw [addX_eq, Affine.slope_of_X_ne hx, addFormula_z, addFormula, hx₁, hx₂, hy₁, hy₂]
          field_simp
          ring
        · rw [addY_eq, Affine.slope_of_X_ne hx, addFormula_z, addFormula, hx₁, hx₂, hy₁, hy₂]
          field_simp
          ring

end Represents

variable [DecidableEq F]

/-- Double and, for a bit that is set, add the base. -/
def multStep (a : F) (base result : JPoint F) (bit : Bool) : JPoint F :=
  if bit then (result.double a).add a base else result.double a

/-- Double-and-add over the bits of a scalar, from the highest on. -/
def scalarMult (a : F) (base : JPoint F) (bits : List Bool) : JPoint F :=
  bits.foldl (multStep a base) infinity

theorem Represents.multStep {a b : F} {base result : JPoint F} {P Q : (shortCurve a b).Point}
    (htwo : (2 : F) ≠ 0) (hbase : base.Represents P) (hresult : result.Represents Q) (bit : Bool) :
    (JPoint.multStep a base result bit).Represents (Q + Q + bit.toNat • P) := by
  cases bit with
  | false =>
    rw [Bool.toNat_false, zero_nsmul, add_zero]
    exact hresult.double htwo
  | true =>
    rw [Bool.toNat_true, one_nsmul]
    exact (hresult.double htwo).add htwo hbase

/-- Every step multiplies, whatever representatives the intermediate points have. -/
theorem Represents.scalarMult {a b : F} {base : JPoint F} {P : (shortCurve a b).Point}
    (htwo : (2 : F) ≠ 0) (hbase : base.Represents P) (bits : List Bool) :
    (base.scalarMult a bits).Represents (msbVal bits • P) := by
  induction bits using List.reverseRecOn with
  | nil =>
    exact infinity
  | append_singleton bits bit ih =>
    have hstep := hbase.multStep htwo ih bit
    have hmult : msbVal (bits ++ [bit]) • P =
        msbVal bits • P + msbVal bits • P + bit.toNat • P := by
      rw [msbVal_append_singleton, add_nsmul, two_mul, add_nsmul]
    rw [hmult, JPoint.scalarMult, List.foldl_append]
    exact hstep

end JPoint

end AuroraOS.Lib
