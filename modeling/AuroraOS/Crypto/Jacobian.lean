import AuroraOS.Crypto.P256

/-!
# The group law on buffers

A buffer of Jacobian coordinates stands for the point `(X / Z ^ 2, Y / Z ^ 3)` of the curve, or for
infinity where `Z` is zero. `jpoint_double` and `jpoint_add` succeed on such buffers and yield one
for the sum, and `jpoint_to_affine` yields the point itself.

## Main results

- `jpoint_groupLaw`
-/

namespace AuroraOS.Crypto

open Lib WeierstrassCurve

/-- The residue of a buffer. -/
def fieldOf (bs : List UInt8) : ZMod p256 := (beValue bs : ℕ)

/-- A buffer of a reduced coordinate. -/
structure IsReduced (bs : List UInt8) : Prop where
  length_eq : bs.length = 32
  lt : beValue bs < p256

theorem IsReduced.eq_encodeElem {bs : List UInt8} (h : IsReduced bs) :
    bs = encodeElem (fieldOf bs) :=
  Crypto.eq_encodeElem h.length_eq h.lt

theorem isReduced_encodeElem (f : ZMod p256) : IsReduced (encodeElem f) := by
  refine ⟨length_encodeElem f, ?_⟩
  rw [beValue_encodeElem]
  exact f.val_lt

@[simp]
theorem fieldOf_encodeElem (f : ZMod p256) : fieldOf (encodeElem f) = f := by
  rw [fieldOf, beValue_encodeElem, ZMod.natCast_zmod_val]

namespace EccJpoint

/-- Reduced coordinates of infinity or of a point that satisfies the equation of the curve. -/
structure OnCurve (p : EccJpoint) : Prop where
  x_reduced : IsReduced p.x
  y_reduced : IsReduced p.y
  z_reduced : IsReduced p.z
  equation : fieldOf p.z ≠ 0 →
    (fieldOf p.y / fieldOf p.z ^ 3) ^ 2 =
      (fieldOf p.x / fieldOf p.z ^ 2) ^ 3 +
        fieldOf p256A * (fieldOf p.x / fieldOf p.z ^ 2) + fieldOf p256B

/-- The coordinates as field elements. -/
def coords (p : EccJpoint) : JPoint (ZMod p256) := ⟨fieldOf p.x, fieldOf p.y, fieldOf p.z⟩

variable {p : EccJpoint}

/-- The point of the curve that the buffers stand for. -/
def OnCurve.point (h : p.OnCurve) : p256Curve.Point :=
  if hz : fieldOf p.z = 0 then .zero
  else .some (fieldOf p.x / fieldOf p.z ^ 2) (fieldOf p.y / fieldOf p.z ^ 3)
    (p256Curve_nonsingular (h.equation hz))

theorem OnCurve.eq_encodePoint (h : p.OnCurve) : p = encodePoint p.coords := by
  rw [encodePoint, coords, ← h.x_reduced.eq_encodeElem, ← h.y_reduced.eq_encodeElem,
    ← h.z_reduced.eq_encodeElem]

theorem OnCurve.represents (h : p.OnCurve) : p.coords.Represents h.point := by
  rw [point]
  split
  · next hz => exact hz
  · next hz =>
    refine ⟨hz, ?_, ?_⟩
    · exact (div_mul_cancel₀ _ (pow_ne_zero 2 hz)).symm
    · exact (div_mul_cancel₀ _ (pow_ne_zero 3 hz)).symm

/-- Coordinates that stand for a point are on the curve when they are encoded. -/
theorem onCurve_encodePoint {c : JPoint (ZMod p256)} {P : p256Curve.Point} (hP : c.Represents P) :
    ∃ h : (encodePoint c).OnCurve, h.point = P := by
  have hx : fieldOf (encodePoint c).x = c.x := fieldOf_encodeElem c.x
  have hy : fieldOf (encodePoint c).y = c.y := fieldOf_encodeElem c.y
  have hz : fieldOf (encodePoint c).z = c.z := fieldOf_encodeElem c.z
  cases P with
  | zero =>
    have hzero : c.z = 0 := hP
    refine ⟨⟨isReduced_encodeElem _, isReduced_encodeElem _, isReduced_encodeElem _,
      fun hne => absurd (hz.trans hzero) hne⟩, ?_⟩
    rw [OnCurve.point, dif_pos (hz.trans hzero)]
  | some x y hns =>
    obtain ⟨hne, hcx, hcy⟩ := hP
    have hxq : c.x / c.z ^ 2 = x := by rw [hcx, mul_div_cancel_right₀ _ (pow_ne_zero 2 hne)]
    have hyq : c.y / c.z ^ 3 = y := by rw [hcy, mul_div_cancel_right₀ _ (pow_ne_zero 3 hne)]
    refine ⟨⟨isReduced_encodeElem _, isReduced_encodeElem _, isReduced_encodeElem _,
      fun _ => ?_⟩, ?_⟩
    · rw [hx, hy, hz, hxq, hyq]
      exact equation_shortCurve.mp hns.1
    · rw [OnCurve.point, dif_neg (hz.symm ▸ hne)]
      simp only [hx, hy, hz, hxq, hyq]

end EccJpoint

/-- The coordinates that `ecc_scalar_mult` starts from. -/
theorem OnCurve.jacobian {p : EccPoint} (h : OnCurve p) :
    EccJpoint.OnCurve ⟨p.x, p.y, fieldByte 1⟩ := by
  have hone : fieldByte 1 = encodeElem 1 := by
    rw [fieldByte_eq, UInt8.toNat_one, Nat.cast_one]
  refine ⟨⟨h.x_length, h.x_lt⟩, ⟨h.y_length, h.y_lt⟩, ?_, fun _ => ?_⟩
  · rw [hone]
    exact isReduced_encodeElem 1
  · have hcast := (ZMod.natCast_eq_natCast_iff _ _ _).mpr h.equation
    push_cast at hcast
    simp only [hone, fieldOf_encodeElem, one_pow, div_one]
    exact hcast

/-- Doubling, addition and the way back to affine coordinates succeed and follow the group law, for
    all representatives and with the exceptional cases. -/
theorem jpoint_groupLaw {p q : EccJpoint} (hp : p.OnCurve) (hq : q.OnCurve)
    (stale : ℕ → ℕ → ℕ → Bignum) (out : EccPoint) :
    (∃ r, ∃ hr : r.OnCurve, jpointDouble (stale 0) p = some r ∧
        hr.point = hp.point + hp.point) ∧
      (∃ r, ∃ hr : r.OnCurve, jpointAdd (stale 0) p q = some r ∧
        hr.point = hp.point + hq.point) ∧
      ∃ r, jpointToAffine stale p out = some r ∧ r.IsPoint hp.point := by
  have hdouble := hp.represents.double two_ne_zero_p256
  have hadd := hp.represents.add two_ne_zero_p256 hq.represents
  refine ⟨?_, ?_, ?_⟩
  · obtain ⟨hr, hpoint⟩ := EccJpoint.onCurve_encodePoint hdouble
    refine ⟨_, hr, ?_, hpoint⟩
    rw [hp.eq_encodePoint, jpointDouble_encodePoint, ← hp.eq_encodePoint]
  · obtain ⟨hr, hpoint⟩ := EccJpoint.onCurve_encodePoint hadd
    refine ⟨_, hr, ?_, hpoint⟩
    rw [hp.eq_encodePoint, hq.eq_encodePoint, jpointAdd_encodePoint, ← hp.eq_encodePoint,
      ← hq.eq_encodePoint]
  · obtain ⟨r, hr, hpoint⟩ := jpointToAffine_encodePoint stale out hp.represents
    rw [← hp.eq_encodePoint] at hr
    exact ⟨r, hr, hpoint⟩

theorem jpoint_groupLaw_generator :
    (∃ r, ∃ hr : r.OnCurve,
      jpointDouble (fun _ _ => bnZero) ⟨p256Gx, p256Gy, fieldByte 1⟩ = some r ∧
        hr.point = onCurve_generator.jacobian.point + onCurve_generator.jacobian.point) ∧
      (∃ r, ∃ hr : r.OnCurve, jpointAdd (fun _ _ => bnZero) ⟨p256Gx, p256Gy, fieldByte 1⟩
          ⟨p256Gx, p256Gy, fieldByte 1⟩ = some r ∧
        hr.point = onCurve_generator.jacobian.point + onCurve_generator.jacobian.point) ∧
      ∃ r, jpointToAffine (fun _ _ _ => bnZero) ⟨p256Gx, p256Gy, fieldByte 1⟩ ⟨[], [], false⟩ =
        some r ∧
        r.IsPoint onCurve_generator.jacobian.point :=
  jpoint_groupLaw onCurve_generator.jacobian onCurve_generator.jacobian (fun _ _ _ => bnZero) _

end AuroraOS.Crypto
