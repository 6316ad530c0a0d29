import Mathlib.Data.Int.Basic
import Mathlib.Tactic.NormNum

/-!
# 32-bit signed integers

The value of a two's-complement 32-bit integer after an operation whose exact result is given.

## Main definitions

- `wrap32` — the representative of an integer modulo `2 ^ 32`
- `Fits32` — no wrap-around
-/

namespace AuroraOS.Lib

/-- The value of an `int` after an operation with this exact result. -/
def wrap32 (n : ℤ) : ℤ := Int.bmod n (2 ^ 32)

/-- The exact result is the value of an `int`. -/
def Fits32 (n : ℤ) : Prop := -2 ^ 31 ≤ n ∧ n < 2 ^ 31

instance (n : ℤ) : Decidable (Fits32 n) := inferInstanceAs (Decidable (_ ∧ _))

theorem fits32_iff {n : ℤ} : Fits32 n ↔ -2147483648 ≤ n ∧ n < 2147483648 := Iff.rfl

theorem wrap32_eq {n : ℤ} (h : Fits32 n) : wrap32 n = n := by
  rw [fits32_iff] at h
  exact Int.bmod_eq_of_le (by norm_num; omega) (by norm_num; omega)

theorem fits32_wrap32 (n : ℤ) : Fits32 (wrap32 n) := by
  have hlow := @Int.le_bmod n (2 ^ 32) (by norm_num)
  have hhigh := @Int.bmod_lt n (2 ^ 32) (by norm_num)
  rw [fits32_iff, wrap32]
  norm_num at hlow hhigh ⊢
  omega

/-- `2 ^ 32` more changes nothing. -/
theorem wrap32_add_two_pow (n : ℤ) : wrap32 (n + 2 ^ 32) = wrap32 n := by
  have hmod := Int.add_bmod_right n (2 ^ 32)
  push_cast at hmod
  exact hmod

theorem wrap32_add (a b : ℤ) : wrap32 (wrap32 a + b) = wrap32 (a + b) := Int.bmod_add_bmod

theorem wrap32_of_low {n : ℤ} (h : -2 ^ 32 - 2 ^ 31 ≤ n) (h' : n < -2 ^ 31) :
    wrap32 n = n + 2 ^ 32 := by
  rw [← wrap32_add_two_pow, wrap32_eq]
  rw [fits32_iff]
  norm_num at h h' ⊢
  omega

theorem wrap32_of_high {n : ℤ} (h : 2 ^ 31 ≤ n) (h' : n < 2 ^ 32 + 2 ^ 31) :
    wrap32 n = n - 2 ^ 32 := by
  rw [← sub_add_cancel n (2 ^ 32), wrap32_add_two_pow, wrap32_eq, sub_add_cancel]
  rw [fits32_iff]
  norm_num at h h' ⊢
  omega

theorem Fits32.of_between {a b n : ℤ} (ha : Fits32 a) (hb : Fits32 b) (han : a ≤ n) (hnb : n ≤ b) :
    Fits32 n :=
  ⟨ha.1.trans han, hnb.trans_lt hb.2⟩

end AuroraOS.Lib
