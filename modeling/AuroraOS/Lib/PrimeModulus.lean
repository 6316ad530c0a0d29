import Mathlib.Data.List.Prime
import Mathlib.FieldTheory.Finite.Basic
import Mathlib.NumberTheory.LucasPrimality

/-!
# Powers modulo a prime

A test that a number is prime, inverses modulo a prime, and powers modulo the product of two primes.

## Main results

- `prime_of_lucas`
- `pow_sub_two_inverts`, `inverse_unique`
- `pow_mul_modEq_self`
-/

namespace AuroraOS.Lib

/-- Lucas's test: `a` has the order `p - 1`, given the prime factors of `p - 1`. -/
theorem prime_of_lucas {p : ℕ} (a : ZMod p) (qs : List ℕ) (hprime : qs.Forall Nat.Prime)
    (hprod : qs.prod = p - 1) (hone : a ^ (p - 1) = 1)
    (hne : qs.Forall fun q => a ^ ((p - 1) / q) ≠ 1) : p.Prime := by
  refine lucas_primality p a hone fun q hq hdvd => List.forall_iff_forall_mem.mp hne q ?_
  rw [← hprod] at hdvd
  obtain ⟨r, hr, hqr⟩ := (Prime.dvd_prod_iff hq.prime).mp hdvd
  have hrp := List.forall_iff_forall_mem.mp hprime r hr
  rwa [(Nat.prime_dvd_prime_iff_eq hq hrp).mp hqr]

/-- A residue that a prime does not divide has an inverse, its power by `p - 2`. -/
theorem pow_sub_two_inverts {a p : ℕ} (hp : p.Prime) (ha : ¬ p ∣ a) :
    a * (a ^ (p - 2) % p) % p = 1 := by
  have htwo := hp.two_le
  have hcoprime : a.Coprime p := ((hp.coprime_iff_not_dvd).mpr ha).symm
  have hfermat := Nat.ModEq.pow_totient hcoprime
  rw [Nat.totient_prime hp, Nat.ModEq, Nat.mod_eq_of_lt (a := 1) hp.one_lt] at hfermat
  rw [Nat.mul_mod_mod, ← Nat.pow_succ', ← hfermat]
  congr 2
  omega

theorem inverse_unique {a p x y : ℕ} (hp : p.Prime) (ha : ¬ p ∣ a) (hx : x < p) (hy : y < p)
    (hxy : a * x % p = a * y % p) : x = y := by
  have hcoprime : p.Coprime a := (hp.coprime_iff_not_dvd).mpr ha
  have hcancel : x ≡ y [MOD p] := Nat.ModEq.cancel_left_of_coprime hcoprime hxy
  exact Nat.ModEq.eq_of_lt_of_lt hcancel hx hy

/-- An exponent that is one more than a multiple of `p - 1` changes nothing modulo `p`. -/
theorem pow_modEq_self {m p k : ℕ} (hp : p.Prime) (hk : 0 < k) (hmod : k ≡ 1 [MOD p - 1]) :
    m ^ k ≡ m [MOD p] := by
  by_cases hdvd : p ∣ m
  · have hzero : m ≡ 0 [MOD p] := (Nat.modEq_zero_iff_dvd).mpr hdvd
    have hpow := hzero.pow k
    rw [Nat.zero_pow hk] at hpow
    exact hpow.trans hzero.symm
  · have hcoprime : m.Coprime p := ((hp.coprime_iff_not_dvd).mpr hdvd).symm
    have hfermat := Nat.ModEq.pow_totient hcoprime
    rw [Nat.totient_prime hp] at hfermat
    obtain ⟨c, hc⟩ := (Nat.modEq_iff_dvd' hk).mp hmod.symm
    have hsplit : m ^ k = (m ^ (p - 1)) ^ c * m := by
      rw [← Nat.pow_mul, ← hc, ← Nat.pow_succ, Nat.succ_eq_add_one, Nat.sub_add_cancel hk]
    rw [hsplit]
    have hone := (hfermat.pow c).mul_right m
    rwa [Nat.one_pow, Nat.one_mul] at hone

/-- Exponents that are inverse modulo the least common multiple of `p - 1` and `q - 1` are inverse
on every residue modulo `p * q`, also on one that is not a unit. -/
theorem pow_mul_modEq_self {m p q e d : ℕ} (hp : p.Prime) (hq : q.Prime) (hpq : p ≠ q)
    (hed : e * d ≡ 1 [MOD Nat.lcm (p - 1) (q - 1)]) : m ^ (e * d) ≡ m [MOD p * q] := by
  have hpos : 0 < e * d := by
    refine Nat.pos_of_ne_zero fun hzero => ?_
    rw [hzero] at hed
    have hlcm := (Nat.modEq_iff_dvd' Nat.one_pos.le).mp hed
    have hp1 := (Nat.dvd_lcm_left (p - 1) (q - 1)).trans hlcm
    have hq1 := (Nat.dvd_lcm_right (p - 1) (q - 1)).trans hlcm
    rw [Nat.sub_zero, Nat.dvd_one] at hp1 hq1
    omega
  have hcoprime : p.Coprime q := (Nat.coprime_primes hp hq).mpr hpq
  refine (Nat.modEq_and_modEq_iff_modEq_mul hcoprime).mp ⟨?_, ?_⟩
  · exact pow_modEq_self hp hpos (hed.of_dvd (Nat.dvd_lcm_left _ _))
  · exact pow_modEq_self hq hpos (hed.of_dvd (Nat.dvd_lcm_right _ _))

end AuroraOS.Lib
