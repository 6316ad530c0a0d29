import AuroraOS.Crypto.Mulmod

/-!
# Modular addition and subtraction

The operands are reduced first. The sum of two residues is computed in the 4096 bits of a number and
its carry is lost, so the sum is right while it fits. A difference that is made positive with the
modulus is right in any case, since the carry that the addition loses is borrowed again.

## Main results

- `ModArgs.bignumAddmodBytes_of_lt`, `ModArgs.bignumSubmodBytes_eq`
- `addmod_submod_exact_iff`
-/

namespace AuroraOS.Crypto

set_option maxRecDepth 4096

open Lib

variable {a b modulus : List UInt8} {outLen : ℕ}

section Values

variable {x y m : Bignum}

/-- The sum of residues, reduced once. -/
theorem value_addReduced (hx : x.value < m.value) (hy : y.value < m.value) :
    (if (bnCmp (bnAdd x y) m).isGE then bnSub (bnAdd x y) m else bnAdd x y).value =
      if x.value + y.value < (2 ^ 32) ^ bignumWords then (x.value + y.value) % m.value
      else x.value + y.value - (2 ^ 32) ^ bignumWords := by
  have hm : m.value < (2 ^ 32) ^ bignumWords := m.low_lt bignumWords
  have hsum := value_bnAdd x y
  by_cases hfit : x.value + y.value < (2 ^ 32) ^ bignumWords
  · rw [Nat.mod_eq_of_lt hfit] at hsum
    rw [if_pos hfit]
    split
    · next hge =>
      rw [isGE_bnCmp, hsum] at hge
      rw [value_bnSub_of_le (hsum ▸ hge), hsum, Nat.mod_eq_sub_mod hge, Nat.mod_eq_of_lt (by omega)]
    · next hlt =>
      rw [isGE_bnCmp, Nat.not_le, hsum] at hlt
      rw [hsum, Nat.mod_eq_of_lt hlt]
  · -- the carry is lost and what is left is below the modulus
    rw [Nat.mod_eq_sub_mod (Nat.not_lt.mp hfit), Nat.mod_eq_of_lt (by omega)] at hsum
    rw [if_neg hfit, if_neg, hsum]
    rw [isGE_bnCmp, hsum]
    omega

/-- The difference of residues. -/
theorem value_subReduced (hx : x.value < m.value) (hy : y.value < m.value) :
    (if (bnCmp x y).isGE then bnSub x y else bnSub (bnAdd x m) y).value =
      (x.value + (m.value - y.value)) % m.value := by
  have hm : m.value < (2 ^ 32) ^ bignumWords := m.low_lt bignumWords
  split
  · next hge =>
    rw [isGE_bnCmp] at hge
    have hsum : x.value + (m.value - y.value) = x.value - y.value + m.value := by omega
    rw [value_bnSub_of_le hge, hsum, Nat.add_mod_right, Nat.mod_eq_of_lt (by omega)]
  · next hlt =>
    rw [isGE_bnCmp, Nat.not_le] at hlt
    have hsub := low_bnSubW (n := x.value + m.value) le_rfl (value_bnAdd x m).symm
      (b := y) (by change y.value ≤ _; omega) (by change _ - y.value < _; omega)
    change (bnSub (bnAdd x m) y).value = x.value + m.value - y.value at hsub
    rw [hsub, Nat.mod_eq_of_lt (by omega)]
    omega

end Values

section EntryPoints

theorem ModArgs.caps (h : ModArgs a b modulus outLen) :
    ¬ (a.length > bignumWords * 4 ∨ b.length > bignumWords * 4 ∨
      modulus.length > bignumWords * 4 ∨ outLen > bignumWords * 4) := by
  have := h.a_le
  have := h.b_le
  have := h.modulus_le
  have := h.out_le
  omega

theorem ModArgs.value_reduce (h : ModArgs a b modulus outLen) {x : List UInt8}
    (hx : x.length ≤ bignumWords * 4) (hpos : 0 < (bnFromBytes modulus).low bignumWords) :
    (reduceLoop bignumWords (bnFromBytes modulus) hpos (bnFromBytes x)).value =
      beValue x % beValue modulus := by
  rw [← value_bnFromBytes hx, ← h.value_modulus]
  exact low_reduceLoop hpos _

theorem ModArgs.bignumAddmodBytes_eq (h : ModArgs a b modulus outLen) :
    bignumAddmodBytes a b modulus outLen = some (beFixed outLen
      (if beValue a % beValue modulus + beValue b % beValue modulus < (2 ^ 32) ^ bignumWords then
        (beValue a + beValue b) % beValue modulus
      else beValue a % beValue modulus + beValue b % beValue modulus -
        (2 ^ 32) ^ bignumWords)) := by
  have hm := Nat.pos_of_ne_zero h.modulus_ne
  rw [bignumAddmodBytes, if_neg h.caps, dif_neg (mt (bnIsZero_iff _).mp h.value_ne)]
  dsimp only
  rw [bnToBytes_eq _ h.out_le, value_addReduced]
  · rw [h.value_reduce h.a_le, h.value_reduce h.b_le, h.value_modulus, ← Nat.add_mod]
  · rw [h.value_reduce h.a_le, h.value_modulus]
    exact Nat.mod_lt _ hm
  · rw [h.value_reduce h.b_le, h.value_modulus]
    exact Nat.mod_lt _ hm

/-- The sum of the residues fits in the capacity. -/
theorem ModArgs.bignumAddmodBytes_of_lt (h : ModArgs a b modulus outLen)
    (hfit : beValue a % beValue modulus + beValue b % beValue modulus < (2 ^ 32) ^ bignumWords) :
    bignumAddmodBytes a b modulus outLen =
      some (beFixed outLen ((beValue a + beValue b) % beValue modulus)) := by
  rw [h.bignumAddmodBytes_eq, if_pos hfit]

/-- The residue of the difference. -/
def subResidue (a b m : ℕ) : ℕ := (((a : ℤ) - b) % m).toNat

theorem subResidue_eq {a b m : ℕ} (hm : 0 < m) : subResidue a b m = (a % m + (m - b % m)) % m := by
  have hb : b % m ≤ m := (Nat.mod_lt b hm).le
  have hmodEq : (a : ℤ) % m + (m - (b : ℤ) % m) ≡ a - b [ZMOD m] := by
    have hsub := (Int.mod_modEq (a : ℤ) m).sub (Int.mod_modEq (b : ℤ) m)
    refine Int.ModEq.trans ?_ hsub
    rw [← add_sub_assoc, add_sub_right_comm]
    exact Int.add_modEq_right
  have hcast : (((a % m + (m - b % m)) % m : ℕ) : ℤ) = ((a : ℤ) - b) % m := by
    push_cast [hb]
    exact hmodEq
  rw [subResidue, ← hcast, Int.toNat_natCast]

theorem ModArgs.bignumSubmodBytes_eq (h : ModArgs a b modulus outLen) :
    bignumSubmodBytes a b modulus outLen =
      some (beFixed outLen (subResidue (beValue a) (beValue b) (beValue modulus))) := by
  have hm := Nat.pos_of_ne_zero h.modulus_ne
  rw [bignumSubmodBytes, if_neg h.caps, dif_neg (mt (bnIsZero_iff _).mp h.value_ne)]
  dsimp only
  rw [bnToBytes_eq _ h.out_le, value_subReduced, subResidue_eq hm]
  · rw [h.value_reduce h.a_le, h.value_reduce h.b_le, h.value_modulus]
  · rw [h.value_reduce h.a_le, h.value_modulus]
    exact Nat.mod_lt _ hm
  · rw [h.value_reduce h.b_le, h.value_modulus]
    exact Nat.mod_lt _ hm

theorem addmod_submod_exact_iff (h : ModArgs a b modulus outLen)
    (hout : beValue modulus < 256 ^ outLen) :
    (bignumAddmodBytes a b modulus outLen =
        some (beFixed outLen ((beValue a + beValue b) % beValue modulus)) ∧
      bignumSubmodBytes a b modulus outLen =
        some (beFixed outLen (subResidue (beValue a) (beValue b) (beValue modulus)))) ↔
      beValue a % beValue modulus + beValue b % beValue modulus < (2 ^ 32) ^ bignumWords := by
  have hm := Nat.pos_of_ne_zero h.modulus_ne
  have ha := Nat.mod_lt (beValue a) hm
  have hb := Nat.mod_lt (beValue b) hm
  have hcap : beValue modulus < (2 ^ 32) ^ bignumWords :=
    h.value_modulus ▸ (bnFromBytes modulus).low_lt bignumWords
  refine ⟨fun hexact => ?_, fun hfit => ⟨h.bignumAddmodBytes_of_lt hfit, h.bignumSubmodBytes_eq⟩⟩
  by_contra hover
  have hsum := hexact.1
  have htwice :
      beValue a % beValue modulus + beValue b % beValue modulus < 2 * beValue modulus := by
    omega
  have hmod : (beValue a + beValue b) % beValue modulus =
      beValue a % beValue modulus + beValue b % beValue modulus - beValue modulus := by
    rw [Nat.add_mod, Nat.mod_eq_sub_mod (by omega), Nat.mod_eq_of_lt (by omega)]
  rw [h.bignumAddmodBytes_eq, if_neg hover, Option.some_inj, beFixed_eq_beFixed_iff, hmod] at hsum
  generalize beValue a % beValue modulus + beValue b % beValue modulus = sum at *
  rw [Nat.mod_eq_of_lt (by omega), Nat.mod_eq_of_lt (by omega)] at hsum
  omega

theorem addmod_submod_exact_iff_small :
    (bignumAddmodBytes [4] [3] [5] 1 =
          some (beFixed 1 ((beValue [4] + beValue [3]) % beValue [5])) ∧
        bignumSubmodBytes [4] [3] [5] 1 =
          some (beFixed 1 (subResidue (beValue [4]) (beValue [3]) (beValue [5])))) ↔
      beValue [4] % beValue [5] + beValue [3] % beValue [5] < (2 ^ 32) ^ bignumWords :=
  addmod_submod_exact_iff ⟨by decide, by decide, by decide, by decide, by decide⟩ (by decide)

/-- 2⁴⁰⁹⁶ - 1, the largest number. -/
def allOnes : List UInt8 := List.replicate 512 0xff

/-- 2⁴⁰⁹⁶ - 2. -/
def allOnesButOne : List UInt8 := List.replicate 511 0xff ++ [0xfe]

/-- With the largest modulus, -1 + -1 is not -2. -/
theorem carry_lost :
    bignumAddmodBytes allOnesButOne allOnesButOne allOnes 512 ≠
      some (beFixed 512 ((beValue allOnesButOne + beValue allOnesButOne) % beValue allOnes)) := by
  have hargs : ModArgs allOnesButOne allOnesButOne allOnes 512 :=
    ⟨by decide, by decide, by decide, by decide, by decide⟩
  rw [hargs.bignumAddmodBytes_eq, if_neg (by decide), Ne, Option.some_inj,
    beFixed_eq_beFixed_iff]
  decide

end EntryPoints

end AuroraOS.Crypto
