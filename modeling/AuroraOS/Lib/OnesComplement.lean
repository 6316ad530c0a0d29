import Mathlib.Data.List.Basic
import Mathlib.Data.UInt
import Mathlib.Tactic.Common

/-!
# One's-complement sums

The 16-bit checksum of a byte string: the sum of its big-endian words, an odd last byte padded with
zero, with the carries folded back in, and the complement of that.

## Main definitions

- `wordTotal` — the sum as a number
- `sumWords` — the sum in a 32-bit accumulator
- `foldCarries`, `complement16`

## Main results

- `sumWords_toNat` — the accumulator does not overflow
- `foldCarries_complement` — with its own checksum, a sum folds to all ones
-/

namespace AuroraOS.Lib

/-- The sum of the words of a byte string. -/
def wordTotal : List UInt8 → ℕ
  | [] => 0
  | [a] => a.toNat * 256
  | a :: b :: bytes => a.toNat * 256 + b.toNat + wordTotal bytes

/-- The sum of the words in a 32-bit accumulator. -/
def sumWords : List UInt8 → UInt32 → UInt32
  | [], sum => sum
  | [a], sum => sum + (a.toUInt32 <<< 8)
  | a :: b :: bytes, sum => sumWords bytes (sum + (a.toUInt32 <<< 8 ||| b.toUInt32))

/-- Folds the carries into the lower 16 bits until there are none. -/
def foldCarries (sum : ℕ) : ℕ :=
  if sum / 65536 = 0 then sum else foldCarries (sum % 65536 + sum / 65536)
termination_by sum

/-- The 16-bit complement. -/
def complement16 (n : ℕ) : ℕ := 65535 - n

section Totals

theorem toNat_word (a b : UInt8) :
    (a.toUInt32 <<< 8 ||| b.toUInt32).toNat = a.toNat * 256 + b.toNat := by
  have ha := a.toNat_lt
  have hb := b.toNat_lt
  rw [UInt32.toNat_or, UInt32.toNat_shiftLeft, UInt8.toNat_toUInt32, UInt8.toNat_toUInt32,
    show (8 : UInt32).toNat % 32 = 8 from rfl, Nat.mod_eq_of_lt (by rw [Nat.shiftLeft_eq]; omega),
    ← Nat.shiftLeft_add_eq_or_of_lt hb, Nat.shiftLeft_eq]

theorem wordTotal_le (bytes : List UInt8) : wordTotal bytes ≤ 65535 * ((bytes.length + 1) / 2) := by
  induction bytes using wordTotal.induct with
  | case1 => exact Nat.zero_le _
  | case2 a =>
    have ha := a.toNat_lt
    simp only [wordTotal, List.length_singleton]
    omega
  | case3 a b bytes ih =>
    have ha := a.toNat_lt
    have hb := b.toNat_lt
    simp only [wordTotal, List.length_cons]
    omega

/-- Behind an even number of bytes the words stay the same. -/
theorem wordTotal_append {bytes : List UInt8} (rest : List UInt8) (h : bytes.length % 2 = 0) :
    wordTotal (bytes ++ rest) = wordTotal bytes + wordTotal rest := by
  induction bytes using wordTotal.induct with
  | case1 => exact (Nat.zero_add _).symm
  | case2 a => exact absurd h (Nat.one_ne_zero)
  | case3 a b bytes ih =>
    rw [List.length_cons, List.length_cons] at h
    rw [List.cons_append, List.cons_append, wordTotal, wordTotal, ih (by omega), ← Nat.add_assoc]

/-- The accumulator holds the sum, as long as the sum fits into it. -/
theorem sumWords_toNat (bytes : List UInt8) (sum : UInt32)
    (h : sum.toNat + wordTotal bytes < 2 ^ 32) :
    (sumWords bytes sum).toNat = sum.toNat + wordTotal bytes := by
  induction bytes using wordTotal.induct generalizing sum with
  | case1 => rfl
  | case2 a =>
    have hword := toNat_word a 0
    rw [show (0 : UInt8).toUInt32 = 0 from rfl, UInt32.or_zero, UInt8.toNat_zero, Nat.add_zero]
      at hword
    rw [wordTotal] at h
    rw [sumWords, UInt32.toNat_add, hword, wordTotal, Nat.mod_eq_of_lt h]
  | case3 a b bytes ih =>
    have hword := toNat_word a b
    rw [wordTotal] at h
    have hadd : (sum + (a.toUInt32 <<< 8 ||| b.toUInt32)).toNat =
        sum.toNat + (a.toNat * 256 + b.toNat) := by
      have hlt : sum.toNat + (a.toNat * 256 + b.toNat) < 2 ^ 32 :=
        Nat.lt_of_le_of_lt (Nat.add_le_add_left (Nat.le_add_right _ _) _) h
      rw [UInt32.toNat_add, hword, Nat.mod_eq_of_lt hlt]
    rw [← Nat.add_assoc, ← hadd] at h
    rw [sumWords, ih _ h, hadd, wordTotal, Nat.add_assoc]

end Totals

section Folding

/-- Folding keeps the residue modulo all ones, and only zero gives zero. -/
theorem foldCarries_eq (n : ℕ) : foldCarries n = if n = 0 then 0 else (n - 1) % 65535 + 1 := by
  induction n using foldCarries.induct with
  | case1 n h =>
    rw [foldCarries, if_pos h]
    split_ifs with hn
    · exact hn
    · omega
  | case2 n h ih =>
    rw [foldCarries, if_neg h, ih, if_neg (by omega), if_neg (by omega)]
    omega

/-- With its own checksum, a sum that is not zero folds to all ones. -/
theorem foldCarries_complement {n : ℕ} (h : 0 < n) :
    foldCarries (n + complement16 (foldCarries n)) = 65535 := by
  have hn := foldCarries_eq n
  rw [if_neg (by omega)] at hn
  rw [foldCarries_eq, complement16, hn, if_neg (by omega)]
  omega

end Folding

end AuroraOS.Lib
