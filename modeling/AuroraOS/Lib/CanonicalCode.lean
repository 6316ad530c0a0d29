import Mathlib.Algebra.BigOperators.Intervals
import Mathlib.Algebra.BigOperators.Ring.Finset
import Mathlib.Algebra.Order.BigOperators.Group.Finset
import Mathlib.Tactic.Ring

/-!
# Canonical prefix codes

A code is given by the lengths of its code words: `len s` is the length of the word of symbol `s`,
zero if the symbol is not used. In the canonical code shorter words come before longer ones, and
words of one length are in the order of their symbols.

If words were stretched to a common length `M`, the word of `s` would cover `2 ^ (M - len s)`
numbers from `start s` on. These intervals do not overlap, so no word begins another one.

## Main definitions

- `Before` — the order of the code words
- `code` — the canonical code word of a symbol, as a number
- `kraft` — the numbers covered by all words together

## Main results

- `code_lt` — the word fits its length if the lengths satisfy the Kraft inequality
- `eq_of_prefix` — no word is the beginning of another word
-/

namespace AuroraOS.Lib

open Finset

variable {n M : ℕ} {len : ℕ → ℕ} {s t : ℕ}

/-- The word of `s` comes before the word of `t`. -/
def Before (len : ℕ → ℕ) (s t : ℕ) : Prop :=
  0 < len s ∧ (len s < len t ∨ (len s = len t ∧ s < t))

instance (len : ℕ → ℕ) (s t : ℕ) : Decidable (Before len s t) :=
  inferInstanceAs (Decidable (_ ∧ _))

/-- The canonical code word of `t` in a code of `n` symbols. -/
def code (n : ℕ) (len : ℕ → ℕ) (t : ℕ) : ℕ :=
  ∑ s ∈ range n, if Before len s t then 2 ^ (len t - len s) else 0

/-- Where the numbers covered by the word of `t` start. -/
def start (n M : ℕ) (len : ℕ → ℕ) (t : ℕ) : ℕ :=
  ∑ s ∈ range n, if Before len s t then 2 ^ (M - len s) else 0

/-- The numbers covered by the words of all used symbols. -/
def kraft (n M : ℕ) (len : ℕ → ℕ) : ℕ :=
  ∑ s ∈ range n, if 0 < len s then 2 ^ (M - len s) else 0

theorem Before.le (h : Before len s t) : len s ≤ len t := by
  obtain ⟨-, h | ⟨h, -⟩⟩ := h <;> omega

theorem Before.trans {u : ℕ} (h₁ : Before len s t) (h₂ : Before len t u) : Before len s u := by
  obtain ⟨hs, h₁⟩ := h₁
  obtain ⟨-, h₂⟩ := h₂
  exact ⟨hs, by omega⟩

theorem not_before_self (s : ℕ) : ¬ Before len s s := by
  rintro ⟨-, h | ⟨-, h⟩⟩ <;> omega

/-- Two different used symbols are ordered. -/
theorem before_or_before (hs : 0 < len s) (ht : 0 < len t) (hne : s ≠ t) :
    Before len s t ∨ Before len t s := by
  by_cases h : len s < len t ∨ (len s = len t ∧ s < t)
  · exact .inl ⟨hs, h⟩
  · exact .inr ⟨ht, by omega⟩

theorem start_eq (ht : len t ≤ M) : start n M len t = code n len t * 2 ^ (M - len t) := by
  rw [start, code, sum_mul]
  refine sum_congr rfl fun s _ => ?_
  split
  · next h =>
    have hle := h.le
    rw [← pow_add]
    congr 1
    omega
  · rw [Nat.zero_mul]

/-- The numbers of an earlier word lie below those of a later one. -/
theorem start_add_le (hs : s < n) (h : Before len s t) :
    start n M len s + 2 ^ (M - len s) ≤ start n M len t := by
  have hself : 2 ^ (M - len s) = ∑ u ∈ range n, if u = s then 2 ^ (M - len u) else 0 := by
    rw [sum_ite_eq' (range n) s fun u => 2 ^ (M - len u), if_pos (mem_range.mpr hs)]
  rw [start, start, hself, ← sum_add_distrib]
  refine sum_le_sum fun u _ => ?_
  by_cases hu : u = s
  · subst hu
    rw [if_neg (not_before_self u), if_pos rfl, if_pos h, Nat.zero_add]
  · rw [if_neg hu, Nat.add_zero]
    by_cases hus : Before len u s
    · rw [if_pos hus, if_pos (hus.trans h)]
    · rw [if_neg hus]
      exact Nat.zero_le _

theorem start_add_le_kraft (ht : t < n) (hpos : 0 < len t) :
    start n M len t + 2 ^ (M - len t) ≤ kraft n M len := by
  have hself : 2 ^ (M - len t) = ∑ u ∈ range n, if u = t then 2 ^ (M - len u) else 0 := by
    rw [sum_ite_eq' (range n) t fun u => 2 ^ (M - len u), if_pos (mem_range.mpr ht)]
  rw [start, hself, ← sum_add_distrib, kraft]
  refine sum_le_sum fun u _ => ?_
  by_cases hu : u = t
  · subst hu
    rw [if_neg (not_before_self u), if_pos rfl, if_pos hpos, Nat.zero_add]
  · rw [if_neg hu, Nat.add_zero]
    split
    · next h => rw [if_pos h.1]
    · exact Nat.zero_le _

/-- A code word fits its length. -/
theorem code_lt (hkraft : kraft n M len ≤ 2 ^ M) (ht : t < n) (hpos : 0 < len t)
    (hM : len t ≤ M) : code n len t < 2 ^ len t := by
  have hle := (start_add_le_kraft (M := M) ht hpos).trans hkraft
  rw [start_eq hM, ← Nat.succ_mul] at hle
  have hpow : 2 ^ M = 2 ^ len t * 2 ^ (M - len t) := by
    rw [← pow_add]
    congr 1
    omega
  rw [hpow] at hle
  exact Nat.le_of_mul_le_mul_right hle (Nat.two_pow_pos _)

/-- An earlier word, stretched to the length of a later one, is smaller. -/
theorem code_lt_of_before (hs : s < n) (h : Before len s t) :
    (code n len s + 1) * 2 ^ (len t - len s) ≤ code n len t := by
  have hle := start_add_le (M := len t) hs h
  rwa [start_eq h.le, start_eq le_rfl, Nat.sub_self, pow_zero, Nat.mul_one, ← Nat.succ_mul] at hle

/-- No word is the beginning of another one. -/
theorem eq_of_prefix (hs : s < n) (ht : t < n) (hspos : 0 < len s) (htpos : 0 < len t)
    (hle : len s ≤ len t) (h : code n len t / 2 ^ (len t - len s) = code n len s) : s = t := by
  by_contra hne
  obtain hst | hts := before_or_before hspos htpos hne
  · have hcode := code_lt_of_before hs hst
    rw [← Nat.le_div_iff_mul_le (Nat.two_pow_pos _), h] at hcode
    omega
  · have hcode := code_lt_of_before ht hts
    have hlen := hts.le
    rw [show len t - len s = 0 by omega, pow_zero, Nat.div_one] at h
    rw [show len s - len t = 0 by omega, pow_zero, Nat.mul_one] at hcode
    omega

/-- The first word of length `k`: what the words shorter than `k` leave. -/
def firstCode (n : ℕ) (len : ℕ → ℕ) (k : ℕ) : ℕ :=
  ∑ s ∈ range n, if 0 < len s ∧ len s < k then 2 ^ (k - len s) else 0

/-- A word is found by counting the symbols before it that have the same length. -/
theorem code_eq (ht : t ≤ n) (hpos : 0 < len t) :
    code n len t = firstCode n len (len t) + ((range t).filter fun s => len s = len t).card := by
  have hfilter : ((range t).filter fun s => len s = len t) =
      (range n).filter fun s => len s = len t ∧ s < t := by
    ext s
    simp only [mem_filter, mem_range]
    constructor
    · rintro ⟨h₁, h₂⟩
      exact ⟨by omega, h₂, h₁⟩
    · rintro ⟨-, h₂, h₁⟩
      exact ⟨h₁, h₂⟩
  rw [hfilter, card_filter, firstCode, code, ← sum_add_distrib]
  refine sum_congr rfl fun s _ => ?_
  by_cases hlt : 0 < len s ∧ len s < len t
  · rw [if_pos ⟨hlt.1, .inl hlt.2⟩, if_pos hlt, if_neg (by omega), Nat.add_zero]
  · rw [if_neg hlt, Nat.zero_add]
    by_cases heq : len s = len t ∧ s < t
    · rw [if_pos ⟨by omega, .inr heq⟩, if_pos heq, heq.1, Nat.sub_self, pow_zero]
    · rw [if_neg heq, if_neg]
      rintro ⟨h₀, h | h⟩
      · exact hlt ⟨h₀, h⟩
      · exact heq h

/-- The recurrence by which the first words are computed. -/
theorem firstCode_succ (k : ℕ) (hk : 0 < k) :
    firstCode n len (k + 1) =
      2 * (firstCode n len k + ((range n).filter fun s => len s = k).card) := by
  rw [card_filter, firstCode, firstCode, ← sum_add_distrib, mul_sum]
  refine sum_congr rfl fun s _ => ?_
  by_cases hlt : 0 < len s ∧ len s < k
  · rw [if_pos ⟨hlt.1, by omega⟩, if_pos hlt, if_neg (by omega), Nat.add_zero,
      show k + 1 - len s = k - len s + 1 by omega, pow_succ]
    ring
  · by_cases heq : len s = k
    · rw [if_pos (by omega), if_neg hlt, if_pos heq, heq, Nat.add_sub_cancel_left]
      rfl
    · rw [if_neg (by omega), if_neg hlt, if_neg heq]
      rfl

theorem firstCode_of_le_one {k : ℕ} (hk : k ≤ 1) : firstCode n len k = 0 := by
  rw [firstCode]
  refine sum_eq_zero fun s _ => ?_
  rw [if_neg (by omega)]

/-- There is room for all words of length `k`. -/
theorem firstCode_add_card_le (hkraft : kraft n M len ≤ 2 ^ M) {k : ℕ} (hk : 0 < k)
    (hkM : k ≤ M) :
    firstCode n len k + ((range n).filter fun s => len s = k).card ≤ 2 ^ k := by
  have hpow : 2 ^ M = 2 ^ k * 2 ^ (M - k) := by
    rw [← pow_add]
    congr 1
    omega
  rw [hpow] at hkraft
  refine Nat.le_of_mul_le_mul_right (le_trans ?_ hkraft) (Nat.two_pow_pos (M - k))
  rw [card_filter, firstCode, ← sum_add_distrib, sum_mul, kraft]
  refine sum_le_sum fun s _ => ?_
  by_cases hlt : 0 < len s ∧ len s < k
  · rw [if_pos hlt, if_neg (by omega), Nat.add_zero, if_pos hlt.1, ← pow_add,
      show k - len s + (M - k) = M - len s by omega]
  · by_cases heq : len s = k
    · rw [if_neg hlt, if_pos heq, Nat.zero_add, Nat.one_mul, if_pos (by omega), heq]
    · rw [if_neg hlt, if_neg heq, Nat.zero_mul]
      exact Nat.zero_le _

/-- The Kraft inequality for a larger common length. -/
theorem kraft_mono {M' : ℕ} (hM : M ≤ M') (hlen : ∀ s < n, len s ≤ M)
    (hkraft : kraft n M len ≤ 2 ^ M) : kraft n M' len ≤ 2 ^ M' := by
  have hscale : kraft n M' len = kraft n M len * 2 ^ (M' - M) := by
    rw [kraft, kraft, sum_mul]
    refine sum_congr rfl fun s hs => ?_
    have hle := hlen s (mem_range.mp hs)
    split
    · rw [← pow_add, show M - len s + (M' - M) = M' - len s by omega]
    · rw [Nat.zero_mul]
  calc kraft n M' len = kraft n M len * 2 ^ (M' - M) := hscale
    _ ≤ 2 ^ M * 2 ^ (M' - M) := Nat.mul_le_mul_right _ hkraft
    _ = 2 ^ M' := by rw [← pow_add, Nat.add_sub_of_le hM]

/-- Counting the symbols with a given length in a list of lengths. -/
theorem card_filter_getD (lengths : List ℕ) {t k : ℕ} (ht : t ≤ lengths.length) :
    ((range t).filter fun s => lengths.getD s 0 = k).card = (lengths.take t).count k := by
  induction t with
  | zero => simp
  | succ t ih =>
    rw [range_add_one, filter_insert, List.take_add_one, List.count_append, ← ih (by omega),
      List.getD_eq_getElem?_getD, List.getElem?_eq_getElem (by omega), Option.getD_some]
    by_cases h : lengths[t] = k
    · rw [if_pos h, card_insert_of_notMem (by simp)]
      simp [h]
    · rw [if_neg h]
      simp [h]

/-- The numbers that are covered, for a list of lengths. -/
theorem kraft_getD (lengths : List ℕ) (M : ℕ) : kraft lengths.length M (lengths.getD · 0) =
    (lengths.map fun l => if 0 < l then 2 ^ (M - l) else 0).sum := by
  induction lengths with
  | nil => rfl
  | cons l lengths ih =>
    rw [kraft, List.length_cons, sum_range_succ', List.map_cons, List.sum_cons, ← ih, add_comm]
    rfl

end AuroraOS.Lib
