import AuroraOS.Lib.BigEndian
import AuroraOS.Lib.Limbs
import Mathlib.Data.List.GetD

/-!
# Arbitrary-precision arithmetic

`kernel/bignum.c`. A number is an array of 128 words, the lowest first; the helpers that are bounded
to a number of words read and write the words below that number only. The local variable `sum` of
`bn_mulmod_w` is not initialised, so what the words above the bound hold there is a parameter, for
each time the variable is used.

## Main definitions

- `Bignum`, `Bignum.value`, `Bignum.low`
- `bnFromBytes`, `bnToBytes`
- `bnMulmodW`, `bnModexp`
- `bignumModexpBytes`, `bignumAddmodBytes`, `bignumSubmodBytes`, `bignumMulmodBytes`,
  `bignumInvmodBytes`
-/

namespace AuroraOS.Crypto

open Lib

/-- `BIGNUM_WORDS`. -/
def bignumWords : ℕ := 128

/-- The words of `struct bignum`. -/
structure Bignum where
  word : List ℕ
  length_word : word.length = bignumWords
  areDigits : AreDigits (2 ^ 32) word

namespace Bignum

/-- The number that the lowest words stand for. -/
def low (words : ℕ) (a : Bignum) : ℕ := Nat.ofDigits (2 ^ 32) (a.word.take words)

def value (a : Bignum) : ℕ := a.low bignumWords

/-- `a->word[i]`. -/
def wordAt (a : Bignum) (i : ℕ) : ℕ := a.word.getD i 0

@[ext]
theorem ext {a b : Bignum} (h : a.word = b.word) : a = b := by
  cases a
  cases b
  congr

theorem length_take (a : Bignum) (words : ℕ) :
    (a.word.take words).length = min words bignumWords := by
  rw [List.length_take, a.length_word]

theorem length_take_eq (a b : Bignum) (words : ℕ) :
    (a.word.take words).length = (b.word.take words).length :=
  (a.length_take words).trans (b.length_take words).symm

/-- Write the lowest words and keep the others. -/
def writeLow (a : Bignum) (words : ℕ) (ws : List ℕ) (hws : AreDigits (2 ^ 32) ws)
    (hlen : ws.length = (a.word.take words).length) : Bignum where
  word := ws ++ a.word.drop words
  length_word := by
    rw [List.length_append, hlen, ← List.length_append, List.take_append_drop, a.length_word]
  areDigits := hws.append (a.areDigits.drop _)

end Bignum

section Bytes

/-- `bn_zero`. -/
def bnZero : Bignum where
  word := List.replicate bignumWords 0
  length_word := List.length_replicate
  areDigits x hx := by
    rw [List.eq_of_mem_replicate hx]
    decide

theorem one_lt_word : 1 < 2 ^ 32 := by decide

/-- A number of one word, as `result.word[0] = 1` makes it from zero. -/
def bnOfWord (w : ℕ) (hw : w < 2 ^ 32) : Bignum where
  word := w :: List.replicate (bignumWords - 1) 0
  length_word := by rw [List.length_cons, List.length_replicate, bignumWords]
  areDigits := .cons hw fun x hx => (List.eq_of_mem_replicate hx).symm ▸ by decide

/-- `a->word[word_index] |= (uint32_t)byte << shift`. -/
def Bignum.orByte (a : Bignum) (wordIndex shift : ℕ) (byte : UInt8) : Bignum where
  word := a.word.set wordIndex ((a.wordAt wordIndex ||| byte.toNat <<< shift) % 2 ^ 32)
  length_word := by rw [List.length_set, a.length_word]
  areDigits x hx := by
    obtain hx | rfl := List.mem_or_eq_of_mem_set hx
    · exact a.areDigits x hx
    · exact Nat.mod_lt _ (by decide)

/-- The loop of `bn_from_bytes`, over the bytes from the last one on. -/
def fromBytesLoop (a : Bignum) (wordIndex shift : ℕ) : List UInt8 → Bignum
  | [] => a
  | byte :: bytes =>
    if wordIndex < bignumWords then
      if shift + 8 = 32 then
        fromBytesLoop (a.orByte wordIndex shift byte) (wordIndex + 1) 0 bytes
      else fromBytesLoop (a.orByte wordIndex shift byte) wordIndex (shift + 8) bytes
    else a

/-- `bn_from_bytes`. -/
def bnFromBytes (bytes : List UInt8) : Bignum := fromBytesLoop bnZero 0 0 bytes.reverse

/-- `bn_to_bytes`. -/
def bnToBytes (a : Bignum) (outLen : ℕ) : List UInt8 :=
  (List.range outLen).map fun i =>
    let bytePosFromEnd := outLen - 1 - i
    let wordIndex := bytePosFromEnd / 4
    let byteInWord := bytePosFromEnd % 4
    if wordIndex < bignumWords then UInt8.ofNat (a.wordAt wordIndex >>> (byteInWord * 8)) else 0

end Bytes

section Words

/-- `bn_cmp_w`. -/
def bnCmpW (a b : Bignum) (words : ℕ) : Ordering := cmpLoop (a.word.take words) (b.word.take words)

/-- `bn_cmp`. -/
def bnCmp (a b : Bignum) : Ordering := bnCmpW a b bignumWords

/-- `bn_is_zero`. -/
def bnIsZero (a : Bignum) : Bool := a.word.all (· == 0)

/-- `bn_sub_w(a, a, b, words)`. -/
def bnSubW (a b : Bignum) (words : ℕ) : Bignum :=
  a.writeLow words (subLoop (2 ^ 32) (a.word.take words) (b.word.take words) 0).1
    (areDigits_subLoop (a.areDigits.take words) 0) (length_subLoop (a.length_take_eq b words) 0)

/-- `bn_sub`. -/
def bnSub (a b : Bignum) : Bignum := bnSubW a b bignumWords

/-- `bn_add`. -/
def bnAdd (a b : Bignum) : Bignum :=
  a.writeLow bignumWords
    (addLoop (2 ^ 32) (a.word.take bignumWords) (b.word.take bignumWords) 0).1
    (areDigits_addLoop (by decide) _ _ 0) (length_addLoop (a.length_take_eq b bignumWords) 0)

/-- The loop of `bn_shl1_w`. -/
def shlLoop : List ℕ → ℕ → List ℕ
  | [], _ => []
  | w :: ws, carry => (((w <<< 1) % 2 ^ 32 ||| carry) % 2 ^ 32) :: shlLoop ws (w >>> 31)

theorem length_shlLoop (ws : List ℕ) (carry : ℕ) : (shlLoop ws carry).length = ws.length := by
  induction ws generalizing carry with
  | nil => rfl
  | cons w ws ih => rw [shlLoop, List.length_cons, ih, List.length_cons]

theorem areDigits_shlLoop (ws : List ℕ) (carry : ℕ) : AreDigits (2 ^ 32) (shlLoop ws carry) := by
  induction ws generalizing carry with
  | nil => exact areDigits_nil
  | cons w ws ih => exact .cons (Nat.mod_lt _ (by decide)) (ih _)

/-- `bn_shl1_w`. -/
def bnShl1W (a : Bignum) (words : ℕ) : Bignum :=
  a.writeLow words (shlLoop (a.word.take words) 0) (areDigits_shlLoop _ 0) (length_shlLoop _ 0)

/-- The inner loop of `bn_bit_length`, from a bit down. -/
def highestBit (w : ℕ) : ℕ → ℕ
  | 0 => 0
  | bit + 1 => if w.testBit (bit + 1) then bit + 1 else highestBit w bit

/-- The loop of `bn_bit_length`, over the words below `n` from the highest on. -/
def bitLengthLoop (a : Bignum) : ℕ → Option ℕ
  | 0 => none
  | n + 1 =>
    if a.wordAt n ≠ 0 then some (n * 32 + highestBit (a.wordAt n) 31) else bitLengthLoop a n

/-- `bn_bit_length`, where `none` is the result -1. -/
def bnBitLength (a : Bignum) : Option ℕ := bitLengthLoop a bignumWords

/-- `bn_sig_words`. -/
def bnSigWords : Option ℕ → ℕ
  | none => 1
  | some bits => if bits / 32 + 1 > bignumWords then bignumWords else bits / 32 + 1

end Words

section Values

namespace Bignum

@[simp]
theorem word_writeLow (a : Bignum) {words : ℕ} {ws : List ℕ} (hws : AreDigits (2 ^ 32) ws)
    (hlen : ws.length = (a.word.take words).length) :
    (a.writeLow words ws hws hlen).word = ws ++ a.word.drop words := rfl

theorem low_lt (a : Bignum) (words : ℕ) : a.low words < (2 ^ 32) ^ words :=
  (ofDigits_lt (a.areDigits.take words) (by decide)).trans_le
    (Nat.pow_le_pow_right (by decide) (List.length_take_le words a.word))

theorem low_succ (a : Bignum) {n : ℕ} (hn : n < bignumWords) :
    a.low (n + 1) = a.low n + (2 ^ 32) ^ n * a.wordAt n := by
  have hword : n < a.word.length := hn.trans_eq a.length_word.symm
  have hlen : (a.word.take n).length = n := List.length_take_of_le hword.le
  rw [low, List.take_succ_eq_append_getElem hword, Nat.ofDigits_append, hlen,
    Nat.ofDigits_singleton, wordAt, List.getD_eq_getElem _ _ hword]
  rfl

theorem value_eq (a : Bignum) : a.value = Nat.ofDigits (2 ^ 32) a.word := by
  rw [value, low, List.take_of_length_le a.length_word.le]

theorem wordAt_lt (a : Bignum) (i : ℕ) : a.wordAt i < 2 ^ 32 := by
  obtain hi | hi := Nat.lt_or_ge i a.word.length
  · rw [wordAt, List.getD_eq_getElem _ _ hi]
    exact a.areDigits _ (List.getElem_mem hi)
  · rw [wordAt, List.getD_eq_default _ _ hi]
    decide

theorem low_writeLow (a : Bignum) {words : ℕ} {ws : List ℕ} (hws : AreDigits (2 ^ 32) ws)
    (hlen : ws.length = (a.word.take words).length) :
    (a.writeLow words ws hws hlen).low words = Nat.ofDigits (2 ^ 32) ws := by
  rw [low, word_writeLow]
  obtain hword | hword := Nat.le_total words a.word.length
  · rw [List.length_take_of_le hword] at hlen
    rw [List.take_left' hlen]
  · rw [List.drop_of_length_le hword, List.append_nil, List.take_of_length_le]
    exact hlen.trans_le (List.length_take_le words a.word)

theorem drop_writeLow (a : Bignum) {words : ℕ} {ws : List ℕ} (hws : AreDigits (2 ^ 32) ws)
    (hlen : ws.length = (a.word.take words).length) :
    (a.writeLow words ws hws hlen).word.drop words = a.word.drop words := by
  rw [word_writeLow]
  obtain hword | hword := Nat.le_total words a.word.length
  · rw [List.length_take_of_le hword] at hlen
    rw [List.drop_left' hlen]
  · rw [List.drop_of_length_le hword, List.append_nil, List.drop_of_length_le]
    exact hlen.trans_le (List.length_take_le words a.word)

end Bignum

variable {words : ℕ}

theorem bnCmpW_eq (a b : Bignum) (words : ℕ) :
    bnCmpW a b words = compare (a.low words) (b.low words) :=
  cmpLoop_eq_compare (a.length_take_eq b words) (a.areDigits.take words) (b.areDigits.take words)

theorem isGE_bnCmpW {a b : Bignum} : (bnCmpW a b words).isGE ↔ b.low words ≤ a.low words := by
  rw [bnCmpW_eq, Nat.isGE_compare]

theorem isGE_bnCmp {a b : Bignum} : (bnCmp a b).isGE ↔ b.value ≤ a.value := isGE_bnCmpW

/-- A difference is right also where a carry out of the words was lost. -/
theorem low_bnSubW (hwords : words ≤ bignumWords) {a b : Bignum} {n : ℕ}
    (hn : n % (2 ^ 32) ^ words = a.low words) (hle : b.low words ≤ n)
    (hlt : n - b.low words < (2 ^ 32) ^ words) :
    (bnSubW a b words).low words = n - b.low words := by
  have hlen : (a.word.take words).length = words :=
    (a.length_take words).trans (min_eq_left hwords)
  rw [bnSubW, Bignum.low_writeLow]
  refine ofDigits_subLoop_mod (by decide) (a.length_take_eq b words) (a.areDigits.take words)
    (b.areDigits.take words) ?_ hle ?_
  · rwa [hlen]
  · rwa [hlen]

theorem low_bnSubW_of_le {a b : Bignum} (h : b.low words ≤ a.low words) :
    (bnSubW a b words).low words = a.low words - b.low words := by
  have hlt := ofDigits_lt (a.areDigits.take words) (by decide)
  rw [bnSubW, Bignum.low_writeLow]
  exact ofDigits_subLoop_mod (by decide) (a.length_take_eq b words) (a.areDigits.take words)
    (b.areDigits.take words) (Nat.mod_eq_of_lt hlt) h ((Nat.sub_le _ _).trans_lt hlt)

theorem value_bnSub_of_le {x y : Bignum} (h : y.value ≤ x.value) :
    (bnSub x y).value = x.value - y.value := low_bnSubW_of_le h

theorem drop_bnSubW (a b : Bignum) (words : ℕ) :
    (bnSubW a b words).word.drop words = a.word.drop words := a.drop_writeLow _ _

theorem value_bnAdd (a b : Bignum) :
    (bnAdd a b).value = (a.value + b.value) % (2 ^ 32) ^ bignumWords := by
  have hlen : (a.word.take bignumWords).length = bignumWords :=
    (a.length_take bignumWords).trans (min_self _)
  have hadd := ofDigits_addLoop (b := 2 ^ 32) (a.length_take_eq b bignumWords) 0
  have hlt := (bnAdd a b).low_lt bignumWords
  rw [bnAdd, Bignum.low_writeLow] at hlt
  rw [hlen] at hadd
  rw [Bignum.value, bnAdd, Bignum.low_writeLow, ← Nat.mod_eq_of_lt hlt, ← Nat.add_mul_mod_self_left,
    hadd, Nat.add_zero]
  rfl

theorem shlLoop_eq {ws : List ℕ} (hws : AreDigits (2 ^ 32) ws) {carry : ℕ} (hcarry : carry ≤ 1) :
    shlLoop ws carry = (doubleLoop (2 ^ 32) ws carry).1 := by
  induction ws generalizing carry with
  | nil => rfl
  | cons w ws ih =>
    have hw := hws.head
    have hshift : (w <<< 1) % 2 ^ 32 = 2 ^ 1 * (w % 2 ^ 31) := by
      rw [Nat.shiftLeft_eq]
      omega
    have hor : (w <<< 1) % 2 ^ 32 ||| carry = (w <<< 1) % 2 ^ 32 + carry := by
      rw [hshift, Nat.two_pow_add_eq_or_of_lt (by omega)]
    have hnext : w >>> 31 = (2 * w + carry) / 2 ^ 32 := by
      rw [Nat.shiftRight_eq_div_pow]
      omega
    rw [shlLoop, doubleLoop, hor, hshift, hnext, ih hws.tail (by omega)]
    congr 1
    omega

theorem bnIsZero_iff (a : Bignum) : bnIsZero a = true ↔ a.value = 0 := by
  rw [bnIsZero, List.all_eq_true, a.value_eq]
  simp only [beq_iff_eq]
  exact (ofDigits_eq_zero_iff (by decide)).symm

end Values

section Multiplication

/-- The words of `sum` and the last carry, where `sum` is the words of `stale` before. -/
def mulmodSum (stale result base : Bignum) (words : ℕ) : Bignum × ℕ :=
  let digits := addLoop (2 ^ 32) (result.word.take words) (base.word.take words) 0
  (stale.writeLow words digits.1 (areDigits_addLoop (by decide) _ _ 0)
    ((length_addLoop (result.length_take_eq base words) 0).trans
      (result.length_take_eq stale words)),
    digits.2)

/-- `result = (result + base) mod m`. -/
def mulmodAdd (stale result base m : Bignum) (words : ℕ) : Bignum :=
  let (sum, carry) := mulmodSum stale result base words
  let result := if carry ≠ 0 ∨ (bnCmpW sum m words).isGE then bnSubW sum m words else sum
  if (bnCmpW result m words).isGE then bnSubW result m words else result

/-- `base = (base * 2) mod m`. -/
def mulmodDouble (base m : Bignum) (words : ℕ) : Bignum :=
  let overflow := base.wordAt (words - 1) &&& 0x80000000 ≠ 0
  let base := bnShl1W base words
  if overflow ∨ (bnCmpW base m words).isGE then bnSubW base m words else base

/-- The turn for bit `i` of `b` in the loop of `bn_mulmod_w`, with `result` and `base`. -/
def mulmodTurn (stale : ℕ → Bignum) (b m : Bignum) (words : ℕ) (s : Bignum × Bignum) (i : ℕ) :
    Bignum × Bignum :=
  (if (b.wordAt (i / 32)).testBit (i % 32) then mulmodAdd (stale i) s.1 s.2 m words else s.1,
    mulmodDouble s.2 m words)

/-- `bn_mulmod_w`. -/
def bnMulmodW (stale : ℕ → Bignum) (a b m : Bignum) (words : ℕ) : Bignum :=
  ((List.range (words * 32)).foldl (mulmodTurn stale b m words) (bnZero, a)).1

end Multiplication

section Reduction

/-- `while (bn_cmp_w(a, m, words) >= 0) bn_sub_w(a, a, m, words)`. -/
def reduceLoop (words : ℕ) (m : Bignum) (hm : 0 < m.low words) (a : Bignum) : Bignum :=
  if (bnCmpW a m words).isGE then reduceLoop words m hm (bnSubW a m words) else a
termination_by a.low words
decreasing_by
  have hle : m.low words ≤ a.low words := isGE_bnCmpW.mp ‹_›
  rw [low_bnSubW_of_le hle]
  omega

theorem low_reduceLoop {words : ℕ} {m : Bignum} (hm : 0 < m.low words) (a : Bignum) :
    (reduceLoop words m hm a).low words = a.low words % m.low words := by
  fun_induction reduceLoop words m hm a with
  | case1 a hge ih =>
    have hle := isGE_bnCmpW.mp hge
    rw [ih, low_bnSubW_of_le hle, ← Nat.mod_eq_sub_mod hle]
  | case2 a hlt =>
    rw [isGE_bnCmpW, Nat.not_le] at hlt
    exact (Nat.mod_eq_of_lt hlt).symm

end Reduction

section BitLength

theorem highestBit_spec {w bit : ℕ} (hpos : 0 < w) (hlt : w < 2 ^ (bit + 1)) :
    2 ^ highestBit w bit ≤ w ∧ w < 2 ^ (highestBit w bit + 1) := by
  induction bit with
  | zero => exact ⟨hpos, hlt⟩
  | succ bit ih =>
    rw [highestBit]
    split
    · next hbit => exact ⟨Nat.ge_two_pow_of_testBit hbit, hlt⟩
    · next hbit =>
      refine ih (Nat.lt_pow_two_of_testBit w fun i hi => ?_)
      obtain rfl | hi := Nat.eq_or_lt_of_le hi
      · exact Bool.eq_false_of_not_eq_true hbit
      · exact Nat.testBit_lt_two_pow (hlt.trans_le (Nat.pow_le_pow_right (by decide) hi))

theorem bitLengthLoop_none {a : Bignum} {n : ℕ} (hn : n ≤ bignumWords)
    (h : bitLengthLoop a n = none) : a.low n = 0 := by
  induction n with
  | zero => rw [Bignum.low, List.take_zero, Nat.ofDigits_nil]
  | succ n ih =>
    rw [bitLengthLoop] at h
    split at h
    · exact absurd h (by simp)
    · next hword =>
      rw [a.low_succ hn, ih (Nat.le_of_succ_le hn) h, not_not.mp hword, Nat.mul_zero]

theorem bitLengthLoop_some {a : Bignum} {n bits : ℕ} (hn : n ≤ bignumWords)
    (h : bitLengthLoop a n = some bits) : 2 ^ bits ≤ a.low n ∧ a.low n < 2 ^ (bits + 1) := by
  induction n with
  | zero => exact absurd h (by simp [bitLengthLoop])
  | succ n ih =>
    have hlow := a.low_lt n
    rw [a.low_succ hn]
    rw [bitLengthLoop] at h
    split at h
    · next hword =>
      have hspec : _ ∧ a.wordAt n < 2 ^ (highestBit (a.wordAt n) 31 + 1) :=
        highestBit_spec (Nat.pos_of_ne_zero hword) (a.wordAt_lt n)
      obtain ⟨hle, hlt⟩ := hspec
      obtain rfl := Option.some.inj h
      have hpow : (2 ^ 32) ^ n = 2 ^ (n * 32) := by rw [← Nat.pow_mul, Nat.mul_comm]
      rw [hpow] at hlow ⊢
      rw [Nat.add_assoc, Nat.pow_add, Nat.pow_add]
      have hless := Nat.mul_le_mul_left (2 ^ (n * 32)) (Nat.succ_le_of_lt hlt)
      rw [Nat.mul_succ] at hless
      exact ⟨(Nat.mul_le_mul_left _ hle).trans (Nat.le_add_left _ _), by omega⟩
    · next hword =>
      rw [not_not.mp hword, Nat.mul_zero]
      exact ih (Nat.le_of_succ_le hn) h

/-- The words of a modulus hold all of it, one word less does not. -/
theorem bnSigWords_spec {m : Bignum} (hm : m.value ≠ 0) :
    ∃ n, bnSigWords (bnBitLength m) = n + 1 ∧ n < bignumWords ∧ (2 ^ 32) ^ n ≤ m.value ∧
      m.value < (2 ^ 32) ^ (n + 1) := by
  obtain hnone | ⟨bits, hbits⟩ := Option.eq_none_or_eq_some (bnBitLength m)
  · exact absurd (bitLengthLoop_none le_rfl hnone) hm
  · obtain ⟨hle, hlt⟩ := bitLengthLoop_some le_rfl hbits
    have hcap := hle.trans_lt (m.low_lt bignumWords)
    rw [← Nat.pow_mul, Nat.pow_lt_pow_iff_right (by decide)] at hcap
    have hwords : bits / 32 < bignumWords := Nat.div_lt_of_lt_mul hcap
    rw [hbits, bnSigWords, if_neg (Nat.not_lt.mpr hwords)]
    refine ⟨bits / 32, rfl, hwords, le_trans ?_ hle, hlt.trans_le ?_⟩
    · rw [← Nat.pow_mul]
      exact Nat.pow_le_pow_right (by decide) (Nat.mul_div_le bits 32)
    · rw [← Nat.pow_mul]
      exact Nat.pow_le_pow_right (by decide) (by omega)

theorem bnSigWords_le {m : Bignum} (hm : m.value ≠ 0) :
    bnSigWords (bnBitLength m) ≤ bignumWords := by
  obtain ⟨n, hn, hlt, -⟩ := bnSigWords_spec hm
  exact hn ▸ hlt

theorem Bignum.low_eq_mod (a : Bignum) {words : ℕ} (hwords : words ≤ bignumWords) :
    a.low words = a.value % (2 ^ 32) ^ words := by
  rw [low, value_eq]
  exact ofDigits_take a.areDigits (by decide) (hwords.trans_eq a.length_word.symm)

theorem low_bnSigWords {m : Bignum} (hm : m.value ≠ 0) :
    m.low (bnSigWords (bnBitLength m)) = m.value := by
  obtain ⟨n, hn, -, -, hlt⟩ := bnSigWords_spec hm
  rw [m.low_eq_mod (bnSigWords_le hm), hn, Nat.mod_eq_of_lt hlt]

theorem low_bnSigWords_pos {m : Bignum} (hm : m.value ≠ 0) :
    0 < m.low (bnSigWords (bnBitLength m)) :=
  (low_bnSigWords hm).symm ▸ Nat.pos_of_ne_zero hm

end BitLength

section ByteStrings

theorem Bignum.wordAt_eq (a : Bignum) {i : ℕ} (hi : i < bignumWords) :
    a.wordAt i = a.value / (2 ^ 32) ^ i % 2 ^ 32 := by
  rw [← Nat.mod_mul_right_div_self, ← Nat.pow_succ, ← a.low_eq_mod hi, a.low_succ hi,
    Nat.add_mul_div_left _ _ (by positivity), Nat.div_eq_of_lt (a.low_lt i), Nat.zero_add]

/-- A byte of a word is a byte of the number. -/
theorem byte_of_word (v : ℕ) {j : ℕ} (hj : j < 4) :
    v % 2 ^ 32 / 2 ^ (j * 8) % 2 ^ 8 = v / 2 ^ (j * 8) % 256 % 2 ^ 8 := by
  have hsplit : 2 ^ 32 = 2 ^ (j * 8) * 2 ^ (32 - j * 8) := by
    rw [← Nat.pow_add, Nat.add_sub_cancel' (by omega)]
  have hdvd : 2 ^ 8 ∣ 2 ^ (32 - j * 8) := Nat.pow_dvd_pow 2 (by omega)
  rw [hsplit, Nat.mod_mul_right_div_self, Nat.mod_mod_of_dvd _ hdvd]
  exact (Nat.mod_mod _ 256).symm

theorem bnToBytes_eq (a : Bignum) {outLen : ℕ} (hout : outLen ≤ bignumWords * 4) :
    bnToBytes a outLen = beFixed outLen a.value := by
  refine List.ext_getElem? fun i => ?_
  obtain hi | hi := Nat.lt_or_ge i outLen
  · rw [getElem?_beFixed _ hi, bnToBytes, List.getElem?_map, List.getElem?_range hi,
      Option.map_some]
    have hword : (outLen - 1 - i) / 4 < bignumWords := by omega
    have hpow : (256 : ℕ) ^ (outLen - 1 - i) =
        (2 ^ 32) ^ ((outLen - 1 - i) / 4) * 2 ^ ((outLen - 1 - i) % 4 * 8) := by
      rw [← Nat.pow_mul, ← Nat.pow_add, show (256 : ℕ) = 2 ^ 8 from rfl, ← Nat.pow_mul]
      congr 1
      omega
    simp only [hword, if_true]
    congr 1
    refine UInt8.toNat_inj.mp ?_
    rw [UInt8.toNat_ofNat', UInt8.toNat_ofNat', a.wordAt_eq hword, hpow, ← Nat.div_div_eq_div_mul,
      Nat.shiftRight_eq_div_pow]
    exact byte_of_word _ (Nat.mod_lt _ (by decide))
  · rw [List.getElem?_eq_none, List.getElem?_eq_none]
    · rwa [length_beFixed]
    · rwa [bnToBytes, List.length_map, List.length_range]

theorem value_orByte (a : Bignum) {wordIndex j : ℕ} (hword : wordIndex < bignumWords) (hj : j < 4)
    (hlt : a.value < 256 ^ (4 * wordIndex + j)) (byte : UInt8) :
    (a.orByte wordIndex (8 * j) byte).value =
      a.value + 256 ^ (4 * wordIndex + j) * byte.toNat := by
  have hpow : (256 : ℕ) ^ (4 * wordIndex + j) = (2 ^ 32) ^ wordIndex * 2 ^ (8 * j) := by
    rw [← Nat.pow_mul, ← Nat.pow_add, show (256 : ℕ) = 2 ^ 8 from rfl, ← Nat.pow_mul]
    congr 1
    omega
  have hbyte := byte.toNat_lt
  have hclear : a.wordAt wordIndex < 2 ^ (8 * j) := by
    rw [a.wordAt_eq hword]
    rw [hpow] at hlt
    exact (Nat.mod_le _ _).trans_lt (Nat.div_lt_of_lt_mul hlt)
  have hfit : 2 ^ (8 * j) * byte.toNat + a.wordAt wordIndex < 2 ^ 32 := by
    calc 2 ^ (8 * j) * byte.toNat + a.wordAt wordIndex
        < 2 ^ (8 * j) * byte.toNat + 2 ^ (8 * j) := Nat.add_lt_add_left hclear _
      _ = 2 ^ (8 * j) * (byte.toNat + 1) := (Nat.mul_succ _ _).symm
      _ ≤ 2 ^ (8 * j) * 2 ^ 8 := Nat.mul_le_mul_left _ hbyte
      _ ≤ 2 ^ 32 := by
        rw [← Nat.pow_add]
        exact Nat.pow_le_pow_right (by decide) (by omega)
  have hor : (a.wordAt wordIndex ||| byte.toNat <<< (8 * j)) % 2 ^ 32 =
      2 ^ (8 * j) * byte.toNat + a.wordAt wordIndex := by
    rw [Nat.or_comm, Nat.shiftLeft_eq, Nat.mul_comm, ← Nat.two_pow_add_eq_or_of_lt hclear,
      Nat.mod_eq_of_lt hfit]
  have hword' : (a.orByte wordIndex (8 * j) byte).word =
      a.word.set wordIndex (2 ^ (8 * j) * byte.toNat + a.wordAt wordIndex) := hor ▸ rfl
  have hindex : wordIndex < a.word.length := hword.trans_eq a.length_word.symm
  have hset := ofDigits_set (b := 2 ^ 32) hindex (2 ^ (8 * j) * byte.toNat + a.wordAt wordIndex)
  have hget : a.word[wordIndex] = a.wordAt wordIndex := (List.getD_eq_getElem _ _ hindex).symm
  rw [hget, Nat.mul_add, ← Nat.add_assoc, Nat.add_right_cancel_iff, ← Nat.mul_assoc] at hset
  rw [Bignum.value_eq, Bignum.value_eq, hword', hpow]
  exact hset

theorem value_fromBytesLoop {a : Bignum} {wordIndex j : ℕ} (hj : j < 4) {bytes : List UInt8}
    (hlt : a.value < 256 ^ (4 * wordIndex + j))
    (hlen : 4 * wordIndex + j + bytes.length ≤ bignumWords * 4) :
    (fromBytesLoop a wordIndex (8 * j) bytes).value =
      a.value + 256 ^ (4 * wordIndex + j) * beValue bytes.reverse := by
  induction bytes generalizing a wordIndex j with
  | nil => rw [fromBytesLoop, List.reverse_nil, beValue_nil, Nat.mul_zero, Nat.add_zero]
  | cons byte bytes ih =>
    rw [List.length_cons] at hlen
    have hword : wordIndex < bignumWords := by omega
    have hbyte := byte.toNat_lt
    have hvalue := value_orByte a hword hj hlt byte
    have hnext : (a.orByte wordIndex (8 * j) byte).value < 256 ^ (4 * wordIndex + j + 1) := by
      rw [hvalue, Nat.pow_succ]
      have hstep := Nat.mul_le_mul_left (256 ^ (4 * wordIndex + j)) (Nat.succ_le_of_lt hbyte)
      rw [Nat.mul_succ] at hstep
      exact (Nat.add_lt_add_right hlt _).trans_le (by rwa [Nat.add_comm])
    rw [fromBytesLoop, if_pos hword, List.reverse_cons, beValue_concat]
    split
    · next hfull =>
      obtain rfl : j = 3 := by omega
      rw [show (0 : ℕ) = 8 * 0 from rfl, ih (by decide) hnext (by omega), hvalue]
      ring
    · next hpart =>
      rw [show 8 * j + 8 = 8 * (j + 1) from rfl, ih (by omega) hnext (by omega), hvalue]
      ring

theorem value_bnZero : bnZero.value = 0 := by
  rw [Bignum.value_eq, bnZero, Nat.ofDigits_replicate_zero]

theorem value_bnFromBytes {bytes : List UInt8} (hlen : bytes.length ≤ bignumWords * 4) :
    (bnFromBytes bytes).value = beValue bytes := by
  have hzero : bnZero.value < 256 ^ (4 * 0 + 0) := by
    rw [value_bnZero]
    decide
  have hfit : 4 * 0 + 0 + bytes.reverse.length ≤ bignumWords * 4 := by
    rwa [List.length_reverse, Nat.zero_add]
  have hloop := value_fromBytesLoop (by decide) hzero hfit
  rw [value_bnZero, List.reverse_reverse, Nat.zero_add, Nat.mul_zero, Nat.add_zero, Nat.pow_zero,
    Nat.one_mul] at hloop
  exact hloop

theorem value_bnOfWord {w : ℕ} (hw : w < 2 ^ 32) : (bnOfWord w hw).value = w := by
  rw [Bignum.value_eq, bnOfWord, Nat.ofDigits_cons, Nat.ofDigits_replicate_zero]
  rfl

end ByteStrings

section EntryPoints

/-- The turn for bit `i` of `exp` in the loop of `bn_modexp`, with `result` and `b`. -/
def modexpTurn (stale : ℕ → ℕ → Bignum) (exp m : Bignum) (words topBit : ℕ) (s : Bignum × Bignum)
    (i : ℕ) : Bignum × Bignum :=
  (if (exp.wordAt (i / 32)).testBit (i % 32)
    then bnMulmodW (stale (2 * i)) s.1 s.2 m words else s.1,
    if i < topBit then bnMulmodW (stale (2 * i + 1)) s.2 s.2 m words else s.2)

/-- `bn_modexp`, where the calls of `bn_mulmod_w` are numbered. -/
def bnModexp (stale : ℕ → ℕ → Bignum) (base exp m : Bignum) (hm : m.value ≠ 0) : Bignum :=
  let words := bnSigWords (bnBitLength m)
  let b := reduceLoop words m (low_bnSigWords_pos hm) base
  match bnBitLength exp with
  | none => bnOfWord 1 one_lt_word
  | some topBit =>
    ((List.range (topBit + 1)).foldl (modexpTurn stale exp m words topBit)
      (bnOfWord 1 one_lt_word, b)).1

/-- `bignum_modexp_bytes`. -/
def bignumModexpBytes (stale : ℕ → ℕ → Bignum) (message exponent modulus : List UInt8)
    (outLen : ℕ) : Option (List UInt8) :=
  if message.length > bignumWords * 4 ∨ exponent.length > bignumWords * 4 ∨
      modulus.length > bignumWords * 4 ∨ outLen > bignumWords * 4 then none
  else
    let m := bnFromBytes modulus
    let base := bnFromBytes message
    let exp := bnFromBytes exponent
    if hm : bnIsZero m then none
    else
      some (bnToBytes (bnModexp stale base exp m (mt (bnIsZero_iff m).mpr hm)) outLen)

/-- `bignum_addmod_bytes`. -/
def bignumAddmodBytes (a b modulus : List UInt8) (outLen : ℕ) : Option (List UInt8) :=
  if a.length > bignumWords * 4 ∨ b.length > bignumWords * 4 ∨
      modulus.length > bignumWords * 4 ∨ outLen > bignumWords * 4 then none
  else
    let m := bnFromBytes modulus
    if hm : bnIsZero m then none
    else
      have hpos : 0 < m.low bignumWords := Nat.pos_of_ne_zero (mt (bnIsZero_iff m).mpr hm)
      let ba := reduceLoop bignumWords m hpos (bnFromBytes a)
      let bb := reduceLoop bignumWords m hpos (bnFromBytes b)
      let sum := bnAdd ba bb
      let sum := if (bnCmp sum m).isGE then bnSub sum m else sum
      some (bnToBytes sum outLen)

/-- `bignum_submod_bytes`. -/
def bignumSubmodBytes (a b modulus : List UInt8) (outLen : ℕ) : Option (List UInt8) :=
  if a.length > bignumWords * 4 ∨ b.length > bignumWords * 4 ∨
      modulus.length > bignumWords * 4 ∨ outLen > bignumWords * 4 then none
  else
    let m := bnFromBytes modulus
    if hm : bnIsZero m then none
    else
      have hpos : 0 < m.low bignumWords := Nat.pos_of_ne_zero (mt (bnIsZero_iff m).mpr hm)
      let ba := reduceLoop bignumWords m hpos (bnFromBytes a)
      let bb := reduceLoop bignumWords m hpos (bnFromBytes b)
      let diff := if (bnCmp ba bb).isGE then bnSub ba bb else bnSub (bnAdd ba m) bb
      some (bnToBytes diff outLen)

/-- `bignum_mulmod_bytes`. -/
def bignumMulmodBytes (stale : ℕ → Bignum) (a b modulus : List UInt8) (outLen : ℕ) :
    Option (List UInt8) :=
  if a.length > bignumWords * 4 ∨ b.length > bignumWords * 4 ∨
      modulus.length > bignumWords * 4 ∨ outLen > bignumWords * 4 then none
  else
    let m := bnFromBytes modulus
    if hm : bnIsZero m then none
    else
      let words := bnSigWords (bnBitLength m)
      have hpos : 0 < m.low words := low_bnSigWords_pos (mt (bnIsZero_iff m).mpr hm)
      let ba := reduceLoop words m hpos (bnFromBytes a)
      let bb := reduceLoop words m hpos (bnFromBytes b)
      some (bnToBytes (bnMulmodW stale ba bb m words) outLen)

/-- `bignum_invmod_bytes`. -/
def bignumInvmodBytes (stale : ℕ → ℕ → Bignum) (a modulus : List UInt8) (outLen : ℕ) :
    Option (List UInt8) :=
  if a.length > bignumWords * 4 ∨ modulus.length > bignumWords * 4 ∨ outLen > bignumWords * 4 then
    none
  else
    let m := bnFromBytes modulus
    let base := bnFromBytes a
    if hm : bnIsZero m then none
    else
      let exp := bnSub m (bnOfWord 2 (by decide))
      some (bnToBytes (bnModexp stale base exp m (mt (bnIsZero_iff m).mpr hm)) outLen)

end EntryPoints

end AuroraOS.Crypto
