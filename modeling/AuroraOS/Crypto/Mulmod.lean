import AuroraOS.Crypto.Bignum
import Mathlib.Data.Nat.Bitwise

/-!
# Modular multiplication

`bn_mulmod_w` computes in the words of the modulus only. Where the first factor is below the modulus
the words it computes are those of the product, whatever the uninitialised `sum` held, and the words
above keep what `sum` held there. The entry point reduces its operands in the same words, so that
the words of an operand above those of the modulus are lost.

## Main results

- `low_bnMulmodW`
- `bignumMulmodBytes_exact_iff`
-/

namespace AuroraOS.Crypto

open Lib

variable {words : ℕ} {stale base result m : Bignum}

section Steps

/-- One subtraction of the modulus, where `flag` says that the sum left the words. -/
theorem low_reduceOnce (hwords : words ≤ bignumWords) {a : Bignum} {n : ℕ} {flag : Prop}
    [Decidable flag] (hn : n % (2 ^ 32) ^ words = a.low words) (hlt : n < 2 * m.low words)
    (hflag : flag ↔ (2 ^ 32) ^ words ≤ n) :
    (if flag ∨ (bnCmpW a m words).isGE then bnSubW a m words else a).low words =
      n % m.low words := by
  have hm := m.low_lt words
  obtain hless | hge := Nat.lt_or_ge n (m.low words)
  · have ha : a.low words = n := hn ▸ Nat.mod_eq_of_lt (hless.trans hm)
    rw [if_neg, ha, Nat.mod_eq_of_lt hless]
    rw [hflag, isGE_bnCmpW, ha]
    omega
  · have hif : flag ∨ (bnCmpW a m words).isGE := by
      rw [hflag, isGE_bnCmpW, or_iff_not_imp_left, Nat.not_le]
      intro hfit
      rwa [← hn, Nat.mod_eq_of_lt hfit]
    rw [if_pos hif, low_bnSubW hwords hn hge (by omega), Nat.mod_eq_sub_mod hge, Nat.mod_eq_of_lt]
    omega

theorem low_mulmodSum (stale result base : Bignum) (hwords : words ≤ bignumWords) :
    (mulmodSum stale result base words).1.low words +
        (2 ^ 32) ^ words * (mulmodSum stale result base words).2 =
      result.low words + base.low words := by
  have hadd := ofDigits_addLoop (b := 2 ^ 32) (result.length_take_eq base words) 0
  rw [result.length_take, min_eq_left hwords, Nat.add_zero] at hadd
  rw [mulmodSum, Bignum.low_writeLow]
  exact hadd

theorem low_mulmodAdd (hwords : words ≤ bignumWords) (hresult : result.low words < m.low words)
    (hbase : base.low words < m.low words) :
    (mulmodAdd stale result base m words).low words =
      (result.low words + base.low words) % m.low words := by
  have hsum := low_mulmodSum stale result base hwords
  rw [mulmodAdd]
  generalize mulmodSum stale result base words = digits at hsum ⊢
  obtain ⟨sum, carry⟩ := digits
  dsimp only at hsum ⊢
  have hlow := sum.low_lt words
  have hcarry : carry ≠ 0 ↔ (2 ^ 32) ^ words ≤ result.low words + base.low words := by
    obtain rfl | hpos := Nat.eq_zero_or_pos carry
    · omega
    · have hle := Nat.le_mul_of_pos_right ((2 ^ 32) ^ words) hpos
      omega
  have hmod : (result.low words + base.low words) % (2 ^ 32) ^ words = sum.low words := by
    rw [← hsum, Nat.add_mul_mod_self_left, Nat.mod_eq_of_lt hlow]
  have honce := low_reduceOnce (m := m) hwords hmod (by omega) hcarry
  -- after the first subtraction the words are below the modulus already
  rw [if_neg, honce]
  rw [isGE_bnCmpW, honce, Nat.not_le]
  exact Nat.mod_lt _ (by omega)

theorem drop_mulmodAdd (stale result base m : Bignum) (words : ℕ) :
    (mulmodAdd stale result base m words).word.drop words = stale.word.drop words := by
  have hsub : ∀ (p : Prop) [Decidable p] (a : Bignum),
      (if p then bnSubW a m words else a).word.drop words = a.word.drop words := by
    intro p _ a
    split
    · exact drop_bnSubW a m words
    · rfl
  rw [mulmodAdd, mulmodSum, hsub, hsub, Bignum.drop_writeLow]

/-- The highest bit of the words says whether the double leaves them. -/
theorem overflow_iff (hpos : 0 < words) (hwords : words ≤ bignumWords) :
    base.wordAt (words - 1) &&& 0x80000000 ≠ 0 ↔ (2 ^ 32) ^ words ≤ 2 * base.low words := by
  obtain ⟨n, rfl⟩ := Nat.exists_eq_succ_of_ne_zero hpos.ne'
  have hlow := base.low_lt n
  have hword := base.wordAt_lt n
  have htop : base.wordAt n &&& 0x80000000 ≠ 0 ↔ 2 ^ 31 ≤ base.wordAt n := by
    rw [show 0x80000000 = 2 ^ 31 from rfl, Nat.and_two_pow, Nat.testBit_eq_decide_div_mod_eq]
    obtain hlt | hge := Nat.lt_or_ge (base.wordAt n) (2 ^ 31)
    · rw [Nat.div_eq_of_lt hlt]
      simpa using hlt
    · have hone : base.wordAt n / 2 ^ 31 = 1 := by omega
      rw [hone]
      simpa using hge
  rw [Nat.succ_sub_one, htop, base.low_succ hwords, Nat.pow_succ]
  constructor
  · intro hge
    have hmul := Nat.mul_le_mul_left ((2 ^ 32) ^ n) hge
    omega
  · intro hge
    by_contra hlt
    have hmul := Nat.mul_le_mul_left ((2 ^ 32) ^ n) (Nat.succ_le_of_lt (Nat.not_le.mp hlt))
    rw [Nat.mul_succ] at hmul
    omega

theorem low_mulmodDouble (hpos : 0 < words) (hwords : words ≤ bignumWords)
    (hbase : base.low words < m.low words) :
    (mulmodDouble base m words).low words = 2 * base.low words % m.low words := by
  have hdouble := ofDigits_doubleLoop (b := 2 ^ 32) (base.word.take words) 0
  have hlen : (base.word.take words).length = words :=
    (base.length_take words).trans (min_eq_left hwords)
  have hlt := (bnShl1W base words).low_lt words
  rw [hlen, Nat.add_zero, ← shlLoop_eq (base.areDigits.take words) (Nat.zero_le 1)] at hdouble
  refine low_reduceOnce hwords ?_ (by omega) (overflow_iff hpos hwords)
  rw [bnShl1W, Bignum.low_writeLow] at hlt ⊢
  rw [Bignum.low, ← hdouble, Nat.add_mul_mod_self_left, Nat.mod_eq_of_lt hlt]

end Steps

section Product

variable {a b : Bignum}

theorem low_bnZero (words : ℕ) : bnZero.low words = 0 := by
  rw [Bignum.low, bnZero, List.take_replicate, Nat.ofDigits_replicate_zero]

/-- The bits of the words are those of the number. -/
theorem testBit_wordAt (b : Bignum) (hwords : words ≤ bignumWords) {i : ℕ} (hi : i < words * 32) :
    (b.wordAt (i / 32)).testBit (i % 32) = (b.low words).testBit i := by
  have hword : i / 32 < words := Nat.div_lt_of_lt_mul (by rwa [Nat.mul_comm])
  rw [b.wordAt_eq (hword.trans_le hwords), b.low_eq_mod hwords, ← Nat.pow_mul, ← Nat.pow_mul,
    Nat.testBit_mod_two_pow, Nat.testBit_mod_two_pow, Nat.testBit_div_two_pow, Nat.mod_add_div,
    decide_eq_true (Nat.mod_lt i (by decide)), decide_eq_true (by omega)]

theorem mod_two_pow_succ (x n : ℕ) : x % 2 ^ (n + 1) = x % 2 ^ n + 2 ^ n * (x.testBit n).toNat := by
  rw [Nat.mod_pow_succ, Nat.toNat_testBit]

/-- The state of the loop after the turns for the low bits of `b`. -/
def mulmodRun (stale : ℕ → Bignum) (a b m : Bignum) (words n : ℕ) : Bignum × Bignum :=
  (List.range n).foldl (mulmodTurn stale b m words) (bnZero, a)

theorem mulmodRun_succ (stale : ℕ → Bignum) (a b m : Bignum) (words n : ℕ) :
    mulmodRun stale a b m words (n + 1) =
      mulmodTurn stale b m words (mulmodRun stale a b m words n) n := by
  rw [mulmodRun, List.range_succ, List.foldl_append]
  rfl

theorem low_mulmodRun (stale : ℕ → Bignum) (b : Bignum) (hpos : 0 < words)
    (hwords : words ≤ bignumWords)
    (ha : a.low words < m.low words) {n : ℕ} (hn : n ≤ words * 32) :
    (mulmodRun stale a b m words n).1.low words =
        a.low words * (b.low words % 2 ^ n) % m.low words ∧
      (mulmodRun stale a b m words n).2.low words = a.low words * 2 ^ n % m.low words := by
  induction n with
  | zero =>
    rw [Nat.pow_zero, Nat.mod_one, Nat.mul_zero, Nat.zero_mod, Nat.mul_one, Nat.mod_eq_of_lt ha]
    exact ⟨low_bnZero words, rfl⟩
  | succ n ih =>
    obtain ⟨hresult, hbase⟩ := ih (Nat.le_of_succ_le hn)
    have hmod : ∀ x, x % m.low words < m.low words := fun x => Nat.mod_lt x (by omega)
    rw [mulmodRun_succ, mulmodTurn, testBit_wordAt b hwords hn, mod_two_pow_succ]
    constructor
    · cases hbit : (b.low words).testBit n with
      | false =>
        rw [if_neg Bool.false_ne_true, Bool.toNat_false, Nat.mul_zero, Nat.add_zero]
        exact hresult
      | true =>
        rw [if_pos rfl, low_mulmodAdd hwords (hresult ▸ hmod _) (hbase ▸ hmod _), hresult, hbase,
          ← Nat.add_mod, Bool.toNat_true, Nat.mul_one, Nat.mul_add]
    · rw [low_mulmodDouble hpos hwords (hbase ▸ hmod _), hbase, Nat.mul_mod_mod, Nat.pow_succ]
      congr 1
      ring

/-- The words of the product, for any contents of the uninitialised sum. -/
theorem low_bnMulmodW (stale : ℕ → Bignum) (b : Bignum) (hpos : 0 < words)
    (hwords : words ≤ bignumWords)
    (ha : a.low words < m.low words) :
    (bnMulmodW stale a b m words).low words = a.low words * b.low words % m.low words := by
  have hb : b.low words < 2 ^ (words * 32) := by
    rw [Nat.mul_comm, Nat.pow_mul]
    exact b.low_lt words
  have hrun := (low_mulmodRun stale b hpos hwords ha le_rfl).1
  rwa [Nat.mod_eq_of_lt hb] at hrun

/-- The words above the bound are those of the uninitialised sum, unless nothing was added. -/
theorem drop_mulmodRun (hwords : words ≤ bignumWords) {z : Bignum} {n : ℕ} (hn : n ≤ words * 32) :
    (mulmodRun (fun _ => z) a b m words n).1.word.drop words =
      (if b.low words % 2 ^ n = 0 then bnZero else z).word.drop words := by
  induction n with
  | zero => rw [Nat.pow_zero, Nat.mod_one, if_pos rfl, mulmodRun, List.range_zero, List.foldl_nil]
  | succ n ih =>
    rw [mulmodRun_succ, mulmodTurn, testBit_wordAt b hwords hn, mod_two_pow_succ]
    cases hbit : (b.low words).testBit n with
    | false =>
      rw [if_neg Bool.false_ne_true, Bool.toNat_false, Nat.mul_zero, Nat.add_zero]
      exact ih (Nat.le_of_succ_le hn)
    | true =>
      have hpow : 0 < 2 ^ n := Nat.two_pow_pos n
      rw [if_pos rfl, drop_mulmodAdd, Bool.toNat_true, Nat.mul_one, if_neg (by omega)]

theorem drop_bnMulmodW (hwords : words ≤ bignumWords) (z : Bignum) :
    (bnMulmodW (fun _ => z) a b m words).word.drop words =
      (if b.low words = 0 then bnZero else z).word.drop words := by
  have hb : b.low words < 2 ^ (words * 32) := by
    rw [Nat.mul_comm, Nat.pow_mul]
    exact b.low_lt words
  have hrun := drop_mulmodRun (a := a) (b := b) (m := m) (z := z) hwords le_rfl
  rwa [Nat.mod_eq_of_lt hb] at hrun

/-- Nothing is added for a factor whose words are zero. -/
theorem bnMulmodW_of_low_eq_zero (stale : ℕ → Bignum) (hwords : words ≤ bignumWords)
    (hb : b.low words = 0) :
    bnMulmodW stale a b m words = bnZero := by
  have hrun : ∀ n ≤ words * 32, (mulmodRun stale a b m words n).1 = bnZero := by
    intro n hn
    induction n with
    | zero => rfl
    | succ n ih =>
      rw [mulmodRun_succ, mulmodTurn, testBit_wordAt b hwords hn, hb, Nat.zero_testBit]
      exact ih (Nat.le_of_succ_le hn)
  exact hrun _ le_rfl

end Product

section EntryPoint

/-- The words that a number takes. -/
def numWords (n : ℕ) : ℕ := Nat.log (2 ^ 32) n + 1

theorem numWords_pos (n : ℕ) : 0 < numWords n := Nat.succ_pos _

theorem lt_pow_numWords (n : ℕ) : n < (2 ^ 32) ^ numWords n :=
  Nat.lt_pow_succ_log_self (by decide) n

theorem bnSigWords_eq {m : Bignum} (hm : m.value ≠ 0) :
    bnSigWords (bnBitLength m) = numWords m.value := by
  obtain ⟨n, hn, -, hle, hlt⟩ := bnSigWords_spec hm
  rw [hn, numWords, Nat.log_eq_of_pow_le_of_lt_pow hle hlt]

theorem numWords_le {m : Bignum} (hm : m.value ≠ 0) : numWords m.value ≤ bignumWords :=
  bnSigWords_eq hm ▸ bnSigWords_le hm

theorem low_numWords {m : Bignum} (hm : m.value ≠ 0) : m.low (numWords m.value) = m.value :=
  bnSigWords_eq hm ▸ low_bnSigWords hm

theorem Bignum.value_split (a : Bignum) (hwords : words ≤ bignumWords) :
    a.value = a.low words + (2 ^ 32) ^ words * Nat.ofDigits (2 ^ 32) (a.word.drop words) := by
  have happend : Nat.ofDigits (2 ^ 32) (a.word.take words ++ a.word.drop words) = _ :=
    Nat.ofDigits_append
  rwa [List.take_append_drop, a.length_take, min_eq_left hwords, ← a.value_eq] at happend

variable {a b modulus : List UInt8} {outLen : ℕ}

/-- The product of the operands' words. -/
def boundedProduct (a b m : ℕ) : ℕ :=
  a % (2 ^ 32) ^ numWords m * (b % (2 ^ 32) ^ numWords m) % m

/-- The buffers are in the capacity and the modulus is not zero. -/
structure ModArgs (a b modulus : List UInt8) (outLen : ℕ) : Prop where
  a_le : a.length ≤ bignumWords * 4
  b_le : b.length ≤ bignumWords * 4
  modulus_le : modulus.length ≤ bignumWords * 4
  out_le : outLen ≤ bignumWords * 4
  modulus_ne : beValue modulus ≠ 0

theorem ModArgs.value_modulus (h : ModArgs a b modulus outLen) :
    (bnFromBytes modulus).value = beValue modulus := value_bnFromBytes h.modulus_le

theorem ModArgs.value_ne (h : ModArgs a b modulus outLen) : (bnFromBytes modulus).value ≠ 0 :=
  h.value_modulus.trans_ne h.modulus_ne

theorem ModArgs.words_le (h : ModArgs a b modulus outLen) :
    numWords (beValue modulus) ≤ bignumWords :=
  h.value_modulus ▸ numWords_le h.value_ne

/-- What is multiplied: operands whose words are the residues of the words given. -/
theorem ModArgs.bignumMulmodBytes_eq (h : ModArgs a b modulus outLen) :
    ∃ ba bb m : Bignum, m.low (numWords (beValue modulus)) = beValue modulus ∧
      ba.low (numWords (beValue modulus)) =
        beValue a % (2 ^ 32) ^ numWords (beValue modulus) % beValue modulus ∧
      bb.low (numWords (beValue modulus)) =
        beValue b % (2 ^ 32) ^ numWords (beValue modulus) % beValue modulus ∧
      ∀ stale, bignumMulmodBytes stale a b modulus outLen =
        some (beFixed outLen (bnMulmodW stale ba bb m (numWords (beValue modulus))).value) := by
  have hm := h.value_ne
  have hwords := h.words_le
  have hsig : bnSigWords (bnBitLength (bnFromBytes modulus)) = numWords (beValue modulus) := by
    rw [bnSigWords_eq hm, h.value_modulus]
  have hlow : (bnFromBytes modulus).low (numWords (beValue modulus)) = beValue modulus := by
    rw [← h.value_modulus, low_numWords hm]
  have hpos : 0 < (bnFromBytes modulus).low (numWords (beValue modulus)) := by
    rw [hlow]
    exact Nat.pos_of_ne_zero h.modulus_ne
  have hreduce : ∀ x : List UInt8, x.length ≤ bignumWords * 4 →
      (reduceLoop _ _ hpos (bnFromBytes x)).low (numWords (beValue modulus)) =
        beValue x % (2 ^ 32) ^ numWords (beValue modulus) % beValue modulus := by
    intro x hx
    rw [low_reduceLoop, hlow, Bignum.low_eq_mod _ hwords, value_bnFromBytes hx]
  refine ⟨_, _, bnFromBytes modulus, hlow, hreduce a h.a_le, hreduce b h.b_le, fun stale => ?_⟩
  have hcaps : ¬ (a.length > bignumWords * 4 ∨ b.length > bignumWords * 4 ∨
      modulus.length > bignumWords * 4 ∨ outLen > bignumWords * 4) := by
    have := h.a_le
    have := h.b_le
    have := h.modulus_le
    have := h.out_le
    omega
  rw [bignumMulmodBytes, if_neg hcaps, dif_neg (mt (bnIsZero_iff _).mp hm)]
  simp only [hsig]
  rw [bnToBytes_eq _ h.out_le]

theorem pow_base_words (words : ℕ) : (2 ^ 32) ^ words = 256 ^ (4 * words) := by
  rw [show (2 : ℕ) ^ 32 = 256 ^ 4 from rfl, ← Nat.pow_mul]

/-- Short output depends on the low words only. -/
theorem beFixed_value (x : Bignum) (hwords : words ≤ bignumWords) (hout : outLen ≤ 4 * words) :
    beFixed outLen x.value = beFixed outLen (x.low words) := by
  have hdvd : 256 ^ outLen ∣ (2 ^ 32) ^ words := pow_base_words words ▸ Nat.pow_dvd_pow 256 hout
  rw [beFixed_eq_beFixed_iff, x.low_eq_mod hwords, Nat.mod_mod_of_dvd _ hdvd]

/-- Output that the computed words fill shows the product of the operands' words. -/
theorem ModArgs.bignumMulmodBytes_of_le (h : ModArgs a b modulus outLen)
    (hout : outLen ≤ 4 * numWords (beValue modulus)) (stale : ℕ → Bignum) :
    bignumMulmodBytes stale a b modulus outLen =
      some (beFixed outLen (boundedProduct (beValue a) (beValue b) (beValue modulus))) := by
  obtain ⟨ba, bb, m, hm, hba, hbb, heq⟩ := h.bignumMulmodBytes_eq
  have hlow : ba.low (numWords (beValue modulus)) < m.low (numWords (beValue modulus)) := by
    rw [hba, hm]
    exact Nat.mod_lt _ (Nat.pos_of_ne_zero h.modulus_ne)
  have hproduct := low_bnMulmodW stale bb (numWords_pos _) h.words_le hlow
  rw [hba, hbb, hm, ← Nat.mul_mod] at hproduct
  rw [heq, beFixed_value _ h.words_le hout, hproduct, boundedProduct]

/-- Longer output shows what the uninitialised sum held, unless the second factor is zero. -/
theorem ModArgs.exists_stale_ne (h : ModArgs a b modulus outLen)
    (hout : 4 * numWords (beValue modulus) < outLen)
    (hb : beValue b % (2 ^ 32) ^ numWords (beValue modulus) % beValue modulus ≠ 0) :
    ∃ stale stale', bignumMulmodBytes stale a b modulus outLen ≠
      bignumMulmodBytes stale' a b modulus outLen := by
  obtain ⟨ba, bb, m, hm, hba, hbb, heq⟩ := h.bignumMulmodBytes_eq
  have hwords := h.words_le
  have hpos := numWords_pos (beValue modulus)
  have hout_le := h.out_le
  generalize numWords (beValue modulus) = words at *
  have hlow : ba.low words < m.low words := by
    rw [hba, hm]
    exact Nat.mod_lt _ (Nat.pos_of_ne_zero h.modulus_ne)
  refine ⟨fun _ => bnZero, fun _ => bnZero.orByte words (8 * 0) 1, ?_⟩
  have hdrop : ∀ z : Bignum,
      (bnMulmodW (fun _ => z) ba bb m words).word.drop words = z.word.drop words := by
    intro z
    rw [drop_bnMulmodW hwords, if_neg (hbb.trans_ne hb)]
  -- the two sums differ by one in the word above the bound
  have hone : (bnZero.orByte words (8 * 0) 1).value = (2 ^ 32) ^ words := by
    rw [value_orByte bnZero (by omega) (by decide) (by rw [value_bnZero]; positivity),
      value_bnZero, Nat.zero_add, Nat.add_zero, pow_base_words]
    exact Nat.mul_one _
  have hvalue : ∀ z : Bignum, z.low words = 0 →
      (bnMulmodW (fun _ => z) ba bb m words).value = ba.low words * bb.low words % m.low words +
        z.value := by
    intro z hz
    rw [Bignum.value_split _ hwords, hdrop, z.value_split hwords, hz, Nat.zero_add,
      low_bnMulmodW _ _ hpos hwords hlow]
  have hzero := hvalue bnZero (low_bnZero words)
  have hother := hvalue (bnZero.orByte words (8 * 0) 1) (by
    rw [Bignum.low_eq_mod _ hwords, hone, Nat.mod_self])
  have hpow : (2 ^ 32) ^ words * 256 ≤ 256 ^ outLen := by
    rw [pow_base_words, ← Nat.pow_succ]
    exact Nat.pow_le_pow_right (by decide) hout
  have hproduct : ba.low words * bb.low words % m.low words < (2 ^ 32) ^ words :=
    (Nat.mod_lt _ (Nat.zero_lt_of_lt hlow)).trans (m.low_lt words)
  rw [value_bnZero] at hzero
  rw [hone] at hother
  rw [heq, heq, hzero, hother, Ne, Option.some_inj, beFixed_eq_beFixed_iff]
  generalize ba.low words * bb.low words % m.low words = product at hproduct
  rw [Nat.mod_eq_of_lt (by omega), Nat.mod_eq_of_lt (by omega)]
  omega

/-- Nothing is added to the result for a second factor without bits. -/
theorem ModArgs.bignumMulmodBytes_of_eq_zero (h : ModArgs a b modulus outLen)
    (hb : beValue b % (2 ^ 32) ^ numWords (beValue modulus) % beValue modulus = 0)
    (stale : ℕ → Bignum) :
    bignumMulmodBytes stale a b modulus outLen =
      some (beFixed outLen (boundedProduct (beValue a) (beValue b) (beValue modulus))) := by
  obtain ⟨ba, bb, m, hm, hba, hbb, heq⟩ := h.bignumMulmodBytes_eq
  rw [heq, bnMulmodW_of_low_eq_zero stale h.words_le (hbb.trans hb), value_bnZero, boundedProduct,
    Nat.mul_mod, hb, Nat.mul_zero, Nat.zero_mod]

theorem bignumMulmodBytes_exact_iff (h : ModArgs a b modulus outLen) :
    (∀ stale, bignumMulmodBytes stale a b modulus outLen =
        some (beFixed outLen (beValue a * beValue b % beValue modulus))) ↔
      boundedProduct (beValue a) (beValue b) (beValue modulus) ≡
          beValue a * beValue b % beValue modulus [MOD 256 ^ outLen] ∧
        (outLen ≤ 4 * numWords (beValue modulus) ∨
          beValue b % (2 ^ 32) ^ numWords (beValue modulus) % beValue modulus = 0) := by
  by_cases hcase : outLen ≤ 4 * numWords (beValue modulus) ∨
      beValue b % (2 ^ 32) ^ numWords (beValue modulus) % beValue modulus = 0
  · have hbounded : ∀ stale, bignumMulmodBytes stale a b modulus outLen =
        some (beFixed outLen (boundedProduct (beValue a) (beValue b) (beValue modulus))) := by
      obtain hout | hb := hcase
      · exact h.bignumMulmodBytes_of_le hout
      · exact h.bignumMulmodBytes_of_eq_zero hb
    simp only [hbounded, hcase, and_true, Option.some_inj, beFixed_eq_beFixed_iff]
    exact ⟨fun heq => heq fun _ => bnZero, fun heq _ => heq⟩
  · refine ⟨fun hall => ?_, fun hright => absurd hright.2 hcase⟩
    obtain ⟨hout, hb⟩ := not_or.mp hcase
    obtain ⟨stale, stale', hne⟩ := h.exists_stale_ne (Nat.not_le.mp hout) hb
    exact absurd ((hall stale).trans (hall stale').symm) hne

theorem bignumMulmodBytes_exact_iff_small :
    ModArgs [2] [3] [5] 1 ∧
      ((∀ stale, bignumMulmodBytes stale [2] [3] [5] 1 =
          some (beFixed 1 (beValue [2] * beValue [3] % beValue [5]))) ↔
        boundedProduct (beValue [2]) (beValue [3]) (beValue [5]) ≡
            beValue [2] * beValue [3] % beValue [5] [MOD 256 ^ 1] ∧
          (1 ≤ 4 * numWords (beValue [5]) ∨
            beValue [3] % (2 ^ 32) ^ numWords (beValue [5]) % beValue [5] = 0)) := by
  have hargs : ModArgs [2] [3] [5] 1 :=
    ⟨by decide, by decide, by decide, by decide, by decide⟩
  exact ⟨hargs, bignumMulmodBytes_exact_iff hargs⟩

/-- The top byte of 2³² is dropped with a modulus of one word. -/
theorem wideFactor_dropped :
    bignumMulmodBytes (fun _ => bnZero) [1, 0, 0, 0, 0] [1] [3] 1 = some [0] ∧
      beFixed 1 (beValue [1, 0, 0, 0, 0] * beValue [1] % beValue [3]) = [1] := by
  have hargs : ModArgs [1, 0, 0, 0, 0] [1] [3] 1 :=
    ⟨by decide, by decide, by decide, by decide, by decide⟩
  have hwords : numWords (beValue [3]) = 1 := by
    rw [numWords, Nat.log_of_lt (by decide)]
  rw [hargs.bignumMulmodBytes_of_le (by omega), boundedProduct, hwords]
  exact ⟨by decide, by decide⟩

end EntryPoint

end AuroraOS.Crypto
