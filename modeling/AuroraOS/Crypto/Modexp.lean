import AuroraOS.Crypto.Mulmod
import AuroraOS.Lib.PrimeModulus
import Mathlib.Tactic.NormNum.Prime

/-!
# Modular exponentiation and inversion

Square and multiply, over the bits of the exponent from the lowest on. The first byte of a modulus
is not zero here, so its words hold every operand that is no longer than the modulus.

## Main results

- `IsModulus.bignumModexpBytes_eq`
- `bignumInvmodBytes_inverts`
-/

namespace AuroraOS.Crypto

open Lib

section Loop

variable {m b : Bignum} {words topBit : ℕ}

/-- The state of the loop of `bn_modexp` after the turns for the low bits of `exp`. -/
def modexpRun (stale : ℕ → ℕ → Bignum) (exp m b : Bignum) (words topBit n : ℕ) : Bignum × Bignum :=
  (List.range n).foldl (modexpTurn stale exp m words topBit) (bnOfWord 1 one_lt_word, b)

theorem modexpRun_succ (stale : ℕ → ℕ → Bignum) (exp m b : Bignum) (words topBit n : ℕ) :
    modexpRun stale exp m b words topBit (n + 1) =
      modexpTurn stale exp m words topBit (modexpRun stale exp m b words topBit n) n := by
  rw [modexpRun, List.range_succ, List.foldl_append]
  rfl

theorem low_bnOfWord {w : ℕ} (hw : w < 2 ^ 32) (hpos : 0 < words) (hwords : words ≤ bignumWords) :
    (bnOfWord w hw).low words = w := by
  rw [Bignum.low_eq_mod _ hwords, value_bnOfWord, Nat.mod_eq_of_lt]
  exact hw.trans_le (Nat.le_self_pow hpos.ne' _)

/-- The power of the bits taken so far and, unless it is the last turn, the next square. -/
theorem low_modexpRun (stale : ℕ → ℕ → Bignum) (exp : Bignum) (hpos : 0 < words)
    (hwords : words ≤ bignumWords) (hm : 1 < m.low words)
    (hb : b.low words < m.low words) (htop : topBit < bignumWords * 32) {n : ℕ}
    (hn : n ≤ topBit + 1) :
    (modexpRun stale exp m b words topBit n).1.low words =
        b.low words ^ (exp.value % 2 ^ n) % m.low words ∧
      (n ≤ topBit → (modexpRun stale exp m b words topBit n).2.low words =
        b.low words ^ 2 ^ n % m.low words) := by
  induction n with
  | zero =>
    rw [Nat.pow_zero, Nat.mod_one, Nat.pow_zero, Nat.pow_one, Nat.mod_eq_of_lt hm,
      Nat.mod_eq_of_lt hb]
    exact ⟨low_bnOfWord (by decide) hpos hwords, fun _ => rfl⟩
  | succ n ih =>
    obtain ⟨hresult, hsquare⟩ := ih (Nat.le_of_succ_le hn)
    replace hsquare := hsquare (Nat.le_of_lt_succ hn)
    have hmod : ∀ x, x % m.low words < m.low words := fun x => Nat.mod_lt x (by omega)
    have hbit : (exp.wordAt (n / 32)).testBit (n % 32) = exp.value.testBit n :=
      testBit_wordAt exp le_rfl (by omega)
    rw [modexpRun_succ, modexpTurn, hbit, mod_two_pow_succ]
    constructor
    · cases exp.value.testBit n with
      | false =>
        rw [if_neg Bool.false_ne_true, Bool.toNat_false, Nat.mul_zero, Nat.add_zero]
        exact hresult
      | true =>
        rw [if_pos rfl, low_bnMulmodW _ _ hpos hwords (hresult ▸ hmod _), hresult, hsquare,
          ← Nat.mul_mod, Bool.toNat_true, Nat.mul_one, Nat.pow_add]
    · rintro (hlt : n < topBit)
      rw [if_pos hlt, low_bnMulmodW _ _ hpos hwords (hsquare ▸ hmod _), hsquare, ← Nat.mul_mod,
        ← Nat.pow_add, Nat.pow_succ, Nat.mul_two]

/-- The power of the base's words. -/
theorem low_bnModexp (stale : ℕ → ℕ → Bignum) (base exp : Bignum) (hm : 1 < m.value)
    (hne : m.value ≠ 0) :
    (bnModexp stale base exp m hne).low (numWords m.value) =
      (base.value % (2 ^ 32) ^ numWords m.value) ^ exp.value % m.value := by
  have hpos := numWords_pos m.value
  have hwords := numWords_le hne
  have hlow := low_numWords hne
  have hsig := bnSigWords_eq hne
  have hbase : (reduceLoop _ m (low_bnSigWords_pos hne) base).low (numWords m.value) =
      base.value % (2 ^ 32) ^ numWords m.value % m.value := by
    rw [← hsig, low_reduceLoop, low_bnSigWords hne, Bignum.low_eq_mod _ (bnSigWords_le hne)]
  have hlt : (reduceLoop _ m (low_bnSigWords_pos hne) base).low (numWords m.value) <
      m.low (numWords m.value) := by
    rw [hbase, hlow]
    exact Nat.mod_lt _ (Nat.zero_lt_of_lt hm)
  rw [bnModexp]
  generalize reduceLoop _ m (low_bnSigWords_pos hne) base = b at hbase hlt ⊢
  rw [hsig]
  obtain hnone | ⟨topBit, htop⟩ := Option.eq_none_or_eq_some (bnBitLength exp)
  · have hzero : exp.value = 0 := bitLengthLoop_none le_rfl hnone
    rw [hnone, hzero, Nat.pow_zero, Nat.mod_eq_of_lt hm]
    exact low_bnOfWord (by decide) hpos hwords
  · obtain ⟨hle, (hless : exp.value < 2 ^ (topBit + 1))⟩ := bitLengthLoop_some le_rfl htop
    have hcap := hle.trans_lt (exp.low_lt bignumWords)
    rw [← Nat.pow_mul, Nat.pow_lt_pow_iff_right (by decide), Nat.mul_comm] at hcap
    have hrun := (low_modexpRun stale exp hpos hwords (hlow.symm ▸ hm) hlt hcap le_rfl).1
    rw [hlow, hbase, Nat.mod_eq_of_lt hless, ← Nat.pow_mod] at hrun
    rw [htop]
    exact hrun

end Loop

section EntryPoints

variable {message exponent modulus : List UInt8} {outLen : ℕ}

/-- A modulus of at most 512 bytes with a first byte that is not zero. -/
structure IsModulus (modulus : List UInt8) : Prop where
  length_le : modulus.length ≤ bignumWords * 4
  head : ∃ first rest, modulus = first :: rest ∧ first ≠ 0

theorem beValue_cons (b : UInt8) (bs : List UInt8) :
    beValue (b :: bs) = b.toNat * 256 ^ bs.length + beValue bs := by
  induction bs using List.reverseRecOn with
  | nil => simp [beValue]
  | append_singleton bs c ih =>
    rw [← List.cons_append, beValue_concat, ih, beValue_concat, List.length_append,
      List.length_singleton]
    ring

namespace IsModulus

theorem pow_le (h : IsModulus modulus) : 256 ^ (modulus.length - 1) ≤ beValue modulus := by
  obtain ⟨first, rest, rfl, hfirst⟩ := h.head
  have hpos : 1 ≤ first.toNat := Nat.one_le_iff_ne_zero.mpr fun hzero =>
    hfirst (UInt8.toNat_inj.mp hzero)
  rw [beValue_cons, List.length_cons, Nat.add_sub_cancel]
  exact (Nat.le_mul_of_pos_left _ hpos).trans (Nat.le_add_right _ _)

theorem value_ne (h : IsModulus modulus) : (bnFromBytes modulus).value ≠ 0 := by
  rw [value_bnFromBytes h.length_le]
  exact ((Nat.pow_pos (by decide)).trans_le h.pow_le).ne'

/-- The words of a modulus hold its bytes. -/
theorem length_le_words (h : IsModulus modulus) :
    modulus.length ≤ 4 * numWords (beValue modulus) := by
  have hlt := h.pow_le.trans_lt (lt_pow_numWords (beValue modulus))
  rw [pow_base_words, Nat.pow_lt_pow_iff_right (by decide)] at hlt
  omega

theorem words_le (h : IsModulus modulus) : numWords (beValue modulus) ≤ bignumWords := by
  have hle := numWords_le h.value_ne
  rwa [value_bnFromBytes h.length_le] at hle

/-- What `bn_modexp` leaves in the words of the modulus. -/
theorem low_bnModexp {stale : ℕ → ℕ → Bignum} {base exp : Bignum} (h : IsModulus modulus)
    (hm : 1 < beValue modulus) (hbase : base.value < 256 ^ modulus.length) :
    beFixed modulus.length (bnModexp stale base exp (bnFromBytes modulus) h.value_ne).value =
      beFixed modulus.length (base.value ^ exp.value % beValue modulus) := by
  have hvalue := value_bnFromBytes h.length_le
  have hlow := Crypto.low_bnModexp stale base exp (hvalue.symm ▸ hm) h.value_ne
  have hfit : base.value < 256 ^ (4 * numWords (beValue modulus)) :=
    hbase.trans_le (Nat.pow_le_pow_right (by decide) h.length_le_words)
  rw [hvalue, pow_base_words, Nat.mod_eq_of_lt hfit] at hlow
  rw [beFixed_value _ h.words_le h.length_le_words, hlow]

theorem bignumModexpBytes_eq (h : IsModulus modulus) (hm : 1 < beValue modulus)
    (hmessage : message.length ≤ modulus.length) (hexponent : exponent.length ≤ bignumWords * 4)
    (stale : ℕ → ℕ → Bignum) :
    bignumModexpBytes stale message exponent modulus modulus.length =
      some (beFixed modulus.length (beValue message ^ beValue exponent % beValue modulus)) := by
  have hlen := h.length_le
  have hbase := value_bnFromBytes (hmessage.trans hlen)
  have hlt : (bnFromBytes message).value < 256 ^ modulus.length := by
    rw [hbase]
    exact (beValue_lt message).trans_le (Nat.pow_le_pow_right (by decide) hmessage)
  rw [bignumModexpBytes, if_neg (by omega), dif_neg (mt (bnIsZero_iff _).mp h.value_ne)]
  rw [bnToBytes_eq _ hlen, h.low_bnModexp hm hlt, hbase, value_bnFromBytes hexponent]

theorem bignumInvmodBytes_eq {a : List UInt8} (h : IsModulus modulus) (hm : 1 < beValue modulus)
    (ha : a.length ≤ modulus.length) (stale : ℕ → ℕ → Bignum) :
    bignumInvmodBytes stale a modulus modulus.length =
      some (beFixed modulus.length (beValue a ^ (beValue modulus - 2) % beValue modulus)) := by
  have hlen := h.length_le
  have hbase := value_bnFromBytes (ha.trans hlen)
  have hvalue := value_bnFromBytes hlen
  have htwo : (bnOfWord 2 (by decide)).value = 2 := value_bnOfWord (by decide)
  have hexp : (bnSub (bnFromBytes modulus) (bnOfWord 2 (by decide))).value =
      beValue modulus - 2 := by
    rw [value_bnSub_of_le (by omega), htwo, hvalue]
  have hfit : (bnFromBytes a).value < 256 ^ modulus.length := by
    rw [hbase]
    exact (beValue_lt a).trans_le (Nat.pow_le_pow_right (by decide) ha)
  rw [bignumInvmodBytes, if_neg (by omega), dif_neg (mt (bnIsZero_iff _).mp h.value_ne)]
  dsimp only
  rw [bnToBytes_eq _ hlen, h.low_bnModexp hm hfit, hbase, hexp]

end IsModulus

theorem bignumModexpBytes_exact {first : UInt8} {rest : List UInt8} (hfirst : first ≠ 0)
    (hlen : rest.length + 1 ≤ 512) (hm : 1 < beValue (first :: rest))
    (hmessage : message.length ≤ rest.length + 1) (hexponent : exponent.length ≤ 512)
    (stale : ℕ → ℕ → Bignum) :
    bignumModexpBytes stale message exponent (first :: rest) (rest.length + 1) =
      some (beFixed (rest.length + 1)
        (beValue message ^ beValue exponent % beValue (first :: rest))) := by
  have hmodulus : IsModulus (first :: rest) := ⟨hlen, first, rest, rfl, hfirst⟩
  exact hmodulus.bignumModexpBytes_eq hm hmessage hexponent stale

theorem bignumModexpBytes_exact_small :
    bignumModexpBytes (fun _ _ => bnZero) [3] [4] [7] 1 =
      some (beFixed 1 (beValue [3] ^ beValue [4] % beValue [7])) :=
  bignumModexpBytes_exact (by decide) (by decide) (by decide) (by decide) (by decide) _

theorem bignumInvmodBytes_inverts {a modulus : List UInt8} (h : IsModulus modulus)
    (hp : (beValue modulus).Prime) (ha : a.length ≤ modulus.length)
    (hdvd : ¬ beValue modulus ∣ beValue a) :
    ∃ x, 1 ≤ x ∧ x < beValue modulus ∧ beValue a * x % beValue modulus = 1 ∧
      (∀ y < beValue modulus, beValue a * y % beValue modulus = 1 → y = x) ∧
      ∀ stale, bignumInvmodBytes stale a modulus modulus.length =
        some (beFixed modulus.length x) := by
  have hlen := h.length_le
  have hinverse := pow_sub_two_inverts hp hdvd
  have hlt := Nat.mod_lt (beValue a ^ (beValue modulus - 2)) hp.pos
  refine ⟨beValue a ^ (beValue modulus - 2) % beValue modulus, ?_, hlt, hinverse, ?_, ?_⟩
  · refine Nat.one_le_iff_ne_zero.mpr fun hzero => ?_
    rw [hzero, Nat.mul_zero, Nat.zero_mod] at hinverse
    exact absurd hinverse (by decide)
  · intro y hy hone
    exact inverse_unique hp hdvd hy hlt (hone.trans hinverse.symm)
  · exact h.bignumInvmodBytes_eq hp.one_lt ha

theorem isModulus_byte {b : UInt8} (hb : b ≠ 0) : IsModulus [b] :=
  ⟨show 1 ≤ 512 by decide, b, [], rfl, hb⟩

theorem bignumInvmodBytes_inverts_small :
    ∃ x, 1 ≤ x ∧ x < beValue [7] ∧ beValue [3] * x % beValue [7] = 1 ∧
      (∀ y < beValue [7], beValue [3] * y % beValue [7] = 1 → y = x) ∧
      ∀ stale, bignumInvmodBytes stale [3] [7] 1 = some (beFixed 1 x) :=
  bignumInvmodBytes_inverts (isModulus_byte (by decide))
    (show Nat.Prime 7 by norm_num) (by decide) (by decide)

end EntryPoints

end AuroraOS.Crypto
