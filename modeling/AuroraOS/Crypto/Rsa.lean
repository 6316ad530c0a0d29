import AuroraOS.Crypto.Modexp
import Mathlib.NumberTheory.LucasLehmer

/-!
# RSA with PKCS#1 v1.5 padding

`kernel/rsa.c`. The buffers `padded` and `decoded` hold 512 bytes, which both functions check. The
clock that seeds the padding is a parameter.

## Main definitions

- `rsaEncryptPkcs1`, `rsaVerifyPkcs1Sha256`

## Main results

- `rsaVerifyPkcs1Sha256_iff`
- `rsaEncryptPkcs1_decrypts`
-/

namespace AuroraOS.Crypto

set_option maxRecDepth 4096

open Lib

section Model

/-- What the clock reads: `timer_get_ticks` and the fields of `struct rtc_time`. -/
structure ClockReading where
  ticks : UInt32
  hours : UInt8
  minutes : UInt8
  seconds : UInt8

/-- The first value of `seed`. -/
def paddingSeed (t : ClockReading) : UInt32 :=
  t.ticks ^^^ (t.hours.toUInt32 <<< 16) ^^^ (t.minutes.toUInt32 <<< 8) ^^^ t.seconds.toUInt32 ^^^
    0xa5a5a5a5

/-- The loop that fills `padded`, from turn `i` on. -/
def paddingLoop (seed : UInt32) (i : ℕ) : ℕ → List UInt8
  | 0 => []
  | n + 1 =>
    let seed := seed * 1103515245 + 12345 + UInt32.ofNat i
    let b := (seed >>> 16).toUInt8
    (if b = 0 then 0x42 else b) :: paddingLoop seed (i + 1) n

/-- The block that `rsa_encrypt_pkcs1` builds. -/
def paddedBlock (t : ClockReading) (modulusLen : ℕ) (message : List UInt8) : List UInt8 :=
  let paddingLen := modulusLen - message.length - 3
  [0x00, 0x02] ++ paddingLoop (paddingSeed t) 0 paddingLen ++ [0x00] ++ message

/-- `rsa_encrypt_pkcs1`. -/
def rsaEncryptPkcs1 (stale : ℕ → ℕ → Bignum) (t : ClockReading)
    (modulus pubExponent message : List UInt8) (outLen : ℕ) : Option (List UInt8) :=
  if outLen ≠ modulus.length ∨ message.length + 11 > modulus.length then none
  else if modulus.length > 512 then none
  else bignumModexpBytes stale (paddedBlock t modulus.length message) pubExponent modulus outLen

/-- `SHA256_DIGESTINFO_PREFIX`. -/
def sha256DigestInfoPrefix : List UInt8 :=
  [0x30, 0x31, 0x30, 0x0d, 0x06, 0x09, 0x60, 0x86, 0x48, 0x01, 0x65, 0x03, 0x04, 0x02, 0x01, 0x05,
    0x00, 0x04, 0x20]

/-- `while (i < modulus_len && decoded[i] == 0xFF) i++`. -/
def skipPadding (decoded : List UInt8) (modulusLen i : ℕ) : ℕ :=
  if i < modulusLen ∧ decoded.getD i 0 = 0xff then skipPadding decoded modulusLen (i + 1) else i
termination_by modulusLen - i

/-- The checks of `rsa_verify_pkcs1_sha256` on the decoded block. -/
def checkDecoded (decoded : List UInt8) (modulusLen : ℕ) (hash : List UInt8) : Bool :=
  if decoded.getD 0 0 ≠ 0x00 ∨ decoded.getD 1 0 ≠ 0x01 then false
  else
    let i := skipPadding decoded modulusLen 2
    if i ≥ modulusLen ∨ decoded.getD i 0 ≠ 0x00 then false
    else
      let i := i + 1
      if i + 19 + 32 ≠ modulusLen then false
      else if (List.range 19).any fun j =>
          decoded.getD (i + j) 0 != sha256DigestInfoPrefix.getD j 0 then false
      else
        let i := i + 19
        if (List.range 32).any fun j => decoded.getD (i + j) 0 != hash.getD j 0 then false else true

/-- `rsa_verify_pkcs1_sha256`. -/
def rsaVerifyPkcs1Sha256 (stale : ℕ → ℕ → Bignum)
    (modulus pubExponent signature hash : List UInt8) : Bool :=
  if signature.length ≠ modulus.length ∨ modulus.length < 11 + 19 + 32 then false
  else if modulus.length > 512 then false
  else
    match bignumModexpBytes stale signature pubExponent modulus modulus.length with
    | none => false
    | some decoded => checkDecoded decoded modulus.length hash

end Model

section Verification

variable {modulus exponent signature hash decoded : List UInt8} {k : ℕ}

/-- The block of a signature: padding that fills the whole length, the prefix and the hash. -/
def signatureBlock (k : ℕ) (hash : List UInt8) : List UInt8 :=
  [0x00, 0x01] ++ List.replicate (k - 54) 0xff ++ [0x00] ++ sha256DigestInfoPrefix ++ hash

theorem length_signatureBlock (hk : 62 ≤ k) (hhash : hash.length = 32) :
    (signatureBlock k hash).length = k := by
  have hprefix : sha256DigestInfoPrefix.length = 19 := rfl
  simp only [signatureBlock, List.length_append, List.length_cons, List.length_nil,
    List.length_replicate, hprefix, hhash]
  omega

theorem skipPadding_spec (decoded : List UInt8) (modulusLen i : ℕ) (hi : i ≤ modulusLen) :
    i ≤ skipPadding decoded modulusLen i ∧ skipPadding decoded modulusLen i ≤ modulusLen ∧
      (∀ j, i ≤ j → j < skipPadding decoded modulusLen i → decoded.getD j 0 = 0xff) ∧
      (skipPadding decoded modulusLen i < modulusLen →
        decoded.getD (skipPadding decoded modulusLen i) 0 ≠ 0xff) := by
  fun_induction skipPadding decoded modulusLen i with
  | case1 i hff ih =>
    obtain ⟨hle, hlen, hrun, hstop⟩ := ih hff.1
    refine ⟨Nat.le_of_succ_le hle, hlen, fun j hij hj => ?_, hstop⟩
    obtain rfl | hij := Nat.eq_or_lt_of_le hij
    · exact hff.2
    · exact hrun j hij hj
  | case2 i hff =>
    refine ⟨le_rfl, hi, fun j hij hj => absurd hj (Nat.not_lt.mpr hij), fun hlt heq => ?_⟩
    exact hff ⟨hlt, heq⟩

/-- The padding ends at the first byte that is not 0xff. -/
theorem skipPadding_eq {modulusLen i n : ℕ} (hin : i ≤ n) (hn : n < modulusLen)
    (hrun : ∀ j, i ≤ j → j < n → decoded.getD j 0 = 0xff) (hstop : decoded.getD n 0 ≠ 0xff) :
    skipPadding decoded modulusLen i = n := by
  obtain ⟨hle, -, hff, hend⟩ := skipPadding_spec decoded modulusLen i (by omega)
  obtain hlt | heq | hgt := lt_trichotomy (skipPadding decoded modulusLen i) n
  · exact absurd (hrun _ hle hlt) (hend (hlt.trans hn))
  · exact heq
  · exact absurd (hff n hin hgt) hstop

/-- The bytes of a signature block, by their place. -/
structure IsSignatureBlock (k : ℕ) (hash block : List UInt8) : Prop where
  zero : block.getD 0 0 = 0x00
  one : block.getD 1 0 = 0x01
  padding : ∀ j, 2 ≤ j → j < k - 52 → block.getD j 0 = 0xff
  separator : block.getD (k - 52) 0 = 0x00
  digestInfo : ∀ j < 19, block.getD (k - 51 + j) 0 = sha256DigestInfoPrefix.getD j 0
  hash : ∀ j < 32, block.getD (k - 32 + j) 0 = hash.getD j 0

theorem isSignatureBlock_signatureBlock (hk : 62 ≤ k) (hash : List UInt8) :
    IsSignatureBlock k hash (signatureBlock k hash) := by
  obtain ⟨n, rfl⟩ := Nat.exists_eq_add_of_le (show 54 ≤ k by omega)
  have hn : 54 + n - 54 = n := Nat.add_sub_cancel_left 54 n
  have hlen : ([0x00, 0x01] ++ List.replicate n 0xff : List UInt8).length = n + 2 := by
    rw [List.length_append, List.length_replicate, Nat.add_comm]
    rfl
  have hblock : signatureBlock (54 + n) hash = [0x00, 0x01] ++ List.replicate n 0xff ++
      (0x00 :: (sha256DigestInfoPrefix ++ hash)) := by
    rw [signatureBlock, hn]
    simp only [List.append_assoc, List.cons_append, List.nil_append]
  have htail : ∀ i, (signatureBlock (54 + n) hash).getD (n + 2 + i) 0 =
      (0x00 :: (sha256DigestInfoPrefix ++ hash)).getD i 0 := by
    intro i
    rw [hblock, List.getD_append_right _ _ _ _ (by omega), hlen, Nat.add_sub_cancel_left]
  refine ⟨rfl, rfl, fun j hj hlt => ?_, ?_, fun j hj => ?_, fun j hj => ?_⟩
  · rw [hblock, List.getD_append _ _ _ _ (by omega), List.getD_append_right _ _ _ _ hj,
      List.getD_replicate]
    have htwo : ([0x00, 0x01] : List UInt8).length = 2 := rfl
    omega
  · have hindex : 54 + n - 52 = n + 2 + 0 := by omega
    rw [hindex, htail]
    rfl
  · have hinfo := htail (j + 1)
    rw [List.getD_cons_succ, List.getD_append _ _ _ _ hj] at hinfo
    rw [← hinfo]
    congr 1
    omega
  · have hdigest := htail (j + 20)
    have hinfo : sha256DigestInfoPrefix.length ≤ j + 19 := Nat.le_add_left 19 j
    rw [List.getD_cons_succ, List.getD_append_right _ _ _ _ hinfo] at hdigest
    have hindex : 54 + n - 32 + j = n + 2 + (j + 20) := by omega
    rw [hindex, hdigest]
    exact congrArg (hash.getD · 0) (Nat.add_sub_cancel j 19)

theorem IsSignatureBlock.unique {block block' : List UInt8} (hk : 62 ≤ k)
    (h : IsSignatureBlock k hash block) (h' : IsSignatureBlock k hash block')
    (hlen : block.length = k) (hlen' : block'.length = k) : block = block' := by
  refine List.ext_getElem (hlen.trans hlen'.symm) fun j hj hj' => ?_
  have hget : ∀ (l : List UInt8) (hl : j < l.length), l[j] = l.getD j 0 := fun l hl =>
    (List.getD_eq_getElem _ _ hl).symm
  rw [hget block hj, hget block' hj']
  by_cases h0 : j = 0
  · rw [h0, h.zero, h'.zero]
  by_cases h1 : j = 1
  · rw [h1, h.one, h'.one]
  by_cases hpad : j < k - 52
  · rw [h.padding j (by omega) hpad, h'.padding j (by omega) hpad]
  by_cases hsep : j = k - 52
  · rw [hsep, h.separator, h'.separator]
  by_cases hinfo : j < k - 32
  · obtain ⟨i, rfl⟩ := Nat.exists_eq_add_of_le (show k - 51 ≤ j by omega)
    rw [h.digestInfo i (by omega), h'.digestInfo i (by omega)]
  · obtain ⟨i, rfl⟩ := Nat.exists_eq_add_of_le (show k - 32 ≤ j by omega)
    rw [h.hash i (by omega), h'.hash i (by omega)]

/-- The only split that the checks accept is the one with padding up to the fixed end. -/
theorem checkDecoded_iff (hk : 62 ≤ k) :
    checkDecoded decoded k hash = true ↔ IsSignatureBlock k hash decoded := by
  have hany : ∀ (n i : ℕ) (l : List UInt8),
      ((List.range n).any fun j => decoded.getD (i + j) 0 != l.getD j 0) = true ↔
        ¬ ∀ j < n, decoded.getD (i + j) 0 = l.getD j 0 := by
    intro n i l
    simp [List.any_eq_true]
  rw [checkDecoded]
  simp only [hany]
  constructor
  · intro hcheck
    obtain ⟨-, -, hrun, -⟩ := skipPadding_spec decoded k 2 (by omega)
    split at hcheck
    · exact absurd hcheck Bool.false_ne_true
    split at hcheck
    · exact absurd hcheck Bool.false_ne_true
    split at hcheck
    · exact absurd hcheck Bool.false_ne_true
    split at hcheck
    · exact absurd hcheck Bool.false_ne_true
    split at hcheck
    · exact absurd hcheck Bool.false_ne_true
    next hhead hstop hlen hinfo hdigest =>
    rw [not_or, not_not, not_not] at hhead
    rw [not_or, not_not] at hstop
    rw [not_not] at hlen hinfo hdigest
    have hskip : skipPadding decoded k 2 = k - 52 := by omega
    rw [hskip] at hrun hstop hinfo hdigest
    refine ⟨hhead.1, hhead.2, hrun, hstop.2, fun j hj => ?_, fun j hj => ?_⟩
    · rw [← hinfo j hj]
      congr 1
      omega
    · rw [← hdigest j hj]
      congr 1
      omega
  · intro h
    have hskip : skipPadding decoded k 2 = k - 52 :=
      skipPadding_eq (by omega) (by omega) h.padding (by rw [h.separator]; decide)
    have hhead : ¬ (decoded.getD 0 0 ≠ 0x00 ∨ decoded.getD 1 0 ≠ 0x01) := by
      rw [h.zero, h.one]
      decide
    have hstop : ¬ (k - 52 ≥ k ∨ decoded.getD (k - 52) 0 ≠ 0x00) := by
      rw [h.separator]
      exact not_or.mpr ⟨by omega, fun hne => hne rfl⟩
    have hinfo : ∀ j < 19, decoded.getD (k - 52 + 1 + j) 0 = sha256DigestInfoPrefix.getD j 0 := by
      intro j hj
      rw [← h.digestInfo j hj]
      congr 1
      omega
    have hdigest : ∀ j < 32, decoded.getD (k - 52 + 1 + 19 + j) 0 = hash.getD j 0 := by
      intro j hj
      rw [← h.hash j hj]
      congr 1
      omega
    rw [hskip, if_neg hhead, if_neg hstop, if_neg (by omega), if_neg (not_not.mpr hinfo),
      if_neg (not_not.mpr hdigest)]

/-- `bignum_modexp_bytes` refuses an exponent that its buffers do not hold. -/
theorem bignumModexpBytes_of_longExponent (stale : ℕ → ℕ → Bignum) (message modulus : List UInt8)
    (outLen : ℕ) (hexp : 512 < exponent.length) :
    bignumModexpBytes stale message exponent modulus outLen = none := by
  rw [bignumModexpBytes, if_pos (by change _ ∨ exponent.length > 512 ∨ _; omega)]

theorem rsaVerifyPkcs1Sha256_iff (h : IsModulus modulus) (hhash : hash.length = 32)
    (stale : ℕ → ℕ → Bignum) :
    rsaVerifyPkcs1Sha256 stale modulus exponent signature hash = true ↔
      exponent.length ≤ 512 ∧ signature.length = modulus.length ∧ 62 ≤ modulus.length ∧
        beFixed modulus.length (beValue signature ^ beValue exponent % beValue modulus) =
          signatureBlock modulus.length hash := by
  rw [rsaVerifyPkcs1Sha256]
  by_cases hlen : signature.length ≠ modulus.length ∨ modulus.length < 11 + 19 + 32
  · rw [if_pos hlen]
    refine iff_of_false Bool.false_ne_true fun hright => ?_
    omega
  · obtain ⟨hsame, hlong⟩ := not_or.mp hlen
    have hcap : ¬ modulus.length > 512 := Nat.not_lt.mpr h.length_le
    rw [if_neg hlen, if_neg hcap]
    by_cases hexp : exponent.length ≤ 512
    · have hone : 1 < beValue modulus :=
        (Nat.one_lt_pow (by omega) (by decide)).trans_le h.pow_le
      rw [h.bignumModexpBytes_eq hone (not_not.mp hsame).le hexp]
      dsimp only
      have hblock := isSignatureBlock_signatureBlock (Nat.not_lt.mp hlong) hash
      have hsize := length_signatureBlock (Nat.not_lt.mp hlong) hhash
      rw [checkDecoded_iff (Nat.not_lt.mp hlong)]
      constructor
      · intro hdecoded
        exact ⟨hexp, not_not.mp hsame, Nat.not_lt.mp hlong,
          hdecoded.unique (Nat.not_lt.mp hlong) hblock (length_beFixed _ _) hsize⟩
      · rintro ⟨-, -, -, hdecoded⟩
        rwa [hdecoded]
    · rw [bignumModexpBytes_of_longExponent _ _ _ _ (Nat.lt_of_not_le hexp)]
      exact iff_of_false Bool.false_ne_true fun hright => hexp hright.1

theorem isModulus_replicate {n : ℕ} (hpos : 0 < n) (hn : n ≤ 512) :
    IsModulus (List.replicate n 0xff) := by
  obtain ⟨m, rfl⟩ := Nat.exists_eq_add_of_lt hpos
  exact ⟨by rwa [List.length_replicate], 0xff, List.replicate (0 + m) 0xff, rfl, by decide⟩

theorem rsaVerifyPkcs1Sha256_iff_replicate :
    rsaVerifyPkcs1Sha256 (fun _ _ => bnZero) (List.replicate 62 0xff) [1]
        (signatureBlock 62 (List.replicate 32 0)) (List.replicate 32 0) = true ↔
      [1].length ≤ 512 ∧
        (signatureBlock 62 (List.replicate 32 0)).length = (List.replicate 62 0xff).length ∧
        62 ≤ (List.replicate 62 0xff).length ∧
        beFixed (List.replicate 62 0xff).length
            (beValue (signatureBlock 62 (List.replicate 32 0)) ^ beValue [1] %
              beValue (List.replicate 62 0xff)) =
          signatureBlock (List.replicate 62 0xff).length (List.replicate 32 0) :=
  rsaVerifyPkcs1Sha256_iff (isModulus_replicate (by decide) (by decide)) rfl _

/-- The exponent 1 in 513 bytes: the block is right, and the signature is refused. -/
theorem longExponent_rejected :
    beFixed 62 (beValue (signatureBlock 62 (List.replicate 32 0)) ^
        beValue (List.replicate 512 0 ++ [1]) % beValue (List.replicate 62 0xff)) =
      signatureBlock 62 (List.replicate 32 0) ∧
    rsaVerifyPkcs1Sha256 (fun _ _ => bnZero) (List.replicate 62 0xff)
      (List.replicate 512 0 ++ [1]) (signatureBlock 62 (List.replicate 32 0))
      (List.replicate 32 0) = false := by
  have hexp : 512 < (List.replicate 512 0 ++ [1] : List UInt8).length := by
    rw [List.length_append, List.length_replicate, List.length_singleton]
    decide
  refine ⟨by decide, ?_⟩
  rw [rsaVerifyPkcs1Sha256, if_neg (by decide), if_neg (by decide),
    bignumModexpBytes_of_longExponent _ _ _ _ hexp]

end Verification

section Encryption

variable {modulus exponent message : List UInt8}

theorem length_paddingLoop (seed : UInt32) (i n : ℕ) : (paddingLoop seed i n).length = n := by
  induction n generalizing seed i with
  | zero => rfl
  | succ n ih => rw [paddingLoop, List.length_cons, ih]

/-- No byte of the padding is zero, whatever the seed is. -/
theorem paddingLoop_ne_zero (seed : UInt32) (i n : ℕ) : ∀ b ∈ paddingLoop seed i n, b ≠ 0 := by
  induction n generalizing seed i with
  | zero => exact fun b hb => absurd hb List.not_mem_nil
  | succ n ih =>
    rw [paddingLoop]
    refine List.forall_mem_cons.mpr ⟨?_, ih _ _⟩
    split
    · decide
    · next hb => exact hb

/-- Block type 2: at least eight padding bytes up to the first zero, then the message. -/
def removePadding (block : List UInt8) : Option (List UInt8) :=
  if block.take 2 = [0x00, 0x02] then
    let padding := (block.drop 2).takeWhile (· ≠ 0)
    if padding.length < 8 ∨ block.length ≤ 2 + padding.length then none
    else some (block.drop (2 + padding.length + 1))
  else none

theorem removePadding_eq {padding : List UInt8} (hne : ∀ b ∈ padding, b ≠ 0)
    (hlen : 8 ≤ padding.length) (message : List UInt8) :
    removePadding ([0x00, 0x02] ++ padding ++ [0x00] ++ message) = some message := by
  have hblock : [0x00, 0x02] ++ padding ++ [0x00] ++ message =
      0x00 :: 0x02 :: (padding ++ 0x00 :: message) := by
    simp only [List.append_assoc, List.cons_append, List.nil_append]
  have hrun : (padding ++ 0x00 :: message).takeWhile (· ≠ 0) = padding := by
    rw [List.takeWhile_append_of_pos fun b hb => decide_eq_true (hne b hb), List.takeWhile_cons,
      if_neg (by decide), List.append_nil]
  have hfits : ¬ (padding.length < 8 ∨
      (0x00 :: 0x02 :: (padding ++ 0x00 :: message)).length ≤ 2 + padding.length) := by
    simp only [List.length_cons, List.length_append]
    omega
  have hdrop : (padding ++ 0x00 :: message).drop (padding.length + 1) = message := by
    rw [List.drop_append, List.drop_eq_nil_of_le (Nat.le_succ _), Nat.add_sub_cancel_left]
    rfl
  have htype : (0x00 :: 0x02 :: (padding ++ 0x00 :: message)).take 2 = [0x00, 0x02] := rfl
  have htail : (0x00 :: 0x02 :: (padding ++ 0x00 :: message)).drop 2 = padding ++ 0x00 :: message :=
    rfl
  rw [hblock, removePadding, if_pos htype, htail, hrun]
  dsimp only
  rw [if_neg hfits, Nat.add_assoc, ← List.drop_drop, htail, hdrop]

theorem paddedBlock_spec (t : ClockReading) {k : ℕ} (hmessage : message.length + 11 ≤ k) :
    (paddedBlock t k message).length = k ∧
      beValue (paddedBlock t k message) < 256 ^ (k - 1) ∧
      removePadding (paddedBlock t k message) = some message := by
  have hpad := length_paddingLoop (paddingSeed t) 0 (k - message.length - 3)
  have hlen : (paddedBlock t k message).length = k := by
    simp only [paddedBlock, List.length_append, List.length_cons, List.length_nil, hpad]
    omega
  refine ⟨hlen, ?_, ?_⟩
  · -- The first byte is zero, so the value is that of the other bytes.
    have hvalue : beValue (paddedBlock t k message) = beValue (paddedBlock t k message).tail := rfl
    have htail : (paddedBlock t k message).tail.length = k - 1 := by rw [List.length_tail, hlen]
    rw [hvalue, ← htail]
    exact beValue_lt _
  · exact removePadding_eq (paddingLoop_ne_zero _ _ _) (by omega) message

/-- What the holder of the private exponent `d` does with a block of the modulus length. -/
def rsaDecrypt (modulus : List UInt8) (d : ℕ) (c : List UInt8) : Option (List UInt8) :=
  removePadding (beFixed modulus.length (beValue c ^ d % beValue modulus))

theorem rsaEncryptPkcs1_decrypts {p q d : ℕ} (h : IsModulus modulus) (hp : p.Prime) (hq : q.Prime)
    (hpq : p ≠ q) (hn : beValue modulus = p * q)
    (hed : beValue exponent * d ≡ 1 [MOD Nat.lcm (p - 1) (q - 1)]) (hexp : exponent.length ≤ 512)
    (hmessage : message.length + 11 ≤ modulus.length) (t : ClockReading)
    (stale : ℕ → ℕ → Bignum) :
    ∃ c, rsaEncryptPkcs1 stale t modulus exponent message modulus.length = some c ∧
      rsaDecrypt modulus d c = some message := by
  obtain ⟨hlen, hlt, hunpad⟩ := paddedBlock_spec t hmessage
  have hbelow := hlt.trans_le h.pow_le
  have hone : 1 < beValue modulus :=
    (Nat.one_lt_pow (by omega) (by decide)).trans_le h.pow_le
  have hcap : ¬ modulus.length > 512 := Nat.not_lt.mpr h.length_le
  refine ⟨beFixed modulus.length
    (beValue (paddedBlock t modulus.length message) ^ beValue exponent % beValue modulus), ?_, ?_⟩
  · rw [rsaEncryptPkcs1, if_neg (by omega), if_neg hcap, h.bignumModexpBytes_eq hone hlen.le hexp]
  · have hsmall : ∀ x, x % beValue modulus < 256 ^ modulus.length := fun x =>
      (Nat.mod_lt x (by omega)).trans (beValue_lt modulus)
    have hpow := pow_mul_modEq_self (m := beValue (paddedBlock t modulus.length message)) hp hq hpq
      hed
    rw [← hn, Nat.ModEq, Nat.mod_eq_of_lt hbelow] at hpow
    rw [rsaDecrypt, beValue_beFixed, Nat.mod_eq_of_lt (hsmall _), ← Nat.pow_mod, ← Nat.pow_mul,
      hpow]
    nth_rewrite 1 [← hlen]
    rw [beFixed_beValue, hunpad]

/-- The product of 3 and the Mersenne number of 89, which are prime. -/
def smallModulus : List UInt8 :=
  [0x05, 0xff, 0xff, 0xff, 0xff, 0xff, 0xff, 0xff, 0xff, 0xff, 0xff, 0xfd]

theorem isModulus_smallModulus : IsModulus smallModulus :=
  ⟨show 12 ≤ 512 by decide, 0x05, _, rfl, by decide⟩

theorem prime_mersenne_89 : (mersenne 89).Prime :=
  lucas_lehmer_sufficiency 89 (by norm_num) (by norm_num)

theorem beValue_smallModulus : beValue smallModulus = 3 * mersenne 89 := by
  decide

theorem rsaEncryptPkcs1_decrypts_smallModulus :
    ∃ c, rsaEncryptPkcs1 (fun _ _ => bnZero) ⟨0, 23, 59, 30⟩ smallModulus [7] [0x61]
        smallModulus.length = some c ∧
      rsaDecrypt smallModulus 265272865561152916049812333 c = some [0x61] :=
  rsaEncryptPkcs1_decrypts isModulus_smallModulus Nat.prime_three prime_mersenne_89 (by decide)
    beValue_smallModulus (by decide) (by decide) (by decide) _ _

/-- The exponent 7 in 513 bytes: the key is valid, and the message is refused. -/
theorem longExponent_refused :
    (mersenne 89).Prime ∧ beValue smallModulus = 3 * mersenne 89 ∧
    beValue (List.replicate 512 0 ++ [7]) * 265272865561152916049812333 ≡ 1
      [MOD Nat.lcm (3 - 1) (mersenne 89 - 1)] ∧
    rsaEncryptPkcs1 (fun _ _ => bnZero) ⟨0, 0, 0, 0⟩ smallModulus (List.replicate 512 0 ++ [7])
      [0x61] smallModulus.length = none := by
  have hexp : 512 < (List.replicate 512 0 ++ [7] : List UInt8).length := by
    rw [List.length_append, List.length_replicate, List.length_singleton]
    decide
  refine ⟨prime_mersenne_89, beValue_smallModulus, by decide, ?_⟩
  rw [rsaEncryptPkcs1, if_neg (by decide), if_neg (by decide),
    bignumModexpBytes_of_longExponent _ _ _ _ hexp]

end Encryption

end AuroraOS.Crypto
