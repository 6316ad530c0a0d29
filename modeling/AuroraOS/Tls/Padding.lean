import AuroraOS.Tls.RoundTrip

/-!
# Which protected records are accepted

`tls_recv_record` cuts the plaintext with the help of its last byte and compares the MAC, but never
looks at the other bytes of the padding, which no MAC covers.

## Main definitions

- `MacPresent`, `receivedMac`, `expectedMac`, `UniformPadding` — what is, or is not, checked
- `ExactlyCarried` — the record is accepted if it carries a payload and refused if it does not

## Main results

- `tlsRecvRecord_exactly_iff`
-/

namespace AuroraOS.Tls

open AuroraOS.Net AuroraOS.Crypto

/-- `diff` is zero for equal MACs only. -/
theorem macDiff_eq_zero_iff {computed received : List UInt8}
    (h : computed.length = received.length) :
    macDiff computed received = 0 ↔ computed = received := by
  have hfold : ∀ (diffs : List UInt8) (diff : UInt8),
      diffs.foldl (· ||| ·) diff = 0 ↔ diff = 0 ∧ ∀ d ∈ diffs, d = 0 := by
    intro diffs
    induction diffs with
    | nil => simp
    | cons d diffs ih =>
      intro diff
      rw [List.foldl_cons, ih, UInt8.or_eq_zero_iff, List.forall_mem_cons, and_assoc]
  rw [macDiff, hfold, eq_self_iff_true, true_and]
  induction computed generalizing received with
  | nil =>
    rw [List.length_nil] at h
    rw [List.eq_nil_of_length_eq_zero h.symm]
    simp
  | cons c computed ih =>
    cases received with
    | nil => simp at h
    | cons r received =>
      rw [List.zipWith_cons_cons, List.forall_mem_cons, UInt8.xor_eq_zero_iff, List.cons.injEq]
      exact and_congr_right' (ih (Nat.succ.inj h))

section Plain

variable (writeKey : List UInt8) (r : Record)

/-- `decrypted`. -/
def decryptedRecord : List UInt8 :=
  aes128CbcDecrypt writeKey (r.fragment.take 16) (r.fragment.drop 16)

/-- `plaintext_len`. -/
def plaintextLen : ℕ := r.fragment.length - 16 - lastPlain writeKey r.fragment - 1 - 32

/-- There is room for the MAC before the padding. -/
def MacPresent : Prop := lastPlain writeKey r.fragment + 1 + 32 ≤ r.fragment.length - 16

instance : Decidable (MacPresent writeKey r) := inferInstanceAs (Decidable (_ ≤ _))

/-- `received_mac`. -/
def receivedMac : List UInt8 :=
  ((decryptedRecord writeKey r).drop (plaintextLen writeKey r)).take 32

/-- The MAC of what stands before it. -/
def expectedMac (macKey : List UInt8) (seqNum : UInt64) : List UInt8 :=
  hmac macKey (macInput seqNum r.contentType r.versionHi r.versionLo
    ((decryptedRecord writeKey r).take (plaintextLen writeKey r)))

/-- The bytes behind the MAC are as many as the last one says, and one more, and all equal. -/
def UniformPadding : Prop :=
  ∀ b ∈ (decryptedRecord writeKey r).drop (plaintextLen writeKey r + 32),
    b.toNat = lastPlain writeKey r.fragment

end Plain

/-- A record is accepted if the bytes it decrypts to are a payload, its MAC and padding, and refused
    otherwise. -/
def ExactlyCarried (tls : TlsConn) (r : Record) (result : RecvResult) : Prop :=
  ((∃ payload, Carries tls.serverMacKey tls.serverWriteKey true tls.readSeqNum r payload) →
    ∃ payload, result = .record r.contentType payload) ∧
  ((¬ ∃ payload, Carries tls.serverMacKey tls.serverWriteKey true tls.readSeqNum r payload) →
    result = .failed)

section Carried

variable {tls : TlsConn} {r : Record} {maxPayload : ℕ}

theorem length_decryptedRecord {writeKey : List UInt8} (hmod : (r.fragment.length - 16) % 16 = 0) :
    (decryptedRecord writeKey r).length = r.fragment.length - 16 := by
  rw [decryptedRecord, length_aes128CbcDecrypt _ _ (by rwa [List.length_drop]), List.length_drop]

/-- The parts of a record that carries a payload. -/
theorem Carries.parts {macKey writeKey : List UInt8} {seqNum : UInt64} {payload : List UInt8}
    (h : Carries macKey writeKey true seqNum r payload) :
    ∃ padLen : UInt8, lastPlain writeKey r.fragment = padLen.toNat ∧
      r.fragment.length - 16 = payload.length + 32 + (padLen.toNat + 1) ∧
      decryptedRecord writeKey r = payload ++
        hmac macKey (macInput seqNum r.contentType r.versionHi r.versionLo payload) ++
          List.replicate (padLen.toNat + 1) padLen := by
  obtain ⟨iv, ciphertext, padLen, hfrag, hiv, hmod, hplain⟩ := h
  have htake : r.fragment.take 16 = iv := by rw [hfrag, ← hiv, List.take_left]
  have hdrop : r.fragment.drop 16 = ciphertext := by rw [hfrag, ← hiv, List.drop_left]
  have hdec := @length_decryptedRecord r writeKey (by rwa [← List.length_drop, hdrop])
  rw [← htake, ← hdrop, ← decryptedRecord] at hplain
  have hlast : lastPlain writeKey r.fragment = padLen.toNat := by
    rw [lastPlain, ← decryptedRecord, ← hdec, hplain, List.replicate_succ', ← List.append_assoc,
      List.length_append, List.length_singleton, Nat.add_sub_cancel, List.getD_eq_getElem?_getD,
      List.getElem?_concat_length, Option.getD_some]
  refine ⟨padLen, hlast, ?_, hplain⟩
  rw [← hdec, hplain]
  simp only [List.length_append, length_hmac, List.length_replicate]

theorem Carries.plaintextLen {macKey writeKey : List UInt8} {seqNum : UInt64}
    {payload : List UInt8} (h : Carries macKey writeKey true seqNum r payload) :
    plaintextLen writeKey r = payload.length := by
  obtain ⟨padLen, hlast, hsize, -⟩ := h.parts
  rw [Tls.plaintextLen, hlast]
  omega

/-- A record carries a payload exactly when its MAC is right and its padding uniform. -/
theorem carries_iff {macKey writeKey : List UInt8} {seqNum : UInt64}
    (hlen : 16 < r.fragment.length) (hmod : (r.fragment.length - 16) % 16 = 0) :
    (∃ payload, Carries macKey writeKey true seqNum r payload) ↔
      MacPresent writeKey r ∧ receivedMac writeKey r = expectedMac writeKey r macKey seqNum ∧
        UniformPadding writeKey r := by
  have hdec := @length_decryptedRecord r writeKey hmod
  constructor
  · rintro ⟨payload, hcarry⟩
    obtain ⟨padLen, hlast, hsize, hplain⟩ := hcarry.parts
    have hplen := hcarry.plaintextLen
    generalize hmac_eq :
      hmac macKey (macInput seqNum r.contentType r.versionHi r.versionLo payload) =
      mac at hplain
    have hmac_len : mac.length = 32 := by rw [← hmac_eq, length_hmac]
    refine ⟨?_, ?_, ?_⟩
    · rw [MacPresent, hlast]
      omega
    · rw [receivedMac, expectedMac, hplen, hplain, List.append_assoc, List.drop_left,
        List.take_left, ← hmac_len, List.take_left, hmac_eq]
    · intro b hb
      rw [hplen, hplain, ← hmac_len, ← List.length_append, List.drop_left] at hb
      rw [hlast, List.eq_of_mem_replicate hb]
  · rintro ⟨hpresent, hmac, hpadding⟩
    rw [MacPresent] at hpresent
    have hplen : plaintextLen writeKey r + 32 + (lastPlain writeKey r.fragment + 1) =
        r.fragment.length - 16 := by
      rw [plaintextLen]
      omega
    have hfit : lastPlain writeKey r.fragment < 256 := UInt8.toNat_lt _
    -- what stands behind the MAC
    have hrest : (decryptedRecord writeKey r).drop (plaintextLen writeKey r + 32) =
        List.replicate (lastPlain writeKey r.fragment + 1)
          (UInt8.ofNat (lastPlain writeKey r.fragment)) := by
      refine List.eq_replicate_iff.mpr ⟨?_, fun b hb => ?_⟩
      · rw [List.length_drop, hdec]
        omega
      · rw [← hpadding b hb, UInt8.ofNat_toNat]
    refine ⟨(decryptedRecord writeKey r).take (plaintextLen writeKey r), r.fragment.take 16,
      r.fragment.drop 16, UInt8.ofNat (lastPlain writeKey r.fragment),
      (List.take_append_drop 16 _).symm, ?_, by rwa [List.length_drop], ?_⟩
    · rw [List.length_take]
      omega
    · rw [← decryptedRecord, ← expectedMac, ← hmac, UInt8.toNat_ofNat_of_lt' hfit, ← hrest,
        receivedMac, List.append_assoc, ← List.drop_drop, List.take_append_drop,
        List.take_append_drop]

/-- What `tls_recv_record` returns for a record of whole blocks. -/
theorem tlsOpenFragment_blocks (hlen : 16 < r.fragment.length)
    (hmod : (r.fragment.length - 16) % 16 = 0) :
    (tlsOpenFragment maxPayload r.contentType r.versionHi r.versionLo r.fragment tls).1 =
      if MacPresent tls.serverWriteKey r then
        if 13 + plaintextLen tls.serverWriteKey r ≤ innerDataSize then
          if receivedMac tls.serverWriteKey r =
              expectedMac tls.serverWriteKey r tls.serverMacKey tls.readSeqNum then
            if plaintextLen tls.serverWriteKey r ≤ maxPayload then
              .record r.contentType
                ((decryptedRecord tls.serverWriteKey r).take (plaintextLen tls.serverWriteKey r))
            else .failed
          else .failed
        else .overrun
      else .failed := by
  have hdec := @length_decryptedRecord r tls.serverWriteKey hmod
  rw [tlsOpenFragment, if_neg (by omega), if_neg (not_not_intro hmod)]
  simp only [← decryptedRecord.eq_1]
  simp only [show
    ((decryptedRecord tls.serverWriteKey r).getD (r.fragment.length - 16 - 1) 0).toNat =
    lastPlain tls.serverWriteKey r.fragment from rfl, ← plaintextLen.eq_1]
  by_cases hpresent : MacPresent tls.serverWriteKey r
  · have hroom := hpresent
    rw [MacPresent] at hroom
    have hplen : plaintextLen tls.serverWriteKey r + 32 ≤ r.fragment.length - 16 := by
      rw [plaintextLen]
      omega
    rw [if_neg (by omega), if_neg (by omega), if_pos hpresent, hmacSha256, length_macInput,
      List.length_take, hdec, Nat.min_eq_left (by omega)]
    by_cases hfits : 13 + plaintextLen tls.serverWriteKey r ≤ innerDataSize
    · rw [if_pos hfits, if_pos hfits]
      simp only [← expectedMac.eq_1, ← receivedMac.eq_1]
      have hmacs : (expectedMac tls.serverWriteKey r tls.serverMacKey tls.readSeqNum).length =
          (receivedMac tls.serverWriteKey r).length := by
        rw [expectedMac, length_hmac, receivedMac, List.length_take, List.length_drop, hdec]
        omega
      have hdiff := macDiff_eq_zero_iff hmacs
      by_cases hmac : receivedMac tls.serverWriteKey r =
          expectedMac tls.serverWriteKey r tls.serverMacKey tls.readSeqNum
      · rw [if_neg (not_not_intro (hdiff.mpr hmac.symm)), if_pos hmac]
        by_cases hmax : plaintextLen tls.serverWriteKey r ≤ maxPayload
        · rw [if_neg (Nat.not_lt_of_le hmax), if_pos hmax]
        · rw [if_pos (Nat.lt_of_not_le hmax), if_neg hmax]
      · rw [if_pos fun h => hmac (hdiff.mp h).symm, if_neg hmac]
    · rw [if_neg hfits, if_neg hfits]
  · rw [if_neg hpresent]
    rw [MacPresent] at hpresent
    by_cases hpad : lastPlain tls.serverWriteKey r.fragment + 1 > r.fragment.length - 16
    · rw [if_pos hpad]
    · rw [if_neg hpad, if_pos (by omega)]

/-- A protected record that the stream holds is opened at once. -/
theorem tlsRecvRecord_held {rest : List UInt8} {polls : List Poll}
    (hstream : tls.stream = r.encode ++ rest) :
    (tlsRecvRecord maxPayload true polls tls).1 =
      (tlsOpenFragment maxPayload r.contentType r.versionHi r.versionLo r.fragment tls).1 := by
  obtain ⟨hfrag, -, htype, hhi, hlo⟩ := stream_record hstream
  have hsize : 5 + r.fragment.length ≤ tls.stream.length := by
    rw [hstream, List.length_append, length_encode]
    omega
  rw [tlsRecvRecord, tlsStreamFill_of_le (show 5 ≤ tls.stream.length by omega)]
  simp only [be16_encode hstream]
  rw [tlsStreamFill_of_le hsize]
  simp only [tlsTakeRecord, if_true, hfrag, htype, hhi, hlo]

end Carried

/-- Records of whole blocks are accepted exactly when valid, except that the padding of a record
    with the right MAC has to be uniform, and that the payload has to fit the buffer for the MAC. -/
theorem tlsRecvRecord_exactly_iff {tls : TlsConn} {r : Record} {rest : List UInt8}
    {polls : List Poll} {maxPayload : ℕ} (hstream : tls.stream = r.encode ++ rest)
    (hlen : 16 < r.fragment.length) (hmod : (r.fragment.length - 16) % 16 = 0)
    (hmax : plaintextLen tls.serverWriteKey r ≤ maxPayload) :
    ExactlyCarried tls r (tlsRecvRecord maxPayload true polls tls).1 ↔
      (MacPresent tls.serverWriteKey r →
        13 + plaintextLen tls.serverWriteKey r ≤ innerDataSize ∧
        (receivedMac tls.serverWriteKey r =
            expectedMac tls.serverWriteKey r tls.serverMacKey tls.readSeqNum →
          UniformPadding tls.serverWriteKey r)) := by
  rw [tlsRecvRecord_held hstream, tlsOpenFragment_blocks hlen hmod, ExactlyCarried,
    carries_iff hlen hmod, if_pos hmax]
  by_cases hpresent : MacPresent tls.serverWriteKey r
  · rw [if_pos hpresent, imp_iff_right hpresent]
    by_cases hfits : 13 + plaintextLen tls.serverWriteKey r ≤ innerDataSize
    · rw [if_pos hfits]
      by_cases hmac : receivedMac tls.serverWriteKey r =
          expectedMac tls.serverWriteKey r tls.serverMacKey tls.readSeqNum
      · simp [hpresent, hfits, hmac]
      · simp [hfits, hmac]
    · rw [if_neg hfits]
      simp [hpresent, hfits]
  · simp [hpresent]

theorem tlsRecvRecord_exactly_letter :
    ExactlyCarried (exampleHolding [65] (by decide)) (sealedRecord 0 [65] (by decide))
      (tlsRecvRecord 1 true [] (exampleHolding [65] (by decide))).1 := by
  have hcarry := carries_sealedRecord 0 [65] (by decide)
  have hplen := hcarry.plaintextLen
  obtain ⟨padLen, -, hsize, -⟩ := hcarry.parts
  have hfrag :=
    length_protectedFragment ⟨exampleConn, [], [], 0, true⟩ tlsContentApplicationData [65]
    exampleEnv
  have hlen : (sealedRecord 0 [65] (by decide)).fragment.length = 64 := hfrag
  have hparts := (carries_iff (by rw [hlen]; decide) (by rw [hlen])).mp ⟨[65], hcarry⟩
  refine (tlsRecvRecord_exactly_iff rfl (by rw [hlen]; decide) (by rw [hlen]) ?_).mpr fun _ =>
    ⟨?_, ?_⟩
  · exact hplen.le
  · change 13 + plaintextLen [] _ ≤ _
    rw [hplen]
    decide
  · exact fun _ => hparts.2.2

/-- A client with keys of the right size, nothing received. -/
def keyedTls : TlsConn :=
  { exampleTls with serverMacKey := List.replicate 32 7, serverWriteKey := List.replicate 16 7 }

/-- The MAC of an empty payload, fifteen zeros and the byte that counts them. -/
def loosePlain : List UInt8 :=
  hmac keyedTls.serverMacKey (macInput 0 tlsContentApplicationData 3 3 []) ++
    List.replicate 15 0 ++ [15]

theorem length_loosePlain : loosePlain.length = 48 := by
  simp only [loosePlain, List.length_append, length_hmac, List.length_replicate,
    List.length_singleton]

/-- The record of this plaintext. -/
def looseRecord : Record where
  contentType := tlsContentApplicationData
  versionHi := 3
  versionLo := 3
  fragment := List.replicate 16 0 ++
    aes128CbcEncrypt keyedTls.serverWriteKey (List.replicate 16 0) loosePlain
  fragment_le := by
    rw [List.length_append, length_aes128CbcEncrypt _ _ (by rw [length_loosePlain]),
      length_loosePlain]
    decide

/-- A record whose padding bytes differ from their number is accepted. -/
theorem loose_padding_accepted :
    ¬ ∀ (tls : TlsConn) (r : Record) (rest : List UInt8) (polls : List Poll) (maxPayload : ℕ),
      tls.stream = r.encode ++ rest → 16 < r.fragment.length → (r.fragment.length - 16) % 16 = 0 →
      plaintextLen tls.serverWriteKey r ≤ maxPayload →
      ExactlyCarried tls r (tlsRecvRecord maxPayload true polls tls).1 := by
  intro h
  let tls : TlsConn := { keyedTls with stream := looseRecord.encode ++ [] }
  have hlen : looseRecord.fragment.length = 64 := by
    rw [looseRecord, List.length_append,
      length_aes128CbcEncrypt _ _ (by rw [length_loosePlain]), length_loosePlain]
    rfl
  have hiv : (List.replicate 16 0 : List UInt8).length = 16 := List.length_replicate
  have hdec : decryptedRecord keyedTls.serverWriteKey looseRecord = loosePlain := by
    have hfrag : looseRecord.fragment = List.replicate 16 0 ++
      aes128CbcEncrypt keyedTls.serverWriteKey (List.replicate 16 0) loosePlain := rfl
    rw [decryptedRecord, hfrag, List.take_left' hiv, List.drop_left' hiv,
      aes128CbcDecrypt_encrypt _ _ (by rw [length_loosePlain])]
  have hlast : lastPlain keyedTls.serverWriteKey looseRecord.fragment = 15 := by
    rw [lastPlain, ← decryptedRecord, hdec, hlen, List.getD_eq_getElem?_getD, loosePlain,
      List.getElem?_append_right (by simp), List.length_append, length_hmac]
    rfl
  have hplen : plaintextLen keyedTls.serverWriteKey looseRecord = 0 := by
    rw [plaintextLen, hlast, hlen]
  have hloose := h tls looseRecord [] [] 0 rfl (by rw [hlen]; decide) (by rw [hlen])
    (by rw [show tls.serverWriteKey = keyedTls.serverWriteKey from rfl, hplen])
  -- the padding is not uniform, so that the record would have to be refused
  have hrefused := hloose.2 fun hcarry => by
    obtain ⟨-, -, hpadding⟩ := (carries_iff (by rw [hlen]; decide) (by rw [hlen])).mp hcarry
    have hzero := hpadding 0 (by
      rw [show tls.serverWriteKey = keyedTls.serverWriteKey from rfl, hplen, hdec, loosePlain,
        List.append_assoc, List.drop_append_of_le_length (by rw [length_hmac])]
      simp)
    rw [show tls.serverWriteKey = keyedTls.serverWriteKey from rfl, hlast] at hzero
    exact absurd hzero (by decide)
  have hmac : receivedMac keyedTls.serverWriteKey looseRecord =
      expectedMac keyedTls.serverWriteKey looseRecord keyedTls.serverMacKey 0 := by
    rw [receivedMac, expectedMac, hplen, hdec, loosePlain, List.append_assoc, List.drop_zero,
      List.take_zero, List.take_append_of_le_length (by rw [length_hmac]),
      List.take_of_length_le (by rw [length_hmac])]
    rfl
  rw [tlsRecvRecord_held (show tls.stream = looseRecord.encode ++ [] from rfl),
    tlsOpenFragment_blocks (by rw [hlen]; decide) (by rw [hlen]), if_pos, if_pos, if_pos, if_pos]
    at hrefused
  · cases hrefused
  · exact hplen.le
  · exact hmac
  · change 13 + plaintextLen keyedTls.serverWriteKey looseRecord ≤ _
    rw [hplen]
    decide
  · change lastPlain keyedTls.serverWriteKey looseRecord.fragment + 1 + 32 ≤ _
    rewrite [hlast, hlen]
    decide

end AuroraOS.Tls
