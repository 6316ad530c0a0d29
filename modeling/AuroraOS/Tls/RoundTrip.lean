import AuroraOS.Tls.Clock
import AuroraOS.Tls.Send

/-!
# Protected records, from one end to the other

What `tls_send_record` emits is read back by `tls_recv_record`, and what `tls_recv_record` does with
its buffers for any record at all: the two buffers of its own have room for every record that the
stream buffer can hold, the one in `hmac_sha256` has not.

## Main definitions

- `Buffer`, `Access` — the parts of the buffers that are read or written
- `recvAccesses` — the accesses for the record at the front of the stream

## Main results

- `tlsRecvRecord_sendRecord_iff`
- `recvAccesses_inBounds_iff`
-/

namespace AuroraOS.Tls

open AuroraOS.Net AuroraOS.Crypto

theorem data_tcpSendSegment {conn : TcpConn} {flags : UInt8} {data : List UInt8} {nic : NicOutcome}
    {segment : WireSegment} (h : (tcpSendSegment conn flags data nic).2 = some segment) :
    segment.data = data := by
  simp only [tcpSendSegment] at h
  split at h
  · exact absurd h (by simp)
  · split at h
    · exact (congrArg WireSegment.data (Option.some.inj h)).symm
    · exact (congrArg WireSegment.data (Option.some.inj h)).symm
    · exact absurd h (by simp)

/-- What a call that returns true has sent. -/
theorem tlsSendRecord_sent {tls tls' : TlsSender} {contentType : UInt8} {payload : List UInt8}
    {env : SendEnv} {segment : WireSegment}
    (h : tlsSendRecord tls contentType payload true env = (true, some segment, tls')) :
    payload.length ≤ 1900 ∧ tls'.writeSeqNum = tls.writeSeqNum + 1 ∧
      segment.data = recordHeader contentType
        (protectedFragment tls contentType payload env).length ++
          protectedFragment tls contentType payload env := by
  rw [tlsSendRecord] at h
  split at h
  · exact absurd (congrArg Prod.fst h) Bool.false_ne_true
  · next hlen =>
    simp only [if_true, Prod.mk.injEq] at h
    obtain ⟨hok, hsegment, rfl⟩ := h
    rw [if_pos hok]
    exact ⟨Nat.not_lt.mp hlen, rfl, data_tcpSendSegment hsegment⟩

/-- A record that was sent is received: whatever the segments are in which it arrives within the
    timeout, the peer with the mirrored keys and number gets its type and payload, and both numbers
    advance by one, if and only if no deadline of the peer wraps around. -/
theorem tlsRecvRecord_sendRecord_iff {tls tls' : TlsSender} {contentType : UInt8}
    {payload : List UInt8} {env : SendEnv} {segment : WireSegment}
    (hsend : tlsSendRecord tls contentType payload true env = (true, some segment, tls'))
    {peer : TlsConn} (hstream : peer.stream = []) (hmacKey : peer.serverMacKey = tls.clientMacKey)
    (hwriteKey : peer.serverWriteKey = tls.clientWriteKey)
    (hseq : peer.readSeqNum = tls.writeSeqNum) {maxPayload : ℕ} (hmax : payload.length ≤ maxPayload)
    {arrivals : List Arrival} (hin : InOrder peer.tcp arrivals)
    (hbytes : bytes arrivals = segment.data)
    (hprompt : Prompt (clock (arrivals.map Arrival.poll)) arrivals) :
    (∃ rest peer', tlsRecvRecord maxPayload true (arrivals.map Arrival.poll) peer =
        (.record contentType payload, rest, peer') ∧
      tls'.writeSeqNum = tls.writeSeqNum + 1 ∧ peer'.readSeqNum = peer.readSeqNum + 1) ↔
      NoWrap segment.data.length 0 arrivals := by
  obtain ⟨hlen, hcount, hdata⟩ := tlsSendRecord_sent hsend
  have hfrag := length_protectedFragment tls contentType payload env
  let r : Record := ⟨contentType, tlsVersion.1, tlsVersion.2,
    protectedFragment tls contentType payload env, by
      rw [hfrag, tlsMaxRecordCiphertext]
      omega⟩
  have hrfrag : r.fragment.length = 16 + 16 * ((payload.length + 32) / 16 + 1) := hfrag
  have hcarry : Carries peer.serverMacKey peer.serverWriteKey true peer.readSeqNum r payload := by
    rw [hmacKey, hwriteKey, hseq]
    exact carries_protectedFragment tls contentType payload env rfl rfl rfl rfl
  have hrecord : segment.data = r.encode := hdata
  have htotal : bytes arrivals = encodeAll [r] := by
    rw [hbytes, hrecord, encodeAll_cons, encodeAll_nil, List.append_nil]
  have hroom : (bytes arrivals).length ≤ tlsStreamBufSize := by
    rw [hbytes, hrecord, length_encode, tlsStreamBufSize, tlsMaxRecordCiphertext]
    omega
  rw [hrecord]
  obtain ⟨hno, mid, rest, tls₁, hfilled, hrun⟩ | ⟨hno, hfail⟩ :=
    tlsRecvRecord_prompt maxPayload true hstream hin htotal hroom hprompt
  · refine iff_of_true ?_ hno
    have hstream₁ : peer.stream ++ bytes arrivals = encodeAll [r] := by
      rw [hstream, List.nil_append, htotal]
    obtain ⟨left, hleft, -, -, -⟩ := hfilled.leftover hstream₁
    rw [← hfilled.macKey, ← hfilled.writeKey, ← hfilled.seqNum] at hcarry
    have hfits : 13 + payload.length ≤ innerDataSize := by
      rw [innerDataSize]
      omega
    rw [tlsTakeRecord_protected hleft hcarry, if_pos hfits, if_pos hmax] at hrun
    exact ⟨_, _, hrun, hcount, congrArg (· + 1) hfilled.seqNum⟩
  · refine iff_of_false ?_ hno
    rintro ⟨rest, peer', hrun, -⟩
    rw [hrun] at hfail
    exact RecvResult.noConfusion hfail

theorem prompt_of_ticks {start : UInt32} {arrivals : List Arrival}
    (h : ∀ p ∈ arrivals, p.ticks = start) : Prompt start arrivals where
  ordered := List.pairwise_iff_forall_sublist.mpr fun {p q} hsub => by
    rw [h p (hsub.subset (by simp)), h q (hsub.subset (by simp))]
    exact UInt32.le_refl _
  within := fun p hp => by
    rw [h p hp, UInt32.sub_self]
    decide

/-- What the example session sends for one letter. -/
def letterSegment : WireSegment :=
  ⟨exampleConn.localSeq, exampleConn.remoteSeq, tcpFlagPsh ||| tcpFlagAck,
    shortCall.record exampleSession.sender⟩

theorem tlsSendRecord_letter :
    tlsSendRecord exampleSession.sender tlsContentApplicationData [65] true exampleEnv =
      (true, some letterSegment,
        TlsSender.advance { exampleSession.sender with writeSeqNum := 0 + 1 }
        letterSegment.data.length) := by
  have hcall := tlsSendRecord_call (c := shortCall) exampleSession.sender (by decide)
  rwa [show shortCall.outcome = .sent from by decide] at hcall

theorem length_letterSegment : letterSegment.data.length = 69 :=
  shortCall.length_record exampleSession.sender

/-- The record arrives in two segments while the clock stands at zero. -/
theorem tlsRecvRecord_sendRecord_iff_letter :
    ∃ tls', tlsSendRecord exampleSession.sender tlsContentApplicationData [65] true exampleEnv =
        (true, some letterSegment, tls') ∧
      ∃ rest peer', tlsRecvRecord 1 true ((deliver exampleConn
          [letterSegment.data.take 7, letterSegment.data.drop 7]).map Arrival.poll) exampleTls =
          (.record tlsContentApplicationData [65], rest, peer') ∧
        tls'.writeSeqNum = exampleSession.sender.writeSeqNum + 1 ∧
        peer'.readSeqNum = exampleTls.readSeqNum + 1 := by
  have hlen := length_letterSegment
  have hin : InOrder exampleConn
      (deliver exampleConn [letterSegment.data.take 7, letterSegment.data.drop 7]) := by
    refine inOrder_deliver (by decide) ?_
    simp only [List.forall_mem_cons, ← List.length_pos_iff, List.length_take,
      List.length_drop, hlen]
    exact ⟨by decide, by decide, fun _ h => absurd h List.not_mem_nil⟩
  refine ⟨_, tlsSendRecord_letter,
    (tlsRecvRecord_sendRecord_iff tlsSendRecord_letter rfl rfl rfl rfl
    (by decide) hin ?_ (prompt_of_ticks ticks_deliver)).mpr ?_⟩
  · rw [bytes_deliver, List.flatten_cons, List.flatten_singleton, List.take_append_drop]
  · intro pre p post hsplit _ _
    rw [ticks_deliver p (by rw [hsplit]; simp)]
    decide

/-- One tick before the clock wraps around the peer does not look at a record that has arrived. -/
theorem tlsRecvRecord_sendRecord_wrapped :
    ¬ ∀ (tls tls' : TlsSender) (contentType : UInt8) (payload : List UInt8) (env : SendEnv)
      (segment : WireSegment) (peer : TlsConn) (maxPayload : ℕ) (arrivals : List Arrival),
      tlsSendRecord tls contentType payload true env = (true, some segment, tls') →
      peer.stream = [] → peer.serverMacKey = tls.clientMacKey →
      peer.serverWriteKey = tls.clientWriteKey → peer.readSeqNum = tls.writeSeqNum →
      payload.length ≤ maxPayload → InOrder peer.tcp arrivals → bytes arrivals = segment.data →
      (∀ p ∈ arrivals, p.ticks = clock (arrivals.map Arrival.poll)) →
      ∃ rest peer', tlsRecvRecord maxPayload true (arrivals.map Arrival.poll) peer =
          (.record contentType payload, rest, peer') ∧
        tls'.writeSeqNum = tls.writeSeqNum + 1 ∧ peer'.readSeqNum = peer.readSeqNum + 1 := by
  intro hall
  let a : Arrival := ⟨4294967295, segmentFrame exampleConn exampleConn.remoteSeq 0x18
    letterSegment.data, letterSegment.data⟩
  have hlen := length_letterSegment
  have hseg := @isSegment_segmentFrame exampleConn (by decide) exampleConn.remoteSeq 0x18
    letterSegment.data (by rw [hlen]; decide)
  have hin : InOrder exampleConn [a] := by
    refine ⟨.inr ⟨fun hnil => ?_, ?_, 0x18, hseg⟩, trivial⟩
    · rw [show a.data = letterSegment.data from rfl] at hnil
      rw [hnil] at hlen
      exact absurd hlen (by decide)
    · exact hlen.trans_le (by decide)
  have hbytes : bytes [a] = letterSegment.data := by
    rw [bytes_cons, bytes_nil, List.append_nil]
  have hticks : ∀ p ∈ [a], p.ticks = clock ([a].map Arrival.poll) :=
    List.forall_mem_singleton.mpr rfl
  have hrun :=
    hall _ _ _ _ _ _ exampleTls 1 [a] tlsSendRecord_letter rfl rfl rfl rfl (by decide) hin
    hbytes hticks
  rw [tlsRecvRecord_sendRecord_iff tlsSendRecord_letter rfl rfl rfl rfl (by decide) hin hbytes
    (prompt_of_ticks hticks), hlen] at hrun
  exact absurd (hrun [] a [] rfl (by simp) (by simp)) (by decide)

theorem sealedFragment_le (seqNum : UInt64) (payload : List UInt8) (h : payload.length ≤ 2 ^ 14) :
    (protectedFragment ⟨exampleConn, [], [], seqNum, true⟩ tlsContentApplicationData payload
      exampleEnv).length ≤ tlsMaxRecordCiphertext := by
  rw [length_protectedFragment, tlsMaxRecordCiphertext]
  omega

/-- The record of a payload, from a server whose keys are empty. -/
def sealedRecord (seqNum : UInt64) (payload : List UInt8) (h : payload.length ≤ 2 ^ 14) :
    Record where
  contentType := tlsContentApplicationData
  versionHi := tlsVersion.1
  versionLo := tlsVersion.2
  fragment :=
    protectedFragment ⟨exampleConn, [], [], seqNum, true⟩ tlsContentApplicationData payload
    exampleEnv
  fragment_le := sealedFragment_le seqNum payload h

theorem carries_sealedRecord (seqNum : UInt64) (payload : List UInt8)
    (h : payload.length ≤ 2 ^ 14) :
    Carries [] [] true seqNum (sealedRecord seqNum payload h) payload :=
  carries_protectedFragment ⟨exampleConn, [], [], seqNum, true⟩ _ payload exampleEnv rfl rfl rfl rfl

theorem length_sealedRecord (seqNum : UInt64) (payload : List UInt8) (h : payload.length ≤ 2 ^ 14) :
    (sealedRecord seqNum payload h).encode.length =
      21 + 16 * ((payload.length + 32) / 16 + 1) := by
  have hlen : (sealedRecord seqNum payload h).fragment.length =
      16 + 16 * ((payload.length + 32) / 16 + 1) := length_protectedFragment _ _ _ _
  rw [length_encode, hlen]
  omega

/-! ### The buffers of the receiving side -/

/-- The buffers that a protected record goes through. -/
inductive Buffer where
  /-- `decrypted` of `tls_recv_record` -/
  | decrypted
  /-- `mac_input` of `tls_recv_record` -/
  | macInput
  /-- `inner_buf` of `hmac_sha256` -/
  | innerBuf

/-- The sizes with which they are declared. -/
def Buffer.size : Buffer → ℕ
  | .decrypted => tlsMaxRecordCiphertext
  | .macInput => 8 + 5 + tlsMaxRecordCiphertext
  | .innerBuf => sha256BlockSize + innerDataSize

/-- A range of bytes that is read or written. -/
structure Access where
  buffer : Buffer
  offset : ℕ
  len : ℕ

/-- The range lies in the buffer. -/
def Access.InBounds (a : Access) : Prop := a.offset + a.len ≤ a.buffer.size

/-- `pad_len` of `tls_recv_record`: the last byte that a fragment decrypts to. -/
def lastPlain (writeKey fragment : List UInt8) : ℕ :=
  ((aes128CbcDecrypt writeKey (fragment.take 16) (fragment.drop 16)).getD (fragment.length - 16 - 1)
    0).toNat

/-- The accesses of `hmac_sha256` to `inner_buf`, for data of this length. -/
def hmacAccesses (dataLen : ℕ) : List Access :=
  [⟨.innerBuf, 0, sha256BlockSize⟩, ⟨.innerBuf, sha256BlockSize, dataLen⟩,
    ⟨.innerBuf, 0, sha256BlockSize + dataLen⟩]

/-- The accesses of `tls_recv_record` for a protected fragment, in its order. -/
def openAccesses (writeKey fragment : List UInt8) : List Access :=
  if fragment.length < 16 + 16 then []
  else if (fragment.length - 16) % 16 ≠ 0 then []
  else
    let ciphertextLen := fragment.length - 16
    let padLen := lastPlain writeKey fragment
    [⟨.decrypted, 0, ciphertextLen⟩, ⟨.decrypted, ciphertextLen - 1, 1⟩] ++
      if padLen + 1 > ciphertextLen then []
      else
        let unpaddedLen := ciphertextLen - padLen - 1
        if unpaddedLen < 32 then []
        else
          let plaintextLen := unpaddedLen - 32
          [⟨.macInput, 0, 8⟩, ⟨.macInput, 8, 5⟩, ⟨.decrypted, 0, plaintextLen⟩,
              ⟨.macInput, 13, plaintextLen⟩, ⟨.macInput, 0, 13 + plaintextLen⟩] ++
            hmacAccesses (13 + plaintextLen) ++ [⟨.decrypted, plaintextLen, 32⟩]

/-- The accesses for the record at the front of the stream. -/
def recvAccesses (tls : TlsConn) : List Access :=
  openAccesses tls.serverWriteKey ((tls.stream.drop 5).take (be16 tls.stream 3))

/-- A record has been admitted: the stream buffer holds it completely. -/
structure Admitted (tls : TlsConn) : Prop where
  held : tls.stream.length ≤ tlsStreamBufSize
  complete : 5 + be16 tls.stream 3 ≤ tls.stream.length

/-- All accesses for a fragment are in bounds unless what it protects is too much for
    `inner_buf`. -/
theorem openAccesses_inBounds_iff (writeKey : List UInt8) {fragment : List UInt8}
    (hlen : fragment.length ≤ tlsMaxRecordCiphertext) :
    (∀ a ∈ openAccesses writeKey fragment, a.InBounds) ↔
      ((fragment.length - 16) % 16 = 0 →
        fragment.length ≤ 16420 + lastPlain writeKey fragment) := by
  have hmax : tlsMaxRecordCiphertext = 16448 := rfl
  have hblock : sha256BlockSize = 64 := rfl
  have hinner : innerDataSize = 16384 := rfl
  rw [openAccesses]
  generalize lastPlain writeKey fragment = pad
  by_cases hshort : fragment.length < 16 + 16
  · rw [if_pos hshort]
    exact iff_of_true (by simp) fun _ => by omega
  · rw [if_neg hshort]
    by_cases hmod : (fragment.length - 16) % 16 = 0
    · have hdecrypt : ∀ a ∈ [⟨.decrypted, 0, fragment.length - 16⟩,
          (⟨.decrypted, fragment.length - 16 - 1, 1⟩ : Access)], a.InBounds := by
        simp only [List.forall_mem_cons, Access.InBounds, Buffer.size]
        exact ⟨by omega, by omega, by simp⟩
      rw [if_neg (not_not_intro hmod), List.forall_mem_append, and_iff_right hdecrypt,
        imp_iff_right hmod]
      by_cases hpad : pad + 1 > fragment.length - 16
      · rw [if_pos hpad]
        exact iff_of_true (by simp) (by omega)
      · rw [if_neg hpad]
        by_cases hmac : fragment.length - 16 - pad - 1 < 32
        · rw [if_pos hmac]
          exact iff_of_true (by simp) (by omega)
        · rw [if_neg hmac]
          simp only [hmacAccesses, List.cons_append, List.nil_append, List.forall_mem_cons,
            Access.InBounds, Buffer.size]
          constructor
          · rintro ⟨-, -, -, -, -, -, hinnerBuf, -⟩
            omega
          · intro hfits
            refine ⟨by omega, by omega, by omega, by omega, by omega, by omega, by omega, by omega,
              by omega, by simp⟩
    · rw [if_pos hmod]
      exact iff_of_true (by simp) fun h => absurd h hmod

/-- The model of the code gives up where an access is out of bounds, and nowhere else. -/
theorem tlsOpenFragment_overrun_iff (maxPayload : ℕ) (contentType versionHi versionLo : UInt8)
    {fragment : List UInt8} (hlen : fragment.length ≤ tlsMaxRecordCiphertext) (tls : TlsConn) :
    (tlsOpenFragment maxPayload contentType versionHi versionLo fragment tls).1 = .overrun ↔
      ¬ ∀ a ∈ openAccesses tls.serverWriteKey fragment, a.InBounds := by
  have hinner : innerDataSize = 16384 := rfl
  have hcipher : tlsMaxRecordCiphertext = 16448 := rfl
  rw [openAccesses_inBounds_iff _ hlen, tlsOpenFragment]
  by_cases hshort : fragment.length < 16 + 16
  · rw [if_pos hshort]
    exact iff_of_false (by simp) (not_not_intro fun _ => by omega)
  · rw [if_neg hshort]
    by_cases hmod : (fragment.length - 16) % 16 = 0
    · have hdecLen := length_aes128CbcDecrypt tls.serverWriteKey (fragment.take 16)
        (show (fragment.drop 16).length % 16 = 0 by rwa [List.length_drop])
      rw [List.length_drop] at hdecLen
      rw [if_neg (not_not_intro hmod), imp_iff_right hmod, lastPlain]
      generalize aes128CbcDecrypt tls.serverWriteKey (fragment.take 16) (fragment.drop 16) =
        decrypted at hdecLen
      dsimp only
      generalize (decrypted.getD (fragment.length - 16 - 1) 0).toNat = pad
      by_cases hpad : pad + 1 > fragment.length - 16
      · rw [if_pos hpad]
        exact iff_of_false (by simp) (by omega)
      · rw [if_neg hpad]
        by_cases hmac : fragment.length - 16 - pad - 1 < 32
        · rw [if_pos hmac]
          exact iff_of_false (by simp) (by omega)
        · rw [if_neg hmac]
          simp only [hmacSha256, length_macInput, List.length_take, hdecLen]
          by_cases hfits : 13 + min (fragment.length - 16 - pad - 1 - 32) (fragment.length - 16) ≤
              innerDataSize
          · rw [if_pos hfits]
            refine iff_of_false ?_ (by omega)
            dsimp only
            split
            · simp
            · split <;> simp
          · rw [if_neg hfits]
            exact iff_of_true rfl (by omega)
    · rw [if_pos hmod]
      exact iff_of_false (by simp) (not_not_intro fun h => absurd h hmod)

section admitted

variable {tls : TlsConn}

theorem Admitted.length_fragment (h : Admitted tls) :
    ((tls.stream.drop 5).take (be16 tls.stream 3)).length = be16 tls.stream 3 := by
  have hcomplete := h.complete
  rw [List.length_take, List.length_drop]
  omega

theorem Admitted.fragment_le (h : Admitted tls) :
    ((tls.stream.drop 5).take (be16 tls.stream 3)).length ≤ tlsMaxRecordCiphertext := by
  have hcomplete := h.complete
  have hheld := h.held
  rw [tlsStreamBufSize] at hheld
  rw [h.length_fragment]
  omega

theorem tlsTakeRecord_overrun_iff (h : Admitted tls) (maxPayload : ℕ) :
    (tlsTakeRecord maxPayload true (be16 tls.stream 3) tls).1 = .overrun ↔
      ¬ ∀ a ∈ recvAccesses tls, a.InBounds :=
  tlsOpenFragment_overrun_iff maxPayload _ _ _ h.fragment_le tls

/-- The buffers have room for an admitted record exactly when its ciphertext is not made of whole
    blocks, or its declared length is at most 16420 and the byte that says how much padding it
    has. -/
theorem recvAccesses_inBounds_iff (h : Admitted tls) :
    (∀ a ∈ recvAccesses tls, a.InBounds) ↔
      ((be16 tls.stream 3 - 16) % 16 = 0 → be16 tls.stream 3 ≤ 16420 +
        lastPlain tls.serverWriteKey ((tls.stream.drop 5).take (be16 tls.stream 3))) := by
  have hiff := openAccesses_inBounds_iff tls.serverWriteKey h.fragment_le
  rwa [h.length_fragment] at hiff

theorem be16_encode {r : Record} {rest : List UInt8} (hstream : tls.stream = r.encode ++ rest) :
    be16 tls.stream 3 = r.fragment.length := by
  have hle := r.fragment_le
  rw [tlsMaxRecordCiphertext] at hle
  rw [hstream, be16]
  simp only [Record.encode, byteAt, List.cons_append, List.getD_cons_succ, List.getD_cons_zero,
    UInt8.toNat_ofNat']
  omega

theorem admitted_encode {r : Record} {rest : List UInt8} (hstream : tls.stream = r.encode ++ rest)
    (hheld : tls.stream.length ≤ tlsStreamBufSize) : Admitted tls := by
  refine ⟨hheld, ?_⟩
  rw [be16_encode hstream, hstream, List.length_append, length_encode]
  omega

/-- For a record that carries a payload it is the payload that has to be small enough. -/
theorem recvAccesses_of_carries {r : Record} {payload rest : List UInt8}
    (hstream : tls.stream = r.encode ++ rest) (hheld : tls.stream.length ≤ tlsStreamBufSize)
    (hcarry : Carries tls.serverMacKey tls.serverWriteKey true tls.readSeqNum r payload) :
    (∀ a ∈ recvAccesses tls, a.InBounds) ↔ 13 + payload.length ≤ innerDataSize := by
  have hiff := tlsTakeRecord_overrun_iff (admitted_encode hstream hheld) payload.length
  rw [be16_encode hstream, tlsTakeRecord_protected hstream hcarry] at hiff
  rw [← not_iff_not, ← hiff]
  by_cases hfits : 13 + payload.length ≤ innerDataSize
  · rw [if_pos hfits]
    exact iff_of_false (by simp) (not_not_intro hfits)
  · rw [if_neg hfits]
    exact iff_of_true rfl hfits

end admitted

/-- A client that holds the record of a payload. -/
def exampleHolding (payload : List UInt8) (h : payload.length ≤ 2 ^ 14) : TlsConn :=
  { exampleTls with stream := (sealedRecord 0 payload h).encode ++ [] }

theorem recvAccesses_inBounds_letter : Admitted (exampleHolding [65] (by decide)) ∧
    ∀ a ∈ recvAccesses (exampleHolding [65] (by decide)), a.InBounds := by
  have hlen := length_sealedRecord 0 [65] (by decide)
  have hstream : (exampleHolding [65] (by decide)).stream =
      (sealedRecord 0 [65] (by decide)).encode ++ [] := rfl
  have hheld : (exampleHolding [65] (by decide)).stream.length ≤ tlsStreamBufSize := by
    rw [hstream, List.append_nil, hlen]
    decide
  have hadmitted := admitted_encode hstream hheld
  refine ⟨hadmitted, (recvAccesses_inBounds_iff hadmitted).mpr fun _ => ?_⟩
  rw [be16_encode hstream]
  have hfrag := length_encode (sealedRecord 0 [65] (by decide))
  rw [hlen] at hfrag
  have hsize : ([65] : List UInt8).length = 1 := rfl
  omega

/-- A legal record with 16384 bytes of payload is admitted and does not fit. -/
theorem maximal_record_overruns :
    ¬ ∀ tls : TlsConn, Admitted tls → ∀ a ∈ recvAccesses tls, a.InBounds := by
  intro hall
  have hsize : (List.replicate (2 ^ 14) 65 : List UInt8).length ≤ 2 ^ 14 := by
    rw [List.length_replicate]
  have hstream : (exampleHolding (List.replicate (2 ^ 14) 65) hsize).stream =
      (sealedRecord 0 (List.replicate (2 ^ 14) 65) hsize).encode ++ [] := rfl
  have hheld : (exampleHolding (List.replicate (2 ^ 14) 65) hsize).stream.length ≤
      tlsStreamBufSize := by
    rw [hstream, List.append_nil, length_sealedRecord, List.length_replicate]
    decide
  have hfits := (recvAccesses_of_carries hstream hheld (carries_sealedRecord 0 _ hsize)).mp
    (hall _ (admitted_encode hstream hheld))
  rw [List.length_replicate] at hfits
  exact absurd hfits (by decide)

end AuroraOS.Tls
