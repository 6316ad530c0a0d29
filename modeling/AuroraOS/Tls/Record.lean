import AuroraOS.Net.Tcp
import AuroraOS.Crypto.Sha256
import AuroraOS.Crypto.Aes

/-!
# The receiving side of the TLS record layer

`tls_stream_fill`, `tls_stream_consume` and `tls_recv_record` of `kernel/tls.c`. Segments are
appended to a stream buffer that has room for one record of maximal size; a record is taken from
its front once it is complete.

## Main definitions

- `TlsConn`, `tlsStreamFill`, `tlsRecvRecord`
- `Record`, `Record.encode` — a record on the wire
- `Carries` — the payload that a record protects
-/

namespace AuroraOS.Tls

open AuroraOS.Net AuroraOS.Crypto

/-- `TLS_RECV_TIMEOUT_TICKS`. -/
def tlsRecvTimeoutTicks : UInt32 := 500

/-- `TLS_MAX_RECORD_CIPHERTEXT`: payload, IV, MAC and padding. -/
def tlsMaxRecordCiphertext : ℕ := 16384 + 16 + 32 + 16

/-- `TLS_STREAM_BUF_SIZE`. -/
def tlsStreamBufSize : ℕ := 5 + tlsMaxRecordCiphertext

/-- The fields of `struct tls_conn` that are read when receiving, with the static buffers. -/
structure TlsConn where
  tcp : TcpConn
  serverMacKey : List UInt8
  serverWriteKey : List UInt8
  readSeqNum : UInt64
  /-- the filled part of the static `struct tls_stream` -/
  stream : List UInt8
  /-- the receive buffer of `tcp_wait_segment` -/
  rxBuf : List UInt8

/-- A segment has arrived: it is acknowledged before it is looked at. -/
def TlsConn.acknowledge (tls : TlsConn) (seg : Segment) (rxBuf : List UInt8) : TlsConn :=
  { tls with rxBuf := rxBuf, tcp := tls.tcp.advance seg.data.length }

/-- The segment buffer of `tls_stream_fill` has 1600 bytes. -/
def segSize : ℕ := 1600

theorem length_tcpWaitSegment {conn : TcpConn} {maxData : ℕ} {deadline : UInt32}
    {polls : List Poll} {rxBuf : List UInt8} :
    (tcpWaitSegment conn maxData deadline polls rxBuf).2.1.length ≤ polls.length := by
  induction polls generalizing rxBuf with
  | nil => exact Nat.le_refl _
  | cons p ps ih =>
    rw [tcpWaitSegment]
    split
    · split
      · exact Nat.le_succ _
      · exact Nat.le_succ_of_le ih
    · exact Nat.le_refl _

/-- The first poll is taken if the clock allows it. -/
theorem length_lt_of_tcpWaitSegment {conn : TcpConn} {maxData : ℕ} {deadline : UInt32} {p : Poll}
    {ps : List Poll} {rxBuf : List UInt8} {r : Option Segment × List Poll × List UInt8}
    (h : tcpWaitSegment conn maxData deadline (p :: ps) rxBuf = r) (hlt : p.ticks < deadline) :
    r.2.1.length < (p :: ps).length := by
  rw [tcpWaitSegment, if_pos hlt] at h
  rw [← h]
  split
  · exact Nat.lt_succ_self _
  · exact Nat.lt_succ_of_le length_tcpWaitSegment

set_option maxRecDepth 1024 in
/-- `tls_stream_fill`: whether `need` bytes are there, with what is left of the polls. When the
    polls end, so does the time. -/
def tlsStreamFill (need : ℕ) (deadline : UInt32) (polls : List Poll) (tls : TlsConn) :
    Bool × List Poll × TlsConn :=
  if need ≤ tls.stream.length then (true, polls, tls)
  else
    match polls with
    | [] => (false, [], tls)
    | p :: ps =>
      if deadline ≤ p.ticks then (false, p :: ps, tls)
      -- the deadline of `tcp_wait_segment` wraps around: it returns without a poll
      else if _hwrap : p.ticks + tcpTimeoutTicks ≤ p.ticks then tlsStreamFill need deadline ps tls
      else
        match _h : tcpWaitSegment tls.tcp segSize (p.ticks + tcpTimeoutTicks) (p :: ps) tls.rxBuf
        with
        | (none, rest, rxBuf) => tlsStreamFill need deadline rest { tls with rxBuf := rxBuf }
        | (some seg, rest, rxBuf) =>
          let tls := tls.acknowledge seg rxBuf
          if seg.data.length = 0 then tlsStreamFill need deadline rest tls
          else if tls.stream.length + seg.data.length > tlsStreamBufSize then (false, rest, tls)
          else tlsStreamFill need deadline rest { tls with stream := tls.stream ++ seg.data }
termination_by polls.length
decreasing_by
  · exact Nat.lt_succ_self _
  all_goals exact length_lt_of_tcpWaitSegment _h (UInt32.not_le.mp _hwrap)

theorem tlsStreamFill_of_le {need : ℕ} {tls : TlsConn} (h : need ≤ tls.stream.length)
    (deadline : UInt32) (polls : List Poll) :
    tlsStreamFill need deadline polls tls = (true, polls, tls) := by
  rw [tlsStreamFill.eq_def, if_pos h]

/-- One turn of the loop of `tls_stream_fill`. -/
theorem tlsStreamFill_cons {need : ℕ} {deadline : UInt32} {p : Poll} {ps rest : List Poll}
    {tls : TlsConn} {r : Option Segment} {rxBuf : List UInt8} (hneed : ¬ need ≤ tls.stream.length)
    (hticks : ¬ deadline ≤ p.ticks) (hwrap : ¬ p.ticks + tcpTimeoutTicks ≤ p.ticks)
    (hwait : tcpWaitSegment tls.tcp segSize (p.ticks + tcpTimeoutTicks) (p :: ps) tls.rxBuf =
      (r, rest, rxBuf)) :
    tlsStreamFill need deadline (p :: ps) tls =
      match r with
      | none => tlsStreamFill need deadline rest { tls with rxBuf := rxBuf }
      | some seg =>
        if seg.data.length = 0 then tlsStreamFill need deadline rest (tls.acknowledge seg rxBuf)
        else if tls.stream.length + seg.data.length > tlsStreamBufSize then
          (false, rest, tls.acknowledge seg rxBuf)
        else tlsStreamFill need deadline rest
          { tls.acknowledge seg rxBuf with stream := tls.stream ++ seg.data } := by
  rw [tlsStreamFill.eq_def, if_neg hneed]
  simp only [if_neg hticks, dif_neg hwrap]
  split
  · next h =>
    obtain ⟨rfl, rfl, rfl⟩ : r = none ∧ rest = _ ∧ rxBuf = _ := by simpa [hwait] using h
    rfl
  · next h =>
    obtain ⟨rfl, rfl, rfl⟩ : r = some _ ∧ rest = _ ∧ rxBuf = _ := by simpa [hwait] using h
    rfl

/-- A turn of the loop that receives a segment with data. -/
theorem tlsStreamFill_of_segment {need : ℕ} {deadline : UInt32} {p : Poll} {ps rest : List Poll}
    {tls : TlsConn} {seg : Segment} {rxBuf : List UInt8} (hneed : tls.stream.length < need)
    (hticks : p.ticks < deadline) (hwrap : p.ticks < p.ticks + tcpTimeoutTicks)
    (hwait : tcpWaitSegment tls.tcp segSize (p.ticks + tcpTimeoutTicks) (p :: ps) tls.rxBuf =
      (some seg, rest, rxBuf)) (hdata : seg.data ≠ []) :
    tlsStreamFill need deadline (p :: ps) tls =
      if tls.stream.length + seg.data.length ≤ tlsStreamBufSize then
        tlsStreamFill need deadline rest
          { tls.acknowledge seg rxBuf with stream := tls.stream ++ seg.data }
      else (false, rest, tls.acknowledge seg rxBuf) := by
  have hlen : seg.data.length ≠ 0 := fun h => hdata (List.length_eq_zero_iff.mp h)
  rw [tlsStreamFill_cons (Nat.not_le_of_lt hneed) (UInt32.not_le.mpr hticks)
    (UInt32.not_le.mpr hwrap) hwait]
  by_cases hfit : tls.stream.length + seg.data.length ≤ tlsStreamBufSize
  · simp only [if_neg hlen, if_neg (Nat.not_lt_of_le hfit), if_pos hfit]
  · simp only [if_neg hlen, if_pos (Nat.lt_of_not_le hfit), if_neg hfit]

/-- A deadline that wraps around: the poll is not made. -/
theorem tlsStreamFill_of_wrap {need : ℕ} {deadline : UInt32} {p : Poll} {ps : List Poll}
    {tls : TlsConn} (hneed : ¬ need ≤ tls.stream.length) (hticks : ¬ deadline ≤ p.ticks)
    (hwrap : p.ticks + tcpTimeoutTicks ≤ p.ticks) :
    tlsStreamFill need deadline (p :: ps) tls = tlsStreamFill need deadline ps tls := by
  rw [tlsStreamFill.eq_def, if_neg hneed]
  simp only [if_neg hticks, dif_pos hwrap]

theorem tlsStreamFill_late {need : ℕ} {deadline : UInt32} {p : Poll} {ps : List Poll}
    {tls : TlsConn} (hneed : ¬ need ≤ tls.stream.length) (hticks : deadline ≤ p.ticks) :
    tlsStreamFill need deadline (p :: ps) tls = (false, p :: ps, tls) := by
  rw [tlsStreamFill.eq_def, if_neg hneed]
  simp only [if_pos hticks]

/-- A fill for more bytes is a fill for fewer and then one for the rest. -/
theorem tlsStreamFill_trans {n need : ℕ} (hle : n ≤ need) (deadline : UInt32) (polls : List Poll)
    (tls : TlsConn) :
    tlsStreamFill need deadline polls tls =
      match tlsStreamFill n deadline polls tls with
      | (true, polls, tls) => tlsStreamFill need deadline polls tls
      | (false, polls, tls) => (false, polls, tls) := by
  fun_induction tlsStreamFill n deadline polls tls with
  | case1 => rfl
  | case2 tls hn => rw [tlsStreamFill.eq_def, if_neg (fun h => hn (hle.trans h))]
  | case3 tls hn p ps hticks => rw [tlsStreamFill_late (fun h => hn (hle.trans h)) hticks]
  | case4 tls hn p ps hticks hwrap ih =>
    rw [tlsStreamFill_of_wrap (fun h => hn (hle.trans h)) hticks hwrap]
    exact ih
  | case5 tls hn p ps hticks hwrap rest rxBuf hwait ih =>
    rw [tlsStreamFill_cons (fun h => hn (hle.trans h)) hticks hwrap hwait]
    exact ih
  | case6 tls hn p ps hticks hwrap seg rest rxBuf hwait tls' hempty ih =>
    rw [tlsStreamFill_cons (fun h => hn (hle.trans h)) hticks hwrap hwait]
    simp only [if_pos hempty]
    exact ih
  | case7 tls hn p ps hticks hwrap seg rest rxBuf hwait tls' hempty hfull =>
    have hfull' : tls.stream.length + seg.data.length > tlsStreamBufSize := hfull
    rw [tlsStreamFill_cons (fun h => hn (hle.trans h)) hticks hwrap hwait]
    simp only [if_neg hempty, if_pos hfull']
    rfl
  | case8 tls hn p ps hticks hwrap seg rest rxBuf hwait tls' hempty hroom ih =>
    have hroom' : ¬ tls.stream.length + seg.data.length > tlsStreamBufSize := hroom
    rw [tlsStreamFill_cons (fun h => hn (hle.trans h)) hticks hwrap hwait]
    simp only [if_neg hempty, if_neg hroom']
    exact ih

theorem length_tlsStreamFill {need : ℕ} {deadline : UInt32} {polls : List Poll} {tls : TlsConn}
    (h : (tlsStreamFill need deadline polls tls).1 = true) :
    need ≤ (tlsStreamFill need deadline polls tls).2.2.stream.length := by
  fun_induction tlsStreamFill need deadline polls tls with
  | case1 polls tls hneed => exact hneed
  | case4 _ _ _ _ _ _ ih => exact ih h
  | case5 _ _ _ _ _ _ _ _ _ ih => exact ih h
  | case6 _ _ _ _ _ _ _ _ _ _ _ _ ih => exact ih h
  | case8 _ _ _ _ _ _ _ _ _ _ _ _ _ ih => exact ih h
  | _ => exact absurd h (by simp)

/-- `tls_stream_consume`. -/
def tlsStreamConsume (n : ℕ) (tls : TlsConn) : TlsConn := { tls with stream := tls.stream.drop n }

/-- How `tls_recv_record` ends. -/
inductive RecvResult where
  /-- it returns false -/
  | failed
  /-- `hmac_sha256` writes past the end of its buffer -/
  | overrun
  /-- it returns true with this content type and payload -/
  | record (contentType : UInt8) (payload : List UInt8)

/-- What the MAC is computed over. -/
def macInput (seqNum : UInt64) (contentType versionHi versionLo : UInt8) (plaintext : List UInt8) :
    List UInt8 :=
  (List.range 8).map (fun i => (seqNum >>> (56 - UInt64.ofNat i * 8)).toUInt8) ++
    [contentType, versionHi, versionLo, UInt8.ofNat (plaintext.length / 256),
      UInt8.ofNat plaintext.length] ++ plaintext

/-- `diff`, the differences of two MACs or-ed together. -/
def macDiff (computed received : List UInt8) : UInt8 :=
  (List.zipWith (· ^^^ ·) computed received).foldl (· ||| ·) 0

/-- The check of an encrypted record, from `iv` on, of the fragment of a complete record. -/
def tlsOpenFragment (maxPayload : ℕ) (contentType versionHi versionLo : UInt8)
    (fragment : List UInt8) (tls : TlsConn) : RecvResult × TlsConn :=
  if fragment.length < 16 + 16 then (.failed, tls)
  else if (fragment.length - 16) % 16 ≠ 0 then (.failed, tls)
  else
    let ciphertextLen := fragment.length - 16
    let decrypted := aes128CbcDecrypt tls.serverWriteKey (fragment.take 16) (fragment.drop 16)
    let padLen := (decrypted.getD (ciphertextLen - 1) 0).toNat
    if padLen + 1 > ciphertextLen then (.failed, tls)
    else
      let unpaddedLen := ciphertextLen - padLen - 1
      if unpaddedLen < 32 then (.failed, tls)
      else
        let plaintextLen := unpaddedLen - 32
        let plaintext := decrypted.take plaintextLen
        let receivedMac := (decrypted.drop plaintextLen).take 32
        match hmacSha256 tls.serverMacKey
            (macInput tls.readSeqNum contentType versionHi versionLo plaintext) with
        | none => (.overrun, tls)
        | some computedMac =>
          let tls := { tls with readSeqNum := tls.readSeqNum + 1 }
          if macDiff computedMac receivedMac ≠ 0 then (.failed, tls)
          else if plaintextLen > maxPayload then (.failed, tls)
          else (.record contentType plaintext, tls)

/-- `tls_recv_record` after a complete record of length `5 + recordLen` is at the front of the
    stream; every way out consumes it. -/
def tlsTakeRecord (maxPayload : ℕ) (encrypted : Bool) (recordLen : ℕ) (tls : TlsConn) :
    RecvResult × TlsConn :=
  let contentType := byteAt tls.stream 0
  let fragment := (tls.stream.drop 5).take recordLen
  if encrypted then
    let (r, tls) := tlsOpenFragment maxPayload contentType (byteAt tls.stream 1)
      (byteAt tls.stream 2) fragment tls
    (r, tlsStreamConsume (5 + recordLen) tls)
  else if recordLen > maxPayload then (.failed, tlsStreamConsume (5 + recordLen) tls)
  else (.record contentType fragment, tlsStreamConsume (5 + recordLen) tls)

/-- `timer_get_ticks` before the next poll. -/
def clock : List Poll → UInt32
  | [] => 0
  | p :: _ => p.ticks

/-- `tls_recv_record`. -/
def tlsRecvRecord (maxPayload : ℕ) (encrypted : Bool) (polls : List Poll) (tls : TlsConn) :
    RecvResult × List Poll × TlsConn :=
  let deadline := clock polls + tlsRecvTimeoutTicks
  match tlsStreamFill 5 deadline polls tls with
  | (false, polls, tls) => (.failed, polls, tls)
  | (true, polls, tls) =>
    let recordLen := be16 tls.stream 3
    match tlsStreamFill (5 + recordLen) deadline polls tls with
    | (false, polls, tls) => (.failed, polls, tls)
    | (true, polls, tls) =>
      let (r, tls) := tlsTakeRecord maxPayload encrypted recordLen tls
      (r, polls, tls)

section pending

/-- The bytes in the stream buffer and those that the polls can bring. -/
def pending (polls : List Poll) (tls : TlsConn) : ℕ := segSize * polls.length + tls.stream.length

/-- One turn of the loop brings at most what a segment can hold, and takes a poll. -/
theorem pending_tlsStreamFill (need : ℕ) (deadline : UInt32) (polls : List Poll) (tls : TlsConn) :
    pending (tlsStreamFill need deadline polls tls).2.1
      (tlsStreamFill need deadline polls tls).2.2 ≤
      pending polls tls := by
  fun_induction tlsStreamFill need deadline polls tls with
  | case1 => exact Nat.le_refl _
  | case2 => exact Nat.le_refl _
  | case3 => exact Nat.le_refl _
  | case4 tls _ p ps _ _ ih =>
    exact ih.trans (Nat.add_le_add_right (Nat.mul_le_mul_left _ (Nat.le_succ _)) _)
  | case5 tls _ p ps _ hwrap rest rxBuf hwait ih =>
    have hrest : rest.length < (p :: ps).length :=
      length_lt_of_tcpWaitSegment hwait (UInt32.not_le.mp hwrap)
    exact ih.trans (Nat.add_le_add_right (Nat.mul_le_mul_left _ hrest.le) _)
  | case6 tls _ p ps _ hwrap seg rest rxBuf hwait _ _ ih =>
    have hrest : rest.length < (p :: ps).length :=
      length_lt_of_tcpWaitSegment hwait (UInt32.not_le.mp hwrap)
    exact ih.trans (Nat.add_le_add_right (Nat.mul_le_mul_left _ hrest.le) _)
  | case7 tls _ p ps _ hwrap seg rest rxBuf hwait =>
    have hrest : rest.length < (p :: ps).length :=
      length_lt_of_tcpWaitSegment hwait (UInt32.not_le.mp hwrap)
    exact Nat.add_le_add_right (Nat.mul_le_mul_left _ hrest.le) _
  | case8 tls _ p ps _ hwrap seg rest rxBuf hwait tls' _ _ ih =>
    have hstream : tls'.stream = tls.stream := rfl
    have hrest : rest.length < (p :: ps).length :=
      length_lt_of_tcpWaitSegment hwait (UInt32.not_le.mp hwrap)
    obtain ⟨_, _, _, hacc⟩ := tcpWaitSegment_some (congrArg Prod.fst hwait)
    have hdata := length_acceptSegment hacc
    refine ih.trans ?_
    simp only [pending, List.length_append, segSize, hstream] at hdata ⊢
    omega

theorem stream_tlsOpenFragment (maxPayload : ℕ) (contentType versionHi versionLo : UInt8)
    (fragment : List UInt8) (tls : TlsConn) :
    (tlsOpenFragment maxPayload contentType versionHi versionLo fragment tls).2.stream =
      tls.stream := by
  simp only [tlsOpenFragment]
  repeat' split
  all_goals rfl

theorem stream_tlsTakeRecord (maxPayload : ℕ) (encrypted : Bool) (recordLen : ℕ) (tls : TlsConn) :
    (tlsTakeRecord maxPayload encrypted recordLen tls).2.stream =
      tls.stream.drop (5 + recordLen) := by
  cases encrypted with
  | false =>
    simp only [tlsTakeRecord, Bool.false_eq_true, if_false]
    split <;> rfl
  | true =>
    simp only [tlsTakeRecord, if_true, tlsStreamConsume, stream_tlsOpenFragment]

/-- A record that is received was pending. -/
theorem pending_tlsRecvRecord {maxPayload : ℕ} {encrypted : Bool} {polls rest : List Poll}
    {tls tls' : TlsConn} {contentType : UInt8} {payload : List UInt8}
    (h : tlsRecvRecord maxPayload encrypted polls tls = (.record contentType payload, rest, tls')) :
    pending rest tls' < pending polls tls := by
  simp only [tlsRecvRecord] at h
  generalize clock polls + tlsRecvTimeoutTicks = deadline at h
  have hfill₁ := pending_tlsStreamFill 5 deadline polls tls
  split at h
  · next hfail => exact absurd (congrArg Prod.fst h) (by simp)
  · next polls₁ tls₁ hrun₁ =>
    rw [hrun₁] at hfill₁
    have hfill₂ := pending_tlsStreamFill (5 + be16 tls₁.stream 3) deadline polls₁ tls₁
    split at h
    · exact absurd (congrArg Prod.fst h) (by simp)
    · next polls₂ tls₂ hrun₂ =>
      have hlen := length_tlsStreamFill (congrArg Prod.fst hrun₂)
      rw [hrun₂] at hfill₂ hlen
      have htake := stream_tlsTakeRecord maxPayload encrypted (be16 tls₁.stream 3) tls₂
      obtain ⟨-, rfl, rfl⟩ : _ ∧ polls₂ = rest ∧ _ = tls' := by simpa using h
      -- the header and the record are taken off the stream
      simp only [pending, htake, List.length_drop] at hfill₁ hfill₂ hlen ⊢
      omega

end pending

/-- The results of `n` successive calls. -/
def tlsRecvRecords (maxPayload : ℕ) (encrypted : Bool) :
    ℕ → List Poll → TlsConn → List RecvResult
  | 0, _, _ => []
  | n + 1, polls, tls =>
    let r := tlsRecvRecord maxPayload encrypted polls tls
    r.1 :: tlsRecvRecords maxPayload encrypted n r.2.1 r.2.2

/-- A record on the wire. -/
structure Record where
  contentType : UInt8
  versionHi : UInt8
  versionLo : UInt8
  fragment : List UInt8
  fragment_le : fragment.length ≤ tlsMaxRecordCiphertext

/-- The bytes of a record. -/
def Record.encode (r : Record) : List UInt8 :=
  [r.contentType, r.versionHi, r.versionLo, UInt8.ofNat (r.fragment.length / 256),
    UInt8.ofNat r.fragment.length] ++ r.fragment

/-- The payload of a record that is number `seqNum` of its direction: the fragment itself or, when
    records are protected, what the fragment decrypts to less its MAC and its padding. -/
def Carries (macKey writeKey : List UInt8) (encrypted : Bool) (seqNum : UInt64) (r : Record)
    (payload : List UInt8) : Prop :=
  if encrypted then
    ∃ iv ciphertext, ∃ padLen : UInt8, r.fragment = iv ++ ciphertext ∧ iv.length = 16 ∧
      ciphertext.length % 16 = 0 ∧
      aes128CbcDecrypt writeKey iv ciphertext =
        payload ++ hmac macKey (macInput seqNum r.contentType r.versionHi r.versionLo payload) ++
          List.replicate (padLen.toNat + 1) padLen
  else payload = r.fragment

/-- Unprotected records have no number. -/
theorem Carries.of_seqNum {macKey writeKey : List UInt8} {encrypted : Bool}
    {seqNum seqNum' : UInt64}
    {r : Record} {payload : List UInt8} (h : Carries macKey writeKey encrypted seqNum r payload)
    (hseq : encrypted = true → seqNum' = seqNum) :
    Carries macKey writeKey encrypted seqNum' r payload := by
  cases encrypted with
  | false =>
    rw [Carries, if_neg (by simp)] at h ⊢
    exact h
  | true =>
    rw [hseq rfl]
    exact h

@[simp]
theorem length_macInput (seqNum : UInt64) (contentType versionHi versionLo : UInt8)
    (plaintext : List UInt8) :
    (macInput seqNum contentType versionHi versionLo plaintext).length = 13 + plaintext.length := by
  simp only [macInput, List.length_append, List.length_map, List.length_range, List.length_cons,
    List.length_nil]

theorem macDiff_self (mac : List UInt8) : macDiff mac mac = 0 := by
  rw [macDiff]
  induction mac with
  | nil => rfl
  | cons x xs ih => simpa using ih

/-- A fragment that carries a payload is opened, unless it is too large for `hmac_sha256`; a payload
    for which the caller has no room is reported as a failure. -/
theorem tlsOpenFragment_of_carries {tls : TlsConn} {r : Record} {payload : List UInt8}
    {maxPayload : ℕ}
    (h : Carries tls.serverMacKey tls.serverWriteKey true tls.readSeqNum r payload) :
    tlsOpenFragment maxPayload r.contentType r.versionHi r.versionLo r.fragment tls =
      if 13 + payload.length ≤ innerDataSize then
        (if payload.length ≤ maxPayload then .record r.contentType payload else .failed,
          { tls with readSeqNum := tls.readSeqNum + 1 })
      else (.overrun, tls) := by
  obtain ⟨iv, ciphertext, padLen, hfrag, hiv, hmod, hdec⟩ := h
  generalize hmac_eq : hmac tls.serverMacKey
    (macInput tls.readSeqNum r.contentType r.versionHi r.versionLo payload) = mac at hdec
  have hmac_len : mac.length = 32 := by rw [← hmac_eq, length_hmac]
  have hlen : ciphertext.length = payload.length + 32 + (padLen.toNat + 1) := by
    have hdecLen := length_aes128CbcDecrypt tls.serverWriteKey iv hmod
    rw [hdec] at hdecLen
    simp only [List.length_append, hmac_len, List.length_replicate] at hdecLen
    exact hdecLen.symm
  have hfragLen : r.fragment.length = 16 + ciphertext.length := by
    rw [hfrag, List.length_append, hiv]
  have htake : r.fragment.take 16 = iv := by rw [hfrag, ← hiv, List.take_left]
  have hdrop : r.fragment.drop 16 = ciphertext := by rw [hfrag, ← hiv, List.drop_left]
  have hpad : (aes128CbcDecrypt tls.serverWriteKey iv ciphertext).getD (ciphertext.length - 1) 0 =
      padLen := by
    rw [hdec, List.getD_eq_getElem?_getD, List.getElem?_append_right, List.getElem?_replicate,
      if_pos]
    · rfl
    · simp only [List.length_append]
      omega
    · simp only [List.length_append]
      omega
  have hplain : (aes128CbcDecrypt tls.serverWriteKey iv ciphertext).take payload.length =
      payload := by
    rw [hdec, List.append_assoc, List.take_left]
  have hmac' : ((aes128CbcDecrypt tls.serverWriteKey iv ciphertext).drop payload.length).take 32 =
      mac := by
    rw [hdec, List.append_assoc, List.drop_left, ← hmac_len, List.take_left]
  rw [tlsOpenFragment, if_neg (by omega), if_neg (by omega)]
  simp only [htake, hdrop]
  rw [show r.fragment.length - 16 = ciphertext.length by omega, hpad, if_neg (by omega),
    if_neg (by omega),
    show ciphertext.length - padLen.toNat - 1 - 32 = payload.length by omega, hplain, hmac',
    hmacSha256, length_macInput, hmac_eq]
  by_cases hfits : 13 + payload.length ≤ innerDataSize
  · simp only [if_pos hfits, macDiff_self]
    rw [if_neg (by simp)]
    by_cases hmax : payload.length ≤ maxPayload
    · rw [if_neg (Nat.not_lt_of_le hmax), if_pos hmax]
    · rw [if_pos (Nat.lt_of_not_le hmax), if_neg hmax]
  · simp only [if_neg hfits]

section take

variable {tls : TlsConn} {r : Record} {payload rest : List UInt8}

/-- The record at the front of the stream. -/
theorem stream_record (hstream : tls.stream = r.encode ++ rest) :
    (tls.stream.drop 5).take r.fragment.length = r.fragment ∧
      tls.stream.drop (5 + r.fragment.length) = rest ∧ byteAt tls.stream 0 = r.contentType ∧
      byteAt tls.stream 1 = r.versionHi ∧ byteAt tls.stream 2 = r.versionLo := by
  refine ⟨by simp [hstream, Record.encode], ?_, ?_⟩
  · rw [hstream, ← List.drop_drop]
    simp [Record.encode]
  · rw [hstream]
    exact ⟨rfl, rfl, rfl⟩

/-- A complete protected record at the front of the stream is taken off it. -/
theorem tlsTakeRecord_protected (hstream : tls.stream = r.encode ++ rest)
    (h : Carries tls.serverMacKey tls.serverWriteKey true tls.readSeqNum r payload)
    (maxPayload : ℕ) :
    tlsTakeRecord maxPayload true r.fragment.length tls =
      if 13 + payload.length ≤ innerDataSize then
        (if payload.length ≤ maxPayload then .record r.contentType payload else .failed,
          { tls with stream := rest, readSeqNum := tls.readSeqNum + 1 })
      else (.overrun, { tls with stream := rest }) := by
  obtain ⟨hfrag, hrest, htype, hhi, hlo⟩ := stream_record hstream
  simp only [tlsTakeRecord, hfrag, htype, hhi, hlo, if_true]
  rw [tlsOpenFragment_of_carries h]
  by_cases hfits : 13 + payload.length ≤ innerDataSize
  · simp only [if_pos hfits, tlsStreamConsume, hrest]
  · simp only [if_neg hfits, tlsStreamConsume, hrest]

/-- A complete record at the front of the stream is taken off it. -/
theorem tlsTakeRecord_of_carries {encrypted : Bool} {maxPayload : ℕ}
    (hstream : tls.stream = r.encode ++ rest)
    (h : Carries tls.serverMacKey tls.serverWriteKey encrypted tls.readSeqNum r payload)
    (hmax : payload.length ≤ maxPayload) :
    tlsTakeRecord maxPayload encrypted r.fragment.length tls =
      if encrypted = true → 13 + payload.length ≤ innerDataSize then
        (.record r.contentType payload, { tls with
          stream := rest
          readSeqNum := if encrypted then tls.readSeqNum + 1 else tls.readSeqNum })
      else (.overrun, { tls with stream := rest }) := by
  cases encrypted with
  | false =>
    obtain ⟨hfrag, hrest, htype, -, -⟩ := stream_record hstream
    have hpayload : payload = r.fragment := h
    simp only [tlsTakeRecord, hfrag, htype]
    rw [if_neg (by simp), if_neg (by rw [← hpayload]; omega), if_pos (by simp), hpayload,
      tlsStreamConsume, hrest]
    rfl
  | true =>
    rw [tlsTakeRecord_protected hstream h]
    simp only [if_pos hmax, forall_const, if_true]

end take

end AuroraOS.Tls
