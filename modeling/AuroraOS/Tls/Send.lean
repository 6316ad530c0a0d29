import AuroraOS.Net.Send
import AuroraOS.Tls.Handshake
import AuroraOS.Crypto.AesEncrypt

/-!
# The sending side of the TLS record layer

`tls_send` of `kernel/tls.c` with what it calls down to `send_ethernet_frame` of `kernel/net.c`,
and the peer that reads what was sent. Three layers have a limit on the size of what they send;
the record layer counts a record before the layers below have taken it.

## Main definitions

- `TlsSender`, `tlsSendRecord`, `tlsSend`
- `Receiver` — a peer that keeps to TCP and TLS 1.2
- `Session`, `Session.InStep` — both ends, and when they agree
- `SendCall.Safe` — the calls that keep them in step

## Main results

- `run_inStep_iff` — over a sequence of calls
-/

namespace AuroraOS.Tls

set_option maxRecDepth 16384

open AuroraOS.Net AuroraOS.Crypto

/-- What becomes of a frame that was given to `e1000_send`. -/
inductive NicOutcome where
  /-- it is sent and the function returns true -/
  | sent
  /-- it is sent, but after the function has given up and returned false -/
  | late
  /-- it is never sent and the function returns false -/
  | lost
deriving DecidableEq

/-- A segment on the wire, without the addresses and checksums. -/
structure WireSegment where
  seq : UInt32
  ack : UInt32
  flags : UInt8
  data : List UInt8

/-- `TCP_FLAG_PSH`. -/
def tcpFlagPsh : UInt8 := 0x08

/-- `send_ethernet_frame` with a payload of this length. -/
def sendEthernetFrame (payloadLen : ℕ) (nic : NicOutcome) : NicOutcome :=
  if ethHeaderSize + payloadLen > txScratchSize then .lost else nic

/-- `tcp_send_segment`: whether it returns true, and what reaches the wire. -/
def tcpSendSegment (conn : TcpConn) (flags : UInt8) (data : List UInt8) (nic : NicOutcome) :
    Bool × Option WireSegment :=
  let tcpLen := (20 + data.length) % 65536
  if 20 + tcpLen > tcpScratchSize - ethHeaderSize then (false, none)
  else
    let segment : WireSegment :=
      { seq := conn.localSeq
        ack := if flags &&& tcpFlagAck ≠ 0 then conn.remoteSeq else 0
        flags := flags
        data := data }
    match sendEthernetFrame (20 + tcpLen) nic with
    | .sent => (true, some segment)
    | .late => (false, some segment)
    | .lost => (false, none)

/-- The fields of `struct tls_conn` that are used when sending. -/
structure TlsSender where
  tcp : TcpConn
  clientMacKey : List UInt8
  clientWriteKey : List UInt8
  writeSeqNum : UInt64
  handshakeDone : Bool

/-- `local_seq += n`. -/
def TlsSender.advance (tls : TlsSender) (n : ℕ) : TlsSender :=
  { tls with tcp := { tls.tcp with localSeq := tls.tcp.localSeq + UInt32.ofNat n } }

/-- What a call meets: the two clocks that the IV is made of, and the network card. -/
structure SendEnv where
  ticks : UInt32
  hours : UInt8
  minutes : UInt8
  seconds : UInt8
  nic : NicOutcome

/-- `TLS_VERSION_1_2`, high byte first. -/
def tlsVersion : UInt8 × UInt8 := (3, 3)

/-- The five bytes in front of a record's fragment of length `n`. -/
def recordHeader (contentType : UInt8) (n : ℕ) : List UInt8 :=
  [contentType, tlsVersion.1, tlsVersion.2, UInt8.ofNat (n / 256), UInt8.ofNat n]

/-- `pad_len`. -/
def padLen (unpaddedLen : ℕ) : ℕ :=
  let n := 16 - unpaddedLen % 16
  if n = 0 then 16 else n

/-- The padding of `to_encrypt`. -/
def padding (unpaddedLen : ℕ) : List UInt8 :=
  List.replicate (padLen unpaddedLen) (UInt8.ofNat (padLen unpaddedLen - 1))

/-- `seed` before the loop that fills `iv`. -/
def ivSeed (env : SendEnv) (writeSeqNum : UInt64) : UInt32 :=
  env.ticks ^^^ (env.hours.toUInt32 <<< 16) ^^^ (env.minutes.toUInt32 <<< 8) ^^^
    env.seconds.toUInt32 ^^^ writeSeqNum.toUInt32 ^^^ 0x5A5A5A5A

/-- The last `n` turns of the loop that fills `iv`, from index `i` on. -/
def ivLoop (i : ℕ) : ℕ → UInt32 → List UInt8
  | 0, _ => []
  | n + 1, seed =>
    let seed := seed * 1103515245 + 12345 + UInt32.ofNat i
    (seed >>> 16).toUInt8 :: ivLoop (i + 1) n seed

/-- `iv`. -/
def recordIv (env : SendEnv) (writeSeqNum : UInt64) : List UInt8 :=
  ivLoop 0 16 (ivSeed env writeSeqNum)

/-- `to_encrypt`: the payload, its MAC and the padding. -/
def toEncrypt (tls : TlsSender) (contentType : UInt8) (payload : List UInt8) : List UInt8 :=
  let mac := hmac tls.clientMacKey
    (macInput tls.writeSeqNum contentType tlsVersion.1 tlsVersion.2 payload)
  payload ++ mac ++ padding (payload.length + mac.length)

/-- The IV and the ciphertext of a record. -/
def protectedFragment (tls : TlsSender) (contentType : UInt8) (payload : List UInt8)
    (env : SendEnv) : List UInt8 :=
  let iv := recordIv env tls.writeSeqNum
  iv ++ aes128CbcEncrypt tls.clientWriteKey iv (toEncrypt tls contentType payload)

/-- `tls_send_record`: whether it returns true, and what reaches the wire. -/
def tlsSendRecord (tls : TlsSender) (contentType : UInt8) (payload : List UInt8) (encrypt : Bool)
    (env : SendEnv) : Bool × Option WireSegment × TlsSender :=
  if payload.length > 1900 then (false, none, tls)
  else
    let fragment := if encrypt then protectedFragment tls contentType payload env else payload
    let record := recordHeader contentType fragment.length ++ fragment
    -- the record is counted whether or not it can be sent
    let tls := if encrypt then { tls with writeSeqNum := tls.writeSeqNum + 1 } else tls
    let (ok, segment) := tcpSendSegment tls.tcp (tcpFlagPsh ||| tcpFlagAck) record env.nic
    (ok, segment, if ok then tls.advance record.length else tls)

/-- `tls_send`. -/
def tlsSend (tls : TlsSender) (payload : List UInt8) (env : SendEnv) :
    Bool × Option WireSegment × TlsSender :=
  if tls.handshakeDone then tlsSendRecord tls tlsContentApplicationData payload true env
  else (false, none, tls)

/-- The server's end: what TCP expects next, and the record layer with the client's keys. -/
structure Receiver where
  macKey : List UInt8
  writeKey : List UInt8
  /-- the number of the next record -/
  seqNum : UInt64
  /-- the next byte expected from the client -/
  rcvNext : UInt32
  /-- received bytes that no record has been made of -/
  buf : List UInt8
  /-- the payloads of the accepted records -/
  received : List (List UInt8)
  /-- a record was not accepted, which ends the connection -/
  failed : Bool

/-- The payload of a protected record of application data, if it passes every check. -/
def openRecord (macKey writeKey : List UInt8) (seqNum : UInt64)
    (contentType versionHi versionLo : UInt8) (fragment : List UInt8) : Option (List UInt8) :=
  if contentType = tlsContentApplicationData ∧ (versionHi, versionLo) = tlsVersion ∧
      64 ≤ fragment.length ∧ fragment.length % 16 = 0 ∧ fragment.length ≤ 2 ^ 14 + 2048 then
    let decrypted := aes128CbcDecrypt writeKey (fragment.take 16) (fragment.drop 16)
    let last := decrypted.getLastD 0
    let payloadLen := decrypted.length - (last.toNat + 1) - 32
    let payload := decrypted.take payloadLen
    if decrypted =
      payload ++ hmac macKey (macInput seqNum contentType versionHi versionLo payload) ++
        List.replicate (last.toNat + 1) last ∧ payloadLen ≤ 2 ^ 14 then
      some payload
    else none
  else none

/-- The record layer looks for one record. -/
def Receiver.takeRecord (r : Receiver) : Receiver :=
  let recordLen := be16 r.buf 3
  if r.failed = true ∨ r.buf.length < 5 ∨ r.buf.length < 5 + recordLen then r
  else
    match openRecord r.macKey r.writeKey r.seqNum (byteAt r.buf 0) (byteAt r.buf 1)
        (byteAt r.buf 2) ((r.buf.drop 5).take recordLen) with
    | none => { r with failed := true }
    | some payload =>
      { r with
        buf := r.buf.drop (5 + recordLen)
        seqNum := r.seqNum + 1
        received := r.received ++ [payload] }

/-- The record layer takes what there is; a record has at least one byte. -/
def Receiver.takeRecords (r : Receiver) : Receiver := Receiver.takeRecord^[r.buf.length] r

/-- A segment arrives. What was received before is cut off; a segment beyond a gap is dropped. -/
def Receiver.deliver (r : Receiver) (segment : WireSegment) : Receiver :=
  let old := (r.rcvNext - segment.seq).toNat
  if old ≤ segment.data.length then
    Receiver.takeRecords { r with
      buf := r.buf ++ segment.data.drop old
      rcvNext := segment.seq + UInt32.ofNat segment.data.length }
  else r

/-- A call of `tls_send`. -/
structure SendCall where
  payload : List UInt8
  env : SendEnv

/-- Both ends of a connection, with the payloads of the calls that returned true. -/
structure Session where
  sender : TlsSender
  receiver : Receiver
  accepted : List (List UInt8)

/-- A call, and what it put on the wire arrives. -/
def Session.call (s : Session) (c : SendCall) : Session :=
  let (ok, segment, sender) := tlsSend s.sender c.payload c.env
  { sender := sender
    receiver := segment.elim s.receiver s.receiver.deliver
    accepted := if ok then s.accepted ++ [c.payload] else s.accepted }

/-- A sequence of calls. -/
def Session.run (s : Session) (calls : List SendCall) : Session := calls.foldl Session.call s

/-- The receiver has the client's keys, expects the byte that the client sends next and has a record
    made of every byte so far. -/
structure Session.Mirrored (s : Session) : Prop where
  macKey : s.receiver.macKey = s.sender.clientMacKey
  writeKey : s.receiver.writeKey = s.sender.clientWriteKey
  rcvNext : s.receiver.rcvNext = s.sender.tcp.localSeq
  buf : s.receiver.buf = []
  accepts : s.receiver.failed = false

/-- Also, it has recovered the payloads of the calls that returned true, and the next record has
    the same number at both ends. -/
structure Session.InStep (s : Session) : Prop extends s.Mirrored where
  received : s.receiver.received = s.accepted
  seqNum : s.receiver.seqNum = s.sender.writeSeqNum

/-- The largest payload whose record fits `tx_scratch`. -/
def maxSendPayload : ℕ := 911

/-- The record layer refuses the payload, or every layer takes it. -/
def SendCall.Safe (c : SendCall) : Prop :=
  1900 < c.payload.length ∨ (c.payload.length ≤ maxSendPayload ∧ c.env.nic = .sent)

instance (c : SendCall) : Decidable c.Safe :=
  inferInstanceAs (Decidable (_ ∨ _))

/-! ### Records -/

section record

variable (tls : TlsSender) (contentType : UInt8) (payload : List UInt8) (env : SendEnv)

theorem length_ivLoop (i n : ℕ) (seed : UInt32) : (ivLoop i n seed).length = n := by
  induction n generalizing i seed with
  | zero => rfl
  | succ n ih => rw [ivLoop, List.length_cons, ih]

theorem padLen_eq (n : ℕ) : padLen n = 16 - n % 16 := by
  rw [padLen]
  exact if_neg (by omega)

/-- The padding is as many bytes as its last byte says, and one more. -/
theorem padding_eq (n : ℕ) :
    padding n = List.replicate ((UInt8.ofNat (padLen n - 1)).toNat + 1)
      (UInt8.ofNat (padLen n - 1)) := by
  have hpad := padLen_eq n
  rw [padding, UInt8.toNat_ofNat_of_lt' (by simp [UInt8.size]; omega),
    Nat.sub_add_cancel (by omega)]

theorem length_toEncrypt : (toEncrypt tls contentType payload).length =
    16 * ((payload.length + 32) / 16 + 1) := by
  simp only [toEncrypt, padding, List.length_append, List.length_replicate, length_hmac, padLen_eq]
  omega

theorem length_protectedFragment : (protectedFragment tls contentType payload env).length =
    16 + 16 * ((payload.length + 32) / 16 + 1) := by
  rw [protectedFragment, List.length_append, recordIv, length_ivLoop,
    length_aes128CbcEncrypt _ _ (by rw [length_toEncrypt]; omega), length_toEncrypt]

/-- What is encrypted ends with as many bytes as its last byte says, and one more. -/
theorem toEncrypt_eq : ∃ pad : UInt8, toEncrypt tls contentType payload =
    payload ++ hmac tls.clientMacKey (macInput tls.writeSeqNum contentType tlsVersion.1 tlsVersion.2
      payload) ++ List.replicate (pad.toNat + 1) pad := by
  refine ⟨UInt8.ofNat (padLen (payload.length + 32) - 1), ?_⟩
  rw [toEncrypt]
  simp only [length_hmac, padding_eq]

theorem decrypt_protectedFragment :
    aes128CbcDecrypt tls.clientWriteKey ((protectedFragment tls contentType payload env).take 16)
        ((protectedFragment tls contentType payload env).drop 16) =
      toEncrypt tls contentType payload := by
  have hiv : (recordIv env tls.writeSeqNum).length = 16 := length_ivLoop _ _ _
  have hplain := length_toEncrypt tls contentType payload
  rw [protectedFragment, ← hiv, List.take_left, List.drop_left,
    aes128CbcDecrypt_encrypt _ _ (by omega)]

/-- The record of a payload carries it. -/
theorem carries_protectedFragment {r : Record} (htype : r.contentType = contentType)
    (hhi : r.versionHi = tlsVersion.1) (hlo : r.versionLo = tlsVersion.2)
    (hfrag : r.fragment = protectedFragment tls contentType payload env) :
    Carries tls.clientMacKey tls.clientWriteKey true tls.writeSeqNum r payload := by
  have hlen := length_protectedFragment tls contentType payload env
  obtain ⟨pad, hform⟩ := toEncrypt_eq tls contentType payload
  rw [Carries, if_pos rfl]
  refine ⟨r.fragment.take 16, r.fragment.drop 16, pad,
    (List.take_append_drop 16 _).symm, ?_, ?_, ?_⟩
  · rw [hfrag, List.length_take]
    omega
  · rw [hfrag, List.length_drop]
    omega
  · rw [hfrag, decrypt_protectedFragment, hform, htype, hhi, hlo]

/-- The peer opens what the client protects, if it computes the same MAC. -/
theorem openRecord_protectedFragment (hlen : payload.length ≤ 1900) (seqNum : UInt64) :
    openRecord tls.clientMacKey tls.clientWriteKey seqNum tlsContentApplicationData
        tlsVersion.1 tlsVersion.2 (protectedFragment tls tlsContentApplicationData payload env) =
      if hmac tls.clientMacKey (macInput tls.writeSeqNum tlsContentApplicationData
            tlsVersion.1 tlsVersion.2 payload) =
          hmac tls.clientMacKey (macInput seqNum tlsContentApplicationData
            tlsVersion.1 tlsVersion.2 payload) then
        some payload
      else none := by
  have hfrag := length_protectedFragment tls tlsContentApplicationData payload env
  have hdec := decrypt_protectedFragment tls tlsContentApplicationData payload env
  obtain ⟨pad, hform⟩ := toEncrypt_eq tls tlsContentApplicationData payload
  -- the last byte tells the length of the padding
  have hlast : (toEncrypt tls tlsContentApplicationData payload).getLastD 0 = pad := by
    rw [hform, List.replicate_succ', ← List.append_assoc, List.getLastD_concat]
  have hpayload : (toEncrypt tls tlsContentApplicationData payload).length - (pad.toNat + 1) - 32 =
      payload.length := by
    rw [hform]
    simp only [List.length_append, List.length_replicate, length_hmac]
    omega
  have htake : (toEncrypt tls tlsContentApplicationData payload).take payload.length = payload := by
    rw [hform, List.append_assoc, List.take_left]
  rw [openRecord, if_pos ⟨rfl, rfl, by omega, by omega, by omega⟩]
  simp only [hdec, hlast, hpayload, htake]
  refine if_congr ?_ rfl rfl
  rw [hform, List.append_left_inj, List.append_right_inj]
  exact and_iff_left (by omega)

end record

theorem Receiver.takeRecord_of_failed {r : Receiver} (h : r.failed = true) : r.takeRecord = r := by
  rw [Receiver.takeRecord]
  exact if_pos (.inl h)

theorem Receiver.takeRecord_of_buf {r : Receiver} (h : r.buf = []) : r.takeRecord = r := by
  rw [Receiver.takeRecord]
  exact if_pos (.inr (.inl (by simp [h])))

/-- A segment that is the next one is appended as a whole. -/
theorem Receiver.deliver_next (r : Receiver) (ack : UInt32) (flags : UInt8) (data : List UInt8) :
    r.deliver ⟨r.rcvNext, ack, flags, data⟩ = Receiver.takeRecords { r with
      buf := r.buf ++ data
      rcvNext := r.rcvNext + UInt32.ofNat data.length } := by
  simp only [Receiver.deliver, UInt32.sub_self, UInt32.toNat_zero, List.drop_zero]
  exact if_pos (Nat.zero_le _)

/-- A complete record at the front of the buffer is taken off it, or ends the connection. -/
theorem Receiver.takeRecords_record {r : Receiver} {contentType : UInt8} {fragment : List UInt8}
    (hlen : fragment.length < 65536) (hfailed : r.failed = false)
    (hbuf : r.buf = recordHeader contentType fragment.length ++ fragment) :
    r.takeRecords =
      match openRecord r.macKey r.writeKey r.seqNum contentType tlsVersion.1 tlsVersion.2
        fragment with
      | none => { r with failed := true }
      | some payload =>
        { r with
          buf := []
          seqNum := r.seqNum + 1
          received := r.received ++ [payload] } := by
  have hbytes : byteAt r.buf 0 = contentType ∧ byteAt r.buf 1 = tlsVersion.1 ∧
      byteAt r.buf 2 = tlsVersion.2 := by
    rw [hbuf]
    exact ⟨rfl, rfl, rfl⟩
  have hrecord : be16 r.buf 3 = fragment.length := by
    rw [hbuf]
    simp [be16, byteAt, recordHeader]
    omega
  have hsize : r.buf.length = 5 + fragment.length := by
    rw [hbuf]
    simp [recordHeader]
    omega
  have hfrag : (r.buf.drop 5).take fragment.length = fragment := by
    rw [hbuf]
    simp [recordHeader]
  have hrest : r.buf.drop (5 + fragment.length) = [] := List.drop_eq_nil_of_le (by omega)
  have hfirst : r.takeRecord =
      match openRecord r.macKey r.writeKey r.seqNum contentType tlsVersion.1 tlsVersion.2
        fragment with
      | none => { r with failed := true }
      | some payload =>
        { r with
          buf := []
          seqNum := r.seqNum + 1
          received := r.received ++ [payload] } := by
    simp only [Receiver.takeRecord, hrecord, hfrag, hbytes, hrest]
    exact if_neg (by simp [hfailed]; omega)
  -- the turns after the first change nothing
  rw [Receiver.takeRecords, hsize, Nat.add_comm, Nat.add_succ, Function.iterate_succ_apply, hfirst]
  cases openRecord r.macKey r.writeKey r.seqNum contentType tlsVersion.1 tlsVersion.2 fragment with
  | none => exact Function.iterate_fixed (Receiver.takeRecord_of_failed rfl) _
  | some payload => exact Function.iterate_fixed (Receiver.takeRecord_of_buf rfl) _

/-- A segment that is the next one and brings a record. -/
theorem Receiver.deliver_record {r : Receiver} {contentType : UInt8} {fragment : List UInt8}
    (hlen : fragment.length < 65536) (hfailed : r.failed = false) (hbuf : r.buf = []) (ack : UInt32)
    (flags : UInt8) :
    let data := recordHeader contentType fragment.length ++ fragment
    let r' := { r with rcvNext := r.rcvNext + UInt32.ofNat data.length }
    r.deliver ⟨r.rcvNext, ack, flags, data⟩ =
      match openRecord r.macKey r.writeKey r.seqNum contentType tlsVersion.1 tlsVersion.2
        fragment with
      | none => { r' with buf := data, failed := true }
      | some payload =>
        { r' with seqNum := r.seqNum + 1, received := r.received ++ [payload] } := by
  intro data r'
  obtain ⟨macKey, writeKey, seqNum, rcvNext, buf, received, failed⟩ := r
  obtain rfl : buf = [] := hbuf
  rw [Receiver.deliver_next]
  exact Receiver.takeRecords_record hlen hfailed rfl

/-! ### Calls -/

/-- What becomes of the record of a payload that the record layer takes. -/
def SendCall.outcome (c : SendCall) : NicOutcome :=
  if c.payload.length ≤ maxSendPayload then c.env.nic else .lost

theorem SendCall.safe_iff {c : SendCall} (hlen : c.payload.length ≤ 1900) :
    c.Safe ↔ c.outcome = .sent := by
  rw [SendCall.Safe, SendCall.outcome, maxSendPayload]
  split
  · next hfits => simp [hfits]; omega
  · next hfits => simp [hfits]; omega

/-- The limits of the two layers below come to one limit on the payload. -/
theorem tcpSendSegment_record {c : SendCall} (conn : TcpConn) {record : List UInt8}
    (hrecord : record.length = 21 + 16 * ((c.payload.length + 32) / 16 + 1))
    (hlen : c.payload.length ≤ 1900) :
    tcpSendSegment conn (tcpFlagPsh ||| tcpFlagAck) record c.env.nic =
      (decide (c.outcome = .sent), if c.outcome = .lost then none else
        some ⟨conn.localSeq, conn.remoteSeq, tcpFlagPsh ||| tcpFlagAck, record⟩) := by
  have hmod : (20 + record.length) % 65536 = 20 + record.length := Nat.mod_eq_of_lt (by omega)
  have hack : (tcpFlagPsh ||| tcpFlagAck) &&& tcpFlagAck ≠ 0 := by decide
  have heth : ethHeaderSize = 14 := rfl
  have htx : txScratchSize = 1024 := rfl
  have htcp : tcpScratchSize = 1600 := rfl
  have hmax : maxSendPayload = 911 := rfl
  simp only [tcpSendSegment, hmod, if_pos hack, sendEthernetFrame]
  by_cases hfits : c.payload.length ≤ maxSendPayload
  · have houtcome : c.outcome = c.env.nic := if_pos hfits
    rw [if_neg (by omega), if_neg (by omega), ← houtcome]
    cases c.outcome <;> rfl
  · have houtcome : c.outcome = .lost := if_neg hfits
    simp only [houtcome]
    split
    · rfl
    · rw [if_pos (by omega)]
      rfl

section call

variable {s : Session} {c : SendCall}

/-- The record of a call. -/
def SendCall.record (c : SendCall) (tls : TlsSender) : List UInt8 :=
  recordHeader tlsContentApplicationData
      (protectedFragment tls tlsContentApplicationData c.payload c.env).length ++
    protectedFragment tls tlsContentApplicationData c.payload c.env

theorem SendCall.length_record (c : SendCall) (tls : TlsSender) :
    (c.record tls).length = 21 + 16 * ((c.payload.length + 32) / 16 + 1) := by
  simp only [SendCall.record, recordHeader, List.length_append, List.length_cons, List.length_nil,
    length_protectedFragment]
  omega

/-- A payload that is too long for the record layer changes nothing. -/
theorem Session.call_refused (h : 1900 < c.payload.length) : s.call c = s := by
  have hsend : tlsSend s.sender c.payload c.env = (false, none, s.sender) := by
    rw [tlsSend, tlsSendRecord, if_pos h]
    exact ite_self _
  rw [Session.call, hsend]
  rfl

/-- What the record layer does with a payload that it takes. -/
theorem tlsSendRecord_call (tls : TlsSender) (hlen : c.payload.length ≤ 1900) :
    tlsSendRecord tls tlsContentApplicationData c.payload true c.env =
      (decide (c.outcome = .sent),
        if c.outcome = .lost then none else some ⟨tls.tcp.localSeq, tls.tcp.remoteSeq,
          tcpFlagPsh ||| tcpFlagAck, c.record tls⟩,
        let counted := { tls with writeSeqNum := tls.writeSeqNum + 1 }
        if c.outcome = .sent then counted.advance (c.record tls).length else counted) := by
  have hseg := tcpSendSegment_record tls.tcp (c.length_record tls) hlen
  rw [tlsSendRecord, if_neg (Nat.not_lt_of_le hlen)]
  simp only [if_true]
  rw [SendCall.record] at hseg
  simp only [hseg, decide_eq_true_eq]
  rfl

/-- What a call does whose payload the record layer takes. -/
theorem Session.call_eq (hdone : s.sender.handshakeDone = true) (hlen : c.payload.length ≤ 1900) :
    s.call c =
      { sender :=
          let counted := { s.sender with writeSeqNum := s.sender.writeSeqNum + 1 }
          if c.outcome = .sent then counted.advance (c.record s.sender).length else counted
        receiver := if c.outcome = .lost then s.receiver else
          s.receiver.deliver ⟨s.sender.tcp.localSeq, s.sender.tcp.remoteSeq,
            tcpFlagPsh ||| tcpFlagAck, c.record s.sender⟩
        accepted := if c.outcome = .sent then s.accepted ++ [c.payload] else s.accepted } := by
  rw [Session.call, tlsSend, if_pos hdone, tlsSendRecord_call s.sender hlen]
  cases c.outcome <;> rfl

/-- The record of a call that reaches the wire at no time is counted all the same. -/
theorem Session.call_lost (hdone : s.sender.handshakeDone = true) (hlen : c.payload.length ≤ 1900)
    (hlost : c.outcome = .lost) :
    s.call c = { s with sender := { s.sender with writeSeqNum := s.sender.writeSeqNum + 1 } } := by
  rw [Session.call_eq hdone hlen]
  simp only [hlost, reduceCtorEq, if_true, if_false]

/-- The MAC of a call's record, were it number `seqNum`. -/
def SendCall.mac (c : SendCall) (key : List UInt8) (seqNum : UInt64) : List UInt8 :=
  hmac key (macInput seqNum tlsContentApplicationData tlsVersion.1 tlsVersion.2 c.payload)

/-- The record of a call reaches the peer. -/
theorem Session.Mirrored.deliver (h : s.Mirrored) (hlen : c.payload.length ≤ 1900) (ack : UInt32)
    (flags : UInt8) :
    let r := { s.receiver with
      rcvNext := s.receiver.rcvNext + UInt32.ofNat (c.record s.sender).length }
    s.receiver.deliver ⟨s.sender.tcp.localSeq, ack, flags, c.record s.sender⟩ =
      if c.mac s.sender.clientMacKey s.sender.writeSeqNum =
          c.mac s.sender.clientMacKey s.receiver.seqNum then
        { r with seqNum := r.seqNum + 1, received := r.received ++ [c.payload] }
      else { r with buf := c.record s.sender, failed := true } := by
  intro r
  have hfrag := length_protectedFragment s.sender tlsContentApplicationData c.payload c.env
  have hopen : openRecord s.receiver.macKey s.receiver.writeKey s.receiver.seqNum
      tlsContentApplicationData tlsVersion.1 tlsVersion.2
      (protectedFragment s.sender tlsContentApplicationData c.payload c.env) =
        if c.mac s.sender.clientMacKey s.sender.writeSeqNum =
          c.mac s.sender.clientMacKey s.receiver.seqNum then some c.payload else none := by
    rw [h.macKey, h.writeKey]
    exact openRecord_protectedFragment s.sender c.payload c.env hlen s.receiver.seqNum
  rw [← h.rcvNext, SendCall.record, Receiver.deliver_record (by omega) h.accepts h.buf, hopen]
  by_cases hmac : c.mac s.sender.clientMacKey s.sender.writeSeqNum =
      c.mac s.sender.clientMacKey s.receiver.seqNum
  · rw [if_pos hmac, if_pos hmac]
    rfl
  · rw [if_neg hmac, if_neg hmac]
    rfl

/-- A peer that expects another record number does not accept a record, unless the MACs agree. -/
theorem Session.Mirrored.call_mismatch (h : s.Mirrored) (hdone : s.sender.handshakeDone = true)
    (hlen : c.payload.length ≤ 1900) (hsent : c.outcome = .sent)
    (hmac : c.mac s.sender.clientMacKey s.sender.writeSeqNum ≠
      c.mac s.sender.clientMacKey s.receiver.seqNum) :
    (s.call c).accepted = s.accepted ++ [c.payload] ∧
      (s.call c).receiver.received = s.receiver.received ∧ (s.call c).receiver.failed = true := by
  rw [Session.call_eq hdone hlen]
  simp only [hsent, reduceCtorEq, if_true, if_false, h.deliver hlen, if_neg hmac, and_self]

/-- A safe call keeps both ends in step. -/
theorem Session.InStep.call (h : s.InStep) (hdone : s.sender.handshakeDone = true) (hc : c.Safe) :
    (s.call c).InStep := by
  by_cases hlen : c.payload.length ≤ 1900
  · have hsent := (SendCall.safe_iff hlen).mp hc
    rw [Session.call_eq hdone hlen]
    simp only [hsent, if_true, reduceCtorEq, if_false, h.deliver hlen, h.seqNum]
    exact
      { macKey := h.macKey
        writeKey := h.writeKey
        rcvNext := congrArg (· + _) h.rcvNext
        buf := h.buf
        accepts := h.accepts
        received := congrArg (· ++ [c.payload]) h.received
        seqNum := rfl }
  · rwa [Session.call_refused (Nat.lt_of_not_le hlen)]

/-- Any other call puts them out of step. -/
theorem Session.InStep.safe_of_call (h : s.InStep) (hdone : s.sender.handshakeDone = true)
    (hcall : (s.call c).InStep) : c.Safe := by
  by_cases hlen : c.payload.length ≤ 1900
  · rw [SendCall.safe_iff hlen]
    rw [Session.call_eq hdone hlen] at hcall
    cases houtcome : c.outcome with
    | sent => rfl
    | late =>
      -- the peer has a payload whose call returned false
      have hreceived := hcall.received
      simp only [houtcome, reduceCtorEq, if_false, h.deliver hlen, h.seqNum, if_true,
        h.received] at hreceived
      simp at hreceived
    | lost =>
      -- the record was counted, and the peer has not seen it
      have hseq := hcall.seqNum
      simp only [houtcome, reduceCtorEq, if_true, if_false, h.seqNum] at hseq
      simp at hseq
  · exact .inl (Nat.lt_of_not_le hlen)

theorem Session.handshakeDone_call : (s.call c).sender.handshakeDone = s.sender.handshakeDone := by
  by_cases hlen : c.payload.length ≤ 1900
  · by_cases hdone : s.sender.handshakeDone = true
    · rw [Session.call_eq hdone hlen]
      split <;> rfl
    · have hsend : tlsSend s.sender c.payload c.env = (false, none, s.sender) := by
        rw [tlsSend, if_neg hdone]
      rw [Session.call, hsend]
  · rw [Session.call_refused (Nat.lt_of_not_le hlen)]

end call

/-- A connection of which both ends agree stays so over a sequence of calls, after each of them,
    exactly if all are safe. -/
theorem run_inStep_iff {s : Session} (hdone : s.sender.handshakeDone = true) (h : s.InStep)
    (calls : List SendCall) :
    (∀ made, made <+: calls → (s.run made).InStep) ↔ ∀ c ∈ calls, c.Safe := by
  induction calls generalizing s with
  | nil => simpa [Session.run] using h
  | cons c calls ih =>
    have hstarts : (∀ made, made <+: c :: calls → (s.run made).InStep) ↔
        (s.call c).InStep ∧ ∀ made, made <+: calls → ((s.call c).run made).InStep := by
      constructor
      · intro hall
        exact ⟨hall [c] (by simp), fun made hmade => hall (c :: made) (by simpa using hmade)⟩
      · rintro ⟨_, hall⟩ made hmade
        cases made with
        | nil => exact h
        | cons d made =>
          obtain ⟨rfl, hmade'⟩ := List.cons_prefix_cons.mp hmade
          exact hall made hmade'
    rw [hstarts, List.forall_mem_cons]
    constructor
    · rintro ⟨hcall, hall⟩
      exact ⟨h.safe_of_call hdone hcall,
        (ih (Session.handshakeDone_call.trans hdone) hcall).mp hall⟩
    · rintro ⟨hc, hcalls⟩
      have hcall := h.call hdone hc
      exact ⟨hcall, (ih (Session.handshakeDone_call.trans hdone) hcall).mpr hcalls⟩

/-- A fresh connection of which both ends agree. -/
def exampleSession : Session where
  sender := ⟨exampleConn, [], [], 0, true⟩
  receiver := ⟨[], [], 0, exampleConn.localSeq, [], [], false⟩
  accepted := []

theorem inStep_exampleSession : exampleSession.InStep :=
  ⟨⟨rfl, rfl, rfl, rfl, rfl⟩, rfl, rfl⟩

/-- At midnight, with a card that works. -/
def exampleEnv : SendEnv := ⟨0, 0, 0, 0, .sent⟩

theorem run_inStep_example :
    exampleSession.sender.handshakeDone = true ∧ exampleSession.InStep ∧
      ((∀ made, made <+: [⟨[65], exampleEnv⟩] → (exampleSession.run made).InStep) ↔
        ∀ c ∈ [⟨[65], exampleEnv⟩], SendCall.Safe c) :=
  ⟨rfl, inStep_exampleSession, run_inStep_iff rfl inStep_exampleSession _⟩

/-- A payload of a thousand bytes does not fit a frame. -/
def longCall : SendCall := ⟨List.replicate 1000 0, exampleEnv⟩

/-- A request of one byte. -/
def shortCall : SendCall := ⟨[65], exampleEnv⟩

theorem unsent_record_desyncs :
    exampleSession.sender.handshakeDone = true ∧ exampleSession.InStep ∧
      (exampleSession.run [longCall, shortCall]).accepted = [shortCall.payload] ∧
      (exampleSession.run [longCall, shortCall]).receiver.received = [] ∧
      (exampleSession.run [longCall, shortCall]).receiver.failed = true := by
  have hlong : longCall.payload.length = 1000 := List.length_replicate
  have hlost : longCall.outcome = .lost := if_neg (by rw [hlong]; decide)
  have hsent : shortCall.outcome = .sent := by decide
  let s : Session := { exampleSession with
    sender := { exampleSession.sender with writeSeqNum := 0 + 1 } }
  have hrun : exampleSession.run [longCall, shortCall] = s.call shortCall := by
    rw [Session.run, List.foldl_cons, List.foldl_cons, List.foldl_nil,
      Session.call_lost rfl (by omega) hlost]
    rfl
  have hmirrored : s.Mirrored := by constructor <;> rfl
  -- the peer computes the MAC with the number of the record that was not sent
  have hmac : shortCall.mac [] 1 ≠ shortCall.mac [] 0 := by
    have hone : (shortCall.mac [] 1).head? = some 100 := by
      have hinner : sha256 ((hmacKeyBlock []).map (· ^^^ 0x36) ++
          macInput 1 tlsContentApplicationData tlsVersion.1 tlsVersion.2 shortCall.payload) =
          [0x99, 0x7f, 0x8a, 0xb3, 0xa4, 0x5b, 0x36, 0x11, 0x29, 0xb4, 0x4c, 0x7f, 0x5f, 0x54, 0x98,
            0x2b, 0x08, 0x3a, 0xf1, 0x7e, 0xce, 0x6c, 0xad, 0xe7, 0x99, 0x2a, 0x9e, 0xa7, 0xb7,
            0x41, 0x41, 0xbf] := by
        decide
      rw [SendCall.mac, hmac, hinner]
      decide +kernel
    have hzero : (shortCall.mac [] 0).head? = some 31 := by
      have hinner : sha256 ((hmacKeyBlock []).map (· ^^^ 0x36) ++
          macInput 0 tlsContentApplicationData tlsVersion.1 tlsVersion.2 shortCall.payload) =
          [0x92, 0x34, 0x2c, 0xee, 0xce, 0x03, 0xd7, 0xe0, 0x8b, 0x72, 0x65, 0xbb, 0x35, 0xd0, 0x10,
            0xdf, 0x41, 0xe7, 0x52, 0x4e, 0xad, 0x60, 0xb3, 0x17, 0x28, 0xe1, 0x3f, 0x96, 0x54,
            0xd1, 0xfd, 0xff] := by
        decide +kernel
      rw [SendCall.mac, hmac, hinner]
      decide +kernel
    intro heq
    rw [heq, hzero] at hone
    exact absurd hone (by decide)
  rw [hrun]
  exact ⟨rfl, inStep_exampleSession, hmirrored.call_mismatch rfl (by decide) hsent hmac⟩

end AuroraOS.Tls
