import AuroraOS.Tls.Handshake
import AuroraOS.Tls.Reassembly

/-!
# Connections and what earlier ones leave behind

The stream buffer of the record layer, the receive buffer of TCP and the handshake's flight buffer
are static and not cleared when a connection begins. A new connection does not depend on them if
what is left in the stream is only records that the handshake skips, the TCP headers it receives
are complete, and the certificates it receives are parsed within their own bytes.

## Main definitions

- `TlsCall`, `TlsStatics.after` — a history
- `newConnection` — the results of a new connection
- `Skipped`, `HeaderInside`, `CertificatesInside` — the conditions

## Main results

- `newConnection_independent`
-/

namespace AuroraOS.Tls

open AuroraOS.Net AuroraOS.Crypto

/-- A call of the TLS client. Sending touches none of the state that is kept here. -/
inductive TlsCall where
  | connect (inp : ConnectInput)
  | send
  | recv (maxLen : ℕ) (polls : List Poll)
  | close (polls : List Poll)

/-- The state after a call. -/
def TlsStatics.call (prims : Primitives) (m : TlsStatics) : TlsCall → TlsStatics
  | .connect inp => (tlsConnect prims inp m).2
  | .send => m
  | .recv maxLen polls => (tlsRecv maxLen polls m).2
  | .close polls => tlsClose polls m

/-- The state after a history. -/
def TlsStatics.after (prims : Primitives) (history : List TlsCall) : TlsStatics :=
  history.foldl (TlsStatics.call prims) .boot

/-- The results of calls of `tls_recv`, each with its buffer size and what it receives. -/
def tlsRecvs : List (ℕ × List Poll) → TlsStatics → List RecvOutcome
  | [], _ => []
  | (maxLen, polls) :: recvs, m =>
    let r := tlsRecv maxLen polls m
    r.1 :: tlsRecvs recvs r.2

/-- The results of a new connection. -/
def newConnection (prims : Primitives) (inp : ConnectInput) (recvs : List (ℕ × List Poll))
    (m : TlsStatics) : ConnectResult × List RecvOutcome :=
  let r := tlsConnect prims inp m
  (r.1, tlsRecvs recvs r.2)

/-- A TCP frame of the peer holds the fields of the TCP header that are read. -/
def HeaderInside (remoteIp : ℕ) (frame : List UInt8) : Prop :=
  ethHeaderSize + 40 ≤ frame.length → be16 frame 12 = ethertypeIpv4 →
    byteAt frame (ethHeaderSize + 9) = ipProtoTcp → le32 frame (ethHeaderSize + 12) = remoteIp →
      tcpStart frame + 14 ≤ frame.length

/-- All frames are like that. -/
def FramesInside (remoteIp : ℕ) (polls : List Poll) : Prop :=
  ∀ p ∈ polls, HeaderInside remoteIp p.frame

section prefixes

variable {buf₁ buf₂ : List UInt8} {n : ℕ}

theorem byteAt_of_take (h : buf₁.take n = buf₂.take n) {i : ℕ} (hi : i < n) :
    byteAt buf₁ i = byteAt buf₂ i := by
  have hget := congrArg (fun l => l.getD i 0) h
  simpa [byteAt, List.getD_eq_getElem?_getD, List.getElem?_take_of_lt hi] using hget

theorem be16_of_take (h : buf₁.take n = buf₂.take n) {i : ℕ} (hi : i + 1 < n) :
    be16 buf₁ i = be16 buf₂ i := by
  rw [be16, byteAt_of_take h (by omega), byteAt_of_take h hi, be16]

theorem be32_of_take (h : buf₁.take n = buf₂.take n) {i : ℕ} (hi : i + 3 < n) :
    be32 buf₁ i = be32 buf₂ i := by
  rw [be32, be16_of_take h (by omega), be16_of_take h (by omega), be32]

theorem le32_of_take (h : buf₁.take n = buf₂.take n) {i : ℕ} (hi : i + 3 < n) :
    le32 buf₁ i = le32 buf₂ i := by
  simp only [le32]
  rw [byteAt_of_take h (by omega), byteAt_of_take h (by omega), byteAt_of_take h (by omega),
    byteAt_of_take h hi]

/-- A part of the buffers. -/
theorem drop_take_of_take (h : buf₁.take n = buf₂.take n) {i k : ℕ} (hik : i + k ≤ n) :
    (buf₁.drop i).take k = (buf₂.drop i).take k := by
  have hpart : ∀ buf : List UInt8, (buf.drop i).take k = ((buf.take n).drop i).take k := by
    intro buf
    rw [List.drop_take, List.take_take, Nat.min_eq_left (by omega)]
  rw [hpart buf₁, h, ← hpart buf₂]

theorem take_of_take (h : buf₁.take n = buf₂.take n) {k : ℕ} (hk : k ≤ n) :
    buf₁.take k = buf₂.take k := by
  simpa using drop_take_of_take h (show 0 + k ≤ n by omega)

end prefixes

/-- A segment does not depend on what lies behind the frame. -/
theorem acceptSegment_of_take {conn : TcpConn} {buf₁ buf₂ : List UInt8} {len maxData : ℕ}
    (h : buf₁.take len = buf₂.take len)
    (hin : ethHeaderSize + 40 ≤ len → be16 buf₁ 12 = ethertypeIpv4 →
      byteAt buf₁ (ethHeaderSize + 9) = ipProtoTcp →
      le32 buf₁ (ethHeaderSize + 12) = conn.remoteIp → tcpStart buf₁ + 14 ≤ len) :
    acceptSegment conn buf₁ len maxData = acceptSegment conn buf₂ len maxData := by
  have heth : ethHeaderSize = 14 := rfl
  by_cases hlen : len < ethHeaderSize + 20 + 20
  · rw [acceptSegment_eq, acceptSegment_eq, if_pos hlen, if_pos hlen]
  rw [acceptSegment_eq, acceptSegment_eq, if_neg hlen, if_neg hlen,
    be16_of_take h (show 12 + 1 < len by omega),
    byteAt_of_take h (show ethHeaderSize + 9 < len by omega),
    le32_of_take h (show ethHeaderSize + 12 + 3 < len by omega)]
  by_cases htype : be16 buf₂ 12 ≠ ethertypeIpv4
  · rw [if_pos htype, if_pos htype]
  by_cases hproto : byteAt buf₂ (ethHeaderSize + 9) ≠ ipProtoTcp
  · rw [if_neg htype, if_neg htype, if_pos hproto, if_pos hproto]
  by_cases hip : le32 buf₂ (ethHeaderSize + 12) ≠ conn.remoteIp
  · rw [if_neg htype, if_neg htype, if_neg hproto, if_neg hproto, if_pos hip, if_pos hip]
  have hstart := hin (by omega)
    (by rw [be16_of_take h (show 12 + 1 < len by omega)]; exact not_not.mp htype)
    (by rw [byteAt_of_take h (show ethHeaderSize + 9 < len by omega)]; exact not_not.mp hproto)
    (by rw [le32_of_take h (show ethHeaderSize + 12 + 3 < len by omega)]; exact not_not.mp hip)
  have hihl : ipHeaderLen buf₁ = ipHeaderLen buf₂ := by
    rw [ipHeaderLen, byteAt_of_take h (by omega), ipHeaderLen]
  have htcp : tcpStart buf₁ = tcpStart buf₂ := by rw [tcpStart, hihl, tcpStart]
  rw [htcp] at hstart
  have hthl : tcpHeaderLen buf₁ = tcpHeaderLen buf₂ := by
    rw [tcpHeaderLen, htcp, byteAt_of_take h (by omega), tcpHeaderLen]
  have hoff : payloadOffset buf₁ = payloadOffset buf₂ := by
    rw [payloadOffset, htcp, hthl, payloadOffset]
  have hplen : tcpPayloadLen buf₁ = tcpPayloadLen buf₂ := by
    rw [tcpPayloadLen, be16_of_take h (by omega), hihl, hthl, tcpPayloadLen]
  rw [htcp, hoff, hplen, be16_of_take h (show tcpStart buf₂ + 1 < len by omega),
    be16_of_take h (show tcpStart buf₂ + 2 + 1 < len by omega),
    be32_of_take h (show tcpStart buf₂ + 4 + 3 < len by omega),
    byteAt_of_take h (show tcpStart buf₂ + 13 < len by omega)]
  by_cases hfit : payloadOffset buf₂ + tcpPayloadLen buf₂ > len
  · simp only [if_pos hfit]
  · rw [drop_take_of_take h
      (show payloadOffset buf₂ + min (tcpPayloadLen buf₂) maxData ≤ len by omega)]

theorem take_pollReceive (frame rxBuf : List UInt8) :
    (pollReceive frame rxBuf).take (min frame.length rxBufSize) = frame.take rxBufSize := by
  rw [pollReceive, Nat.min_comm, ← List.length_take, List.take_left]

/-- A frame is handled in the same way whatever the receive buffer held before. -/
theorem acceptSegment_pollReceive {conn : TcpConn} {frame : List UInt8}
    (h : HeaderInside conn.remoteIp frame) (rx₁ rx₂ : List UInt8) (maxData : ℕ) :
    acceptSegment conn (pollReceive frame rx₁) (min frame.length rxBufSize) maxData =
      acceptSegment conn (pollReceive frame rx₂) (min frame.length rxBufSize) maxData := by
  have heth : ethHeaderSize = 14 := rfl
  have hrx : rxBufSize = 1600 := rfl
  refine acceptSegment_of_take (by rw [take_pollReceive, take_pollReceive]) ?_
  intro hlen htype hproto hip
  have hframe : ethHeaderSize + 40 ≤ frame.length := by omega
  rw [be16_pollReceive rx₁ (by omega) (by omega)] at htype
  rw [byteAt_pollReceive rx₁ (by omega) (by omega)] at hproto
  rw [le32_pollReceive rx₁ (by omega) (by omega)] at hip
  have hin := h hframe htype hproto hip
  have hle := tcpStart_le frame
  rw [(tcpStart_pollReceive rx₁ hframe).2]
  omega

/-- Two runs of a receiving function agree but for the receive buffer. -/
def SameBut {α : Type} (r₁ r₂ : α × List Poll × TlsConn) : Prop :=
  ∃ rxBuf, r₂ = (r₁.1, r₁.2.1, { r₁.2.2 with rxBuf := rxBuf })

section receive

variable {polls : List Poll} {tls : TlsConn}

theorem FramesInside.mono {remoteIp : ℕ} {polls' : List Poll} (h : FramesInside remoteIp polls)
    (hsub : polls' ⊆ polls) : FramesInside remoteIp polls' :=
  fun p hp => h p (hsub hp)

/-- Waiting for a segment takes the same polls whatever the receive buffer held before. -/
theorem tcpWaitSegment_same {conn : TcpConn} {maxData : ℕ} {deadline : UInt32}
    {rest : List Poll} {r : Option Segment} {rx₁ rx' : List UInt8}
    (h : FramesInside conn.remoteIp polls)
    (hwait : tcpWaitSegment conn maxData deadline polls rx₁ = (r, rest, rx')) (rx₂ : List UInt8) :
    rest ⊆ polls ∧ ∃ rx, tcpWaitSegment conn maxData deadline polls rx₂ = (r, rest, rx) := by
  induction polls generalizing rx₁ rx₂ with
  | nil =>
    obtain ⟨rfl, rfl, -⟩ : none = r ∧ [] = rest ∧ rx₁ = rx' := by simpa [tcpWaitSegment] using hwait
    exact ⟨List.Subset.refl _, rx₂, rfl⟩
  | cons p ps ih =>
    rw [tcpWaitSegment] at hwait ⊢
    rw [acceptSegment_pollReceive (h p List.mem_cons_self) rx₁ rx₂] at hwait
    by_cases hticks : p.ticks < deadline
    · rw [if_pos hticks] at hwait ⊢
      cases hacc : acceptSegment conn (pollReceive p.frame rx₂) (min p.frame.length rxBufSize)
          maxData with
      | some seg =>
        rw [hacc] at hwait
        obtain ⟨rfl, rfl, -⟩ : some seg = r ∧ ps = rest ∧ _ = rx' := by simpa using hwait
        exact ⟨List.subset_cons_self p ps, _, rfl⟩
      | none =>
        rw [hacc] at hwait
        obtain ⟨hsub, hex⟩ :=
          ih (h.mono (List.subset_cons_self p ps)) hwait (pollReceive p.frame rx₂)
        exact ⟨List.Subset.trans hsub (List.subset_cons_self p ps), hex⟩
    · rw [if_neg hticks] at hwait ⊢
      obtain ⟨rfl, rfl, -⟩ : none = r ∧ p :: ps = rest ∧ rx₁ = rx' := by simpa using hwait
      exact ⟨List.Subset.refl _, rx₂, rfl⟩

theorem tlsStreamFill_same (need : ℕ) (deadline : UInt32)
    (h : FramesInside tls.tcp.remoteIp polls) (rx : List UInt8) :
    SameBut (tlsStreamFill need deadline polls tls)
      (tlsStreamFill need deadline polls { tls with rxBuf := rx }) ∧
    (tlsStreamFill need deadline polls tls).2.1 ⊆ polls ∧
    (tlsStreamFill need deadline polls tls).2.2.tcp.remoteIp = tls.tcp.remoteIp := by
  fun_induction tlsStreamFill need deadline polls tls generalizing rx with
  | case1 polls tls hneed =>
    refine ⟨⟨rx, ?_⟩, List.Subset.refl _, rfl⟩
    rw [tlsStreamFill.eq_def, if_pos hneed]
  | case2 tls hneed =>
    refine ⟨⟨rx, ?_⟩, List.Subset.refl _, rfl⟩
    rw [tlsStreamFill.eq_def, if_neg hneed]
  | case3 tls hneed p ps hticks =>
    refine ⟨⟨rx, ?_⟩, List.Subset.refl _, rfl⟩
    rw [tlsStreamFill.eq_def, if_neg hneed]
    simp only [if_pos hticks]
  | case4 tls hneed p ps hticks hwrap ih =>
    obtain ⟨hsame, hsub, hip⟩ := ih (h.mono (List.subset_cons_self p ps)) rx
    refine ⟨?_, List.Subset.trans hsub (List.subset_cons_self p ps), hip⟩
    rw [tlsStreamFill.eq_def need deadline (p :: ps) { tls with rxBuf := rx }, if_neg hneed]
    simp only [if_neg hticks, dif_pos hwrap]
    exact hsame
  | case5 tls hneed p ps hticks hwrap rest rxBuf hwait ih =>
    obtain ⟨hsub, rx', hwait'⟩ := tcpWaitSegment_same h hwait rx
    obtain ⟨hsame, hsub', hip⟩ := ih (h.mono hsub) rx'
    refine ⟨?_, List.Subset.trans hsub' hsub, hip⟩
    rw [@tlsStreamFill_cons need deadline p ps rest { tls with rxBuf := rx } none rx' hneed hticks
      hwrap hwait']
    exact hsame
  | case6 tls hneed p ps hticks hwrap seg rest rxBuf hwait tls' hempty ih =>
    obtain ⟨hsub, rx', hwait'⟩ := tcpWaitSegment_same h hwait rx
    obtain ⟨hsame, hsub', hip⟩ := ih (h.mono hsub) rx'
    refine ⟨?_, List.Subset.trans hsub' hsub, hip⟩
    rw [@tlsStreamFill_cons need deadline p ps rest { tls with rxBuf := rx } (some seg) rx' hneed
      hticks hwrap hwait']
    simp only [if_pos hempty]
    exact hsame
  | case7 tls hneed p ps hticks hwrap seg rest rxBuf hwait tls' hempty hfull =>
    obtain ⟨hsub, rx', hwait'⟩ := tcpWaitSegment_same h hwait rx
    refine ⟨⟨rx', ?_⟩, hsub, rfl⟩
    rw [@tlsStreamFill_cons need deadline p ps rest { tls with rxBuf := rx } (some seg) rx' hneed
      hticks hwrap hwait']
    have hfull' : tls.stream.length + seg.data.length > tlsStreamBufSize := hfull
    simp only [if_neg hempty, if_pos hfull']
    rfl
  | case8 tls hneed p ps hticks hwrap seg rest rxBuf hwait tls' hempty hroom ih =>
    obtain ⟨hsub, rx', hwait'⟩ := tcpWaitSegment_same h hwait rx
    obtain ⟨hsame, hsub', hip⟩ := ih (h.mono hsub) rx'
    refine ⟨?_, List.Subset.trans hsub' hsub, hip⟩
    rw [@tlsStreamFill_cons need deadline p ps rest { tls with rxBuf := rx } (some seg) rx' hneed
      hticks hwrap hwait']
    have hroom' : ¬ tls.stream.length + seg.data.length > tlsStreamBufSize := hroom
    simp only [if_neg hempty, if_neg hroom']
    exact hsame

theorem tlsOpenFragment_rxBuf (maxPayload : ℕ) (contentType versionHi versionLo : UInt8)
    (fragment rx : List UInt8) :
    tlsOpenFragment maxPayload contentType versionHi versionLo fragment { tls with rxBuf := rx } =
      ((tlsOpenFragment maxPayload contentType versionHi versionLo fragment tls).1,
        { (tlsOpenFragment maxPayload contentType versionHi versionLo fragment tls).2 with
          rxBuf := rx }) := by
  simp only [tlsOpenFragment]
  repeat' first | rfl | split

theorem tlsTakeRecord_rxBuf (maxPayload : ℕ) (encrypted : Bool) (recordLen : ℕ) (rx : List UInt8) :
    tlsTakeRecord maxPayload encrypted recordLen { tls with rxBuf := rx } =
      ((tlsTakeRecord maxPayload encrypted recordLen tls).1,
        { (tlsTakeRecord maxPayload encrypted recordLen tls).2 with rxBuf := rx }) := by
  cases encrypted with
  | false =>
    simp only [tlsTakeRecord, Bool.false_eq_true, if_false]
    split <;> rfl
  | true =>
    simp only [tlsTakeRecord, if_true, tlsOpenFragment_rxBuf]
    rfl

theorem remoteIp_tlsTakeRecord (maxPayload : ℕ) (encrypted : Bool) (recordLen : ℕ) :
    (tlsTakeRecord maxPayload encrypted recordLen tls).2.tcp = tls.tcp := by
  cases encrypted with
  | false =>
    simp only [tlsTakeRecord, Bool.false_eq_true, if_false]
    split <;> rfl
  | true =>
    simp only [tlsTakeRecord, if_true, tlsStreamConsume, tlsOpenFragment]
    repeat' first | rfl | split

/-- Receiving a record does not depend on what the receive buffer held before. -/
theorem tlsRecvRecord_same (maxPayload : ℕ) (encrypted : Bool)
    (h : FramesInside tls.tcp.remoteIp polls) (rx : List UInt8) :
    SameBut (tlsRecvRecord maxPayload encrypted polls tls)
      (tlsRecvRecord maxPayload encrypted polls { tls with rxBuf := rx }) ∧
    (tlsRecvRecord maxPayload encrypted polls tls).2.1 ⊆ polls ∧
    (tlsRecvRecord maxPayload encrypted polls tls).2.2.tcp.remoteIp = tls.tcp.remoteIp := by
  simp only [tlsRecvRecord]
  generalize clock polls + tlsRecvTimeoutTicks = deadline
  obtain ⟨⟨rx₁, h₁⟩, hsub₁, hip₁⟩ := tlsStreamFill_same 5 deadline h rx
  rw [h₁]
  generalize tlsStreamFill 5 deadline polls tls = f₁ at hsub₁ hip₁
  obtain ⟨ok₁, polls₁, tls₁⟩ := f₁
  cases ok₁ with
  | false => exact ⟨⟨rx₁, rfl⟩, hsub₁, hip₁⟩
  | true =>
    simp only at hsub₁ hip₁ ⊢
    obtain ⟨⟨rx₂, h₂⟩, hsub₂, hip₂⟩ := @tlsStreamFill_same polls₁ tls₁ (5 + be16 tls₁.stream 3)
      deadline (by rw [hip₁]; exact h.mono hsub₁) rx₁
    rw [h₂]
    generalize tlsStreamFill (5 + be16 tls₁.stream 3) deadline polls₁ tls₁ = f₂ at hsub₂ hip₂
    obtain ⟨ok₂, polls₂, tls₂⟩ := f₂
    cases ok₂ with
    | false => exact ⟨⟨rx₂, rfl⟩, List.Subset.trans hsub₂ hsub₁, hip₂.trans hip₁⟩
    | true =>
      simp only at hsub₂ hip₂ ⊢
      refine ⟨⟨rx₂, ?_⟩, List.Subset.trans hsub₂ hsub₁, ?_⟩
      · rw [tlsTakeRecord_rxBuf]
      · rw [remoteIp_tlsTakeRecord, hip₂, hip₁]

end receive

section flight

variable {prims : Primitives} {clientRandom : List UInt8}

/-- The parser looks at nothing but the certificate. -/
def ParsedInside (prims : Primitives) (der : List UInt8) : Prop :=
  ∀ rest, prims.x509ParseCertificate (der ++ rest) der.length =
    prims.x509ParseCertificate der der.length

/-- The certificate in a message. -/
def certificateOf (msg : List UInt8) : Option (List UInt8) :=
  let certLen := 65536 * (byteAt msg 7).toNat + be16 msg 8
  if byteAt msg 0 = tlsHandshakeCertificate ∧ 6 + certLen ≤ messageLen msg then
    some ((msg.drop 10).take certLen)
  else none

/-- A complete message starts at this place of a flight. -/
inductive MessageAt (data : List UInt8) : ℕ → Prop
  | first : MessageAt data 0
  | next {fp : ℕ} : MessageAt data fp → fp + 4 + messageLen (data.drop fp) ≤ data.length →
      MessageAt data (fp + 4 + messageLen (data.drop fp))

/-- The certificates of a flight are parsed within their own bytes. -/
def FlightInside (prims : Primitives) (data : List UInt8) : Prop :=
  ∀ fp, MessageAt data fp → fp + 4 + messageLen (data.drop fp) ≤ data.length →
    ∀ der, certificateOf (data.drop fp) = some der → ParsedInside prims der

theorem handleServerHello_of_take {b₁ b₂ : List UInt8} {msgLen : ℕ}
    (h : b₁.take msgLen = b₂.take msgLen) (st : Flight) :
    handleServerHello b₁ msgLen st = handleServerHello b₂ msgLen st := by
  rw [handleServerHello, handleServerHello]
  by_cases hshort : msgLen < 2 + 32 + 1
  · rw [if_pos hshort, if_pos hshort]
  rw [if_neg hshort, if_neg hshort, byteAt_of_take h (show 34 < msgLen by omega),
    drop_take_of_take h (show 2 + 32 ≤ msgLen by omega)]
  by_cases hsuite : 35 + (byteAt b₂ 34).toNat + 2 > msgLen
  · simp only [if_pos hsuite]
  · simp only [if_neg hsuite]
    rw [be16_of_take h (show 35 + (byteAt b₂ 34).toNat + 1 < msgLen by omega)]

theorem handleServerKeyExchange_of_take {b₁ b₂ : List UInt8} {msgLen : ℕ}
    (h : b₁.take msgLen = b₂.take msgLen) (st : Flight) :
    handleServerKeyExchange prims clientRandom b₁ msgLen st =
      handleServerKeyExchange prims clientRandom b₂ msgLen st := by
  rw [handleServerKeyExchange, handleServerKeyExchange]
  by_cases hshort : msgLen < 1 + 2 + 1
  · rw [if_pos hshort, if_pos hshort]
  rw [if_neg hshort, if_neg hshort, byteAt_of_take h (show 0 < msgLen by omega),
    be16_of_take h (show 1 + 1 < msgLen by omega), byteAt_of_take h (show 3 < msgLen by omega)]
  by_cases hkey : byteAt b₂ 3 ≠ 65 ∨ 4 + 65 > msgLen
  · simp only [if_pos hkey]
  simp only [if_neg hkey]
  by_cases hhead : 4 + 65 + 4 > msgLen
  · simp only [if_pos hhead]
  simp only [if_neg hhead]
  rw [byteAt_of_take h (show 4 + 65 < msgLen by omega),
    byteAt_of_take h (show 4 + 65 + 1 < msgLen by omega),
    be16_of_take h (show 4 + 65 + 2 + 1 < msgLen by omega),
    drop_take_of_take h (show 4 + 65 ≤ msgLen by omega)]
  by_cases hsig : 4 + 65 + 4 + be16 b₂ (4 + 65 + 2) ≠ msgLen
  · simp only [if_pos hsig]
  simp only [if_neg hsig]
  rw [drop_take_of_take h (show 4 + 65 + 4 + be16 b₂ (4 + 65 + 2) ≤ msgLen by omega),
    signedContent, signedContent, take_of_take h (show 4 + 65 ≤ msgLen by omega)]

/-- The parser gets the same certificate, with different memory behind it. -/
theorem handleCertificate_of_take {b₁ b₂ : List UInt8} {msgLen : ℕ}
    (h : b₁.take msgLen = b₂.take msgLen) (hlen : msgLen ≤ b₁.length)
    (hcert : 6 + (65536 * (byteAt b₁ 3).toNat + be16 b₁ 4) ≤ msgLen → ParsedInside prims
      ((b₁.drop 6).take (65536 * (byteAt b₁ 3).toNat + be16 b₁ 4))) (st : Flight) :
    handleCertificate prims b₁ msgLen st = handleCertificate prims b₂ msgLen st := by
  have hlen₂ : msgLen ≤ b₂.length := by
    have hlens := congrArg List.length h
    rw [List.length_take, List.length_take] at hlens
    omega
  rw [handleCertificate, handleCertificate]
  by_cases hshort : msgLen < 3 + 3
  · rw [if_pos hshort, if_pos hshort]
  rw [if_neg hshort, if_neg hshort, ← byteAt_of_take h (show 3 < msgLen by omega),
    ← be16_of_take h (show 4 + 1 < msgLen by omega)]
  generalize hn : 65536 * (byteAt b₁ 3).toNat + be16 b₁ 4 = certLen at hcert
  by_cases hlong : 6 + certLen > msgLen
  · simp only [if_pos hlong]
  simp only [if_neg hlong]
  have hder : ((b₁.drop 6).take certLen).length = certLen := by
    rw [List.length_take, List.length_drop]
    omega
  have hinside := hcert (by omega)
  have hparse : ∀ b : List UInt8, (b.drop 6).take certLen = (b₁.drop 6).take certLen →
      prims.x509ParseCertificate (b.drop 6) certLen =
        prims.x509ParseCertificate ((b₁.drop 6).take certLen) certLen := by
    intro b hb
    have hrest := hinside ((b.drop 6).drop certLen)
    rwa [hder, ← hb, List.take_append_drop, hb] at hrest
  rw [hparse b₁ rfl, hparse b₂ (drop_take_of_take h (by omega)).symm]

/-- A message is handled in the same way whatever follows it. -/
theorem handleMessage_of_take {msg₁ msg₂ : List UInt8} {n : ℕ} (h : msg₁.take n = msg₂.take n)
    (hn : 4 + messageLen msg₁ ≤ n) (hlen : n ≤ msg₁.length)
    (hcert : ∀ der, certificateOf msg₁ = some der → ParsedInside prims der) (st : Flight) :
    handleMessage prims clientRandom msg₁ st = handleMessage prims clientRandom msg₂ st := by
  have hmsg : messageLen msg₁ = messageLen msg₂ := by
    rw [messageLen, byteAt_of_take h (by omega), be16_of_take h (by omega), messageLen]
  have hbody : (msg₁.drop 4).take (messageLen msg₂) = (msg₂.drop 4).take (messageLen msg₂) :=
    drop_take_of_take h (by omega)
  simp only [handleMessage]
  rw [hmsg, take_of_take h (show 4 + messageLen msg₂ ≤ n by omega),
    byteAt_of_take h (show 0 < n by omega), handleServerHello_of_take hbody,
    handleServerKeyExchange_of_take hbody]
  by_cases htype : byteAt msg₂ 0 = tlsHandshakeCertificate
  · rw [@handleCertificate_of_take prims (msg₁.drop 4) (msg₂.drop 4) (messageLen msg₂) hbody
      (by rw [List.length_drop]; omega)]
    intro hfit
    refine hcert _ ?_
    have hbyte : ∀ i, byteAt (msg₁.drop 4) i = byteAt msg₁ (4 + i) := by
      intro i
      simp [byteAt, List.getD_eq_getElem?_getD]
    have hword : ∀ i, be16 (msg₁.drop 4) i = be16 msg₁ (4 + i) := by
      intro i
      rw [be16, hbyte, hbyte, be16]
      rfl
    rw [hbyte, hword] at hfit ⊢
    rw [certificateOf,
      if_pos ⟨by rw [byteAt_of_take h (by omega)]; exact htype, by rw [hmsg]; exact hfit⟩,
      List.drop_drop]
  · simp only [if_neg htype]

theorem messageLen_of_take {buf₁ buf₂ : List UInt8} {len fp : ℕ}
    (h : buf₁.take len = buf₂.take len) (hfp : fp + 4 ≤ len) :
    messageLen (buf₁.drop fp) = messageLen (buf₂.drop fp) := by
  have hhead : (buf₁.drop fp).take 4 = (buf₂.drop fp).take 4 := drop_take_of_take h hfp
  rw [messageLen, byteAt_of_take hhead (by omega), be16_of_take hhead (by omega), messageLen]

theorem certificateOf_of_take {msg₁ msg₂ : List UInt8} {n : ℕ} (h : msg₁.take n = msg₂.take n)
    (hn : 4 + messageLen msg₁ ≤ n) : certificateOf msg₁ = certificateOf msg₂ := by
  have hmsg : messageLen msg₁ = messageLen msg₂ := by
    rw [messageLen, byteAt_of_take h (by omega), be16_of_take h (by omega), messageLen]
  rw [certificateOf, certificateOf, hmsg, byteAt_of_take h (show 0 < n by omega)]
  by_cases hshort : messageLen msg₂ < 6
  · rw [if_neg (by omega), if_neg (by omega)]
  · rw [byteAt_of_take h (show 7 < n by omega), be16_of_take h (show 8 + 1 < n by omega)]
    by_cases hcert : byteAt msg₂ 0 = tlsHandshakeCertificate ∧
        6 + (65536 * (byteAt msg₂ 7).toNat + be16 msg₂ 8) ≤ messageLen msg₂
    · rw [if_pos hcert, if_pos hcert, drop_take_of_take h (by omega)]
    · rw [if_neg hcert, if_neg hcert]

/-- A turn of the loop over the messages. -/
theorem walkFlight_step {buf : List UInt8} {len fp : ℕ} (st : Flight)
    (hfit : fp + 4 + messageLen (buf.drop fp) ≤ len) :
    walkFlight prims clientRandom buf len fp st =
      match handleMessage prims clientRandom (buf.drop fp) st with
      | .error e => .error e
      | .ok st => walkFlight prims clientRandom buf len (fp + 4 + messageLen (buf.drop fp)) st := by
  rw [walkFlight.eq_def, if_pos (by omega)]
  exact if_neg (Nat.not_lt_of_le hfit)

/-- The loop over the messages does not look behind the flight. -/
theorem walkFlight_of_take {buf₁ buf₂ : List UInt8} {len fp : ℕ}
    (h : buf₁.take len = buf₂.take len) (hlen : len ≤ buf₁.length)
    (hat : MessageAt (buf₁.take len) fp) (hin : FlightInside prims (buf₁.take len)) (st : Flight) :
    walkFlight prims clientRandom buf₁ len fp st =
      walkFlight prims clientRandom buf₂ len fp st := by
  have hdata : (buf₁.take len).length = len := by
    rw [List.length_take]
    omega
  have htake : (buf₁.take len).take len = buf₁.take len := by
    rw [List.take_take, Nat.min_self]
  -- the message itself
  have hhandle : ∀ {fp} st, MessageAt (buf₁.take len) fp →
      fp + 4 + messageLen (buf₁.drop fp) ≤ len →
      handleMessage prims clientRandom (buf₁.drop fp) st =
        handleMessage prims clientRandom (buf₂.drop fp) st := by
    intro fp st hat hfit
    have hmsg : messageLen ((buf₁.take len).drop fp) = messageLen (buf₁.drop fp) :=
      messageLen_of_take htake (by omega)
    have hpart : ((buf₁.take len).drop fp).take (4 + messageLen (buf₁.drop fp)) =
        (buf₁.drop fp).take (4 + messageLen (buf₁.drop fp)) :=
      drop_take_of_take htake (by omega)
    refine handleMessage_of_take (drop_take_of_take h
      (show fp + (4 + messageLen (buf₁.drop fp)) ≤ len by omega)) (Nat.le_refl _)
      (by rw [List.length_drop]; omega) (fun der hder => ?_) st
    refine hin fp hat (by rw [hmsg, hdata]; exact hfit) der ?_
    rw [certificateOf_of_take hpart (by rw [hmsg]), hder]
  fun_induction walkFlight prims clientRandom buf₁ len fp st with
  | case1 fp st hfp msg hlong =>
    have hlong' : fp + 4 + messageLen (buf₂.drop fp) > len := by
      rw [← messageLen_of_take h hfp]
      exact hlong
    rw [walkFlight.eq_def, if_pos hfp]
    simp only [if_pos hlong']
  | case2 fp st hfp msg hfit e herr =>
    have hfit' : fp + 4 + messageLen (buf₁.drop fp) ≤ len := Nat.le_of_not_lt hfit
    rw [walkFlight_step st (by rw [← messageLen_of_take h hfp]; exact hfit'),
      ← hhandle st hat hfit', herr]
  | case3 fp st hfp msg hfit st' hok ih =>
    have hfit' : fp + 4 + messageLen (buf₁.drop fp) ≤ len := Nat.le_of_not_lt hfit
    have hmsg : messageLen ((buf₁.take len).drop fp) = messageLen (buf₁.drop fp) :=
      messageLen_of_take htake hfp
    rw [walkFlight_step st (by rw [← messageLen_of_take h hfp]; exact hfit'),
      ← hhandle st hat hfit', hok, ← messageLen_of_take h hfp]
    refine ih ?_
    have hnext := MessageAt.next hat (by rw [hmsg, hdata]; exact hfit')
    rwa [hmsg] at hnext
  | case4 fp st hfp =>
    rw [walkFlight.eq_def, if_neg hfp]

/-- The filled part of the flight buffer. -/
structure Holds (fb : FlightBuf) (data : List UInt8) : Prop where
  len_eq : fb.len = data.length
  take_eq : fb.buf.take fb.len = data

theorem Holds.append {fb : FlightBuf} {data : List UInt8} (h : Holds fb data)
    (payload : List UInt8) : Holds (fb.append payload) (data ++ payload) := by
  have hlen : (fb.append payload).len = (data ++ payload).length := by
    rw [FlightBuf.append, h.len_eq, List.length_append]
  refine ⟨hlen, ?_⟩
  rw [hlen, FlightBuf.append, h.take_eq, List.take_left]

theorem Holds.shift {fb : FlightBuf} {data : List UInt8} (h : Holds fb data) (fp : ℕ) :
    Holds (fb.shift fp) (data.drop fp) := by
  have hlen : (fb.shift fp).len = (data.drop fp).length := by
    rw [FlightBuf.shift, h.len_eq, List.length_drop]
  refine ⟨hlen, ?_⟩
  rw [hlen, FlightBuf.shift, h.take_eq, List.take_left]

theorem Holds.len_le {fb : FlightBuf} {data : List UInt8} (h : Holds fb data) :
    fb.len ≤ fb.buf.length := by
  have hlen := congrArg List.length h.take_eq
  rw [List.length_take, h.len_eq] at hlen
  rw [h.len_eq]
  omega

/-- A record is handled in the same way whatever the flight buffer held before. -/
theorem onRecord_same {contentType : UInt8} {payload data : List UInt8} {fb₁ fb₂ : FlightBuf}
    (h₁ : Holds fb₁ data) (h₂ : Holds fb₂ data)
    (hin : contentType = tlsContentHandshake → FlightInside prims (data ++ payload)) (st : Flight) :
    (onRecord prims clientRandom contentType payload fb₁ st).1 =
        (onRecord prims clientRandom contentType payload fb₂ st).1 ∧
      ((onRecord prims clientRandom contentType payload fb₁ st).1.isOk = true →
        ∃ data', Holds (onRecord prims clientRandom contentType payload fb₁ st).2 data' ∧
          Holds (onRecord prims clientRandom contentType payload fb₂ st).2 data') := by
  simp only [onRecord]
  by_cases halert : contentType = tlsContentAlert
  · simp only [if_pos halert]
    exact ⟨trivial, fun _ => ⟨data, h₁, h₂⟩⟩
  by_cases hother : contentType ≠ tlsContentHandshake
  · simp only [if_neg halert, if_pos hother]
    exact ⟨trivial, fun _ => ⟨data, h₁, h₂⟩⟩
  rw [h₁.len_eq, h₂.len_eq]
  by_cases hfull : data.length + payload.length > flightSize
  · simp only [if_neg halert, if_neg hother, if_pos hfull]
    exact ⟨trivial, fun _ => ⟨data, h₁, h₂⟩⟩
  simp only [if_neg halert, if_neg hother, if_neg hfull]
  have ha₁ := h₁.append payload
  have ha₂ := h₂.append payload
  have hlens : (fb₂.append payload).len = (fb₁.append payload).len := by
    rw [ha₁.len_eq, ha₂.len_eq]
  have htake : (fb₁.append payload).buf.take (fb₁.append payload).len =
      (fb₂.append payload).buf.take (fb₁.append payload).len := by
    rw [ha₁.take_eq, ← hlens, ha₂.take_eq]
  have hwalk :
    walkFlight prims clientRandom (fb₁.append payload).buf (fb₁.append payload).len 0 st =
      walkFlight prims clientRandom (fb₂.append payload).buf (fb₂.append payload).len 0 st := by
    rw [hlens]
    refine walkFlight_of_take htake ha₁.len_le .first ?_ st
    rw [ha₁.take_eq]
    exact hin (not_not.mp hother)
  rw [← hwalk]
  cases walkFlight prims clientRandom (fb₁.append payload).buf (fb₁.append payload).len 0 st with
  | error e => exact ⟨rfl, fun hok => absurd hok (by simp [Except.isOk, Except.toBool])⟩
  | ok r => exact ⟨rfl, fun _ => ⟨_, ha₁.shift r.1, ha₂.shift r.1⟩⟩

/-- The states at the head of the loop over the records. -/
inductive Visits (prims : Primitives) (clientRandom : List UInt8) (polls₀ : List Poll)
    (tls₀ : TlsConn) (fb₀ : FlightBuf) (st₀ : Flight) : List Poll → TlsConn → FlightBuf →
      Flight → Prop
  | start : Visits prims clientRandom polls₀ tls₀ fb₀ st₀ polls₀ tls₀ fb₀ st₀
  | next {polls polls' : List Poll} {tls tls' : TlsConn} {fb fb' : FlightBuf} {st st' : Flight}
      {contentType : UInt8} {payload : List UInt8} :
      Visits prims clientRandom polls₀ tls₀ fb₀ st₀ polls tls fb st →
      tlsRecvRecord flightSize false polls tls = (.record contentType payload, polls', tls') →
      onRecord prims clientRandom contentType payload fb st = (.ok st', fb') →
      Visits prims clientRandom polls₀ tls₀ fb₀ st₀ polls' tls' fb' st'

/-- The certificates that the loop gets from a state on are parsed within their own bytes. -/
def LoopInside (prims : Primitives) (clientRandom : List UInt8) (polls₀ : List Poll)
    (tls₀ : TlsConn) (fb₀ : FlightBuf) (st₀ : Flight) : Prop :=
  ∀ {polls polls' tls tls' fb st payload},
    Visits prims clientRandom polls₀ tls₀ fb₀ st₀ polls tls fb st →
    tlsRecvRecord flightSize false polls tls = (.record tlsContentHandshake payload, polls', tls') →
      FlightInside prims (fb.buf.take fb.len ++ payload)

/-- From a later state there is less to visit. -/
theorem Visits.trans {polls₀ polls₁ polls₂ : List Poll} {tls₀ tls₁ tls₂ : TlsConn}
    {fb₀ fb₁ fb₂ : FlightBuf} {st₀ st₁ st₂ : Flight}
    (h₁ : Visits prims clientRandom polls₀ tls₀ fb₀ st₀ polls₁ tls₁ fb₁ st₁)
    (h₂ : Visits prims clientRandom polls₁ tls₁ fb₁ st₁ polls₂ tls₂ fb₂ st₂) :
    Visits prims clientRandom polls₀ tls₀ fb₀ st₀ polls₂ tls₂ fb₂ st₂ := by
  induction h₂ with
  | start => exact h₁
  | next _ hrecv hon ih => exact .next ih hrecv hon

section turn

variable {polls polls' : List Poll} {tls tls' : TlsConn} {fb fb' : FlightBuf} {st st' : Flight}

theorem flightLoop_failed (hdone : ¬ st.gotServerHelloDone = true)
    (hrecv : tlsRecvRecord flightSize false polls tls = (.failed, polls', tls')) :
    flightLoop prims clientRandom polls tls fb st =
      (.error (.failed "Timed out waiting for the server's handshake response."), polls',
        tls', fb) := by
  rw [flightLoop.eq_def, if_neg hdone]
  split
  · next h =>
    obtain ⟨rfl, rfl⟩ : polls' = _ ∧ tls' = _ := by simpa [hrecv] using h
    rfl
  · next h => simp [hrecv] at h
  · next h => simp [hrecv] at h

theorem flightLoop_overrun (hdone : ¬ st.gotServerHelloDone = true)
    (hrecv : tlsRecvRecord flightSize false polls tls = (.overrun, polls', tls')) :
    flightLoop prims clientRandom polls tls fb st = (.error .overrun, polls', tls', fb) := by
  rw [flightLoop.eq_def, if_neg hdone]
  split
  · next h => simp [hrecv] at h
  · next h =>
    obtain ⟨rfl, rfl⟩ : polls' = _ ∧ tls' = _ := by simpa [hrecv] using h
    rfl
  · next h => simp [hrecv] at h

theorem flightLoop_record {contentType : UInt8} {payload : List UInt8}
    (hdone : ¬ st.gotServerHelloDone = true)
    (hrecv : tlsRecvRecord flightSize false polls tls =
      (.record contentType payload, polls', tls')) :
    flightLoop prims clientRandom polls tls fb st =
      match onRecord prims clientRandom contentType payload fb st with
      | (.error e, fb) => (.error (.failed e), polls', tls', fb)
      | (.ok st, fb) => flightLoop prims clientRandom polls' tls' fb st := by
  rw [flightLoop.eq_def, if_neg hdone]
  split
  · next h => simp [hrecv] at h
  · next h => simp [hrecv] at h
  · next h =>
    obtain ⟨⟨rfl, rfl⟩, rfl, rfl⟩ : (contentType = _ ∧ payload = _) ∧ polls' = _ ∧ tls' = _ := by
      simpa [hrecv] using h
    rfl

end turn

/-- The loop over the records does not depend on what the receive buffer and the flight buffer held
    before. -/
theorem flightLoop_same {polls : List Poll} {tls : TlsConn} {fb₁ fb₂ : FlightBuf} {st : Flight}
    {data rx : List UInt8} (hframes : FramesInside tls.tcp.remoteIp polls)
    (h₁ : Holds fb₁ data) (h₂ : Holds fb₂ data)
    (hin : LoopInside prims clientRandom polls tls fb₁ st) :
    ∃ rx' fb, flightLoop prims clientRandom polls { tls with rxBuf := rx } fb₂ st =
        ((flightLoop prims clientRandom polls tls fb₁ st).1,
          (flightLoop prims clientRandom polls tls fb₁ st).2.1,
          { (flightLoop prims clientRandom polls tls fb₁ st).2.2.1 with rxBuf := rx' }, fb) ∧
      (flightLoop prims clientRandom polls tls fb₁ st).2.1 ⊆ polls ∧
      (flightLoop prims clientRandom polls tls fb₁ st).2.2.1.tcp.remoteIp = tls.tcp.remoteIp := by
  fun_induction flightLoop prims clientRandom polls tls fb₁ st generalizing fb₂ data rx with
  | case1 polls tls fb₁ st hdone =>
    refine ⟨rx, fb₂, ?_, List.Subset.refl _, rfl⟩
    rw [flightLoop.eq_def, if_pos hdone]
  | case2 polls tls fb₁ st hdone polls' tls' hrecv =>
    obtain ⟨⟨rx', hsame⟩, hsub, hip⟩ := tlsRecvRecord_same flightSize false hframes rx
    rw [hrecv] at hsame hsub hip
    exact ⟨rx', fb₂, flightLoop_failed hdone hsame, hsub, hip⟩
  | case3 polls tls fb₁ st hdone polls' tls' hrecv =>
    obtain ⟨⟨rx', hsame⟩, hsub, hip⟩ := tlsRecvRecord_same flightSize false hframes rx
    rw [hrecv] at hsame hsub hip
    exact ⟨rx', fb₂, flightLoop_overrun hdone hsame, hsub, hip⟩
  | case4 polls tls fb₁ st hdone contentType payload polls' tls' hrecv e fb' hon =>
    obtain ⟨⟨rx', hsame⟩, hsub, hip⟩ := tlsRecvRecord_same flightSize false hframes rx
    rw [hrecv] at hsame hsub hip
    obtain ⟨heq, -⟩ := @onRecord_same prims clientRandom contentType payload data fb₁ fb₂ h₁ h₂
      (fun htype => by rw [← h₁.take_eq]; exact hin .start (htype ▸ hrecv)) st
    rw [hon] at heq
    refine ⟨rx', (onRecord prims clientRandom contentType payload fb₂ st).2, ?_, hsub, hip⟩
    rw [flightLoop_record hdone hsame]
    generalize onRecord prims clientRandom contentType payload fb₂ st = o at heq
    obtain ⟨o₁, o₂⟩ := o
    simp only at heq
    rw [← heq]
  | case5 polls tls fb₁ st hdone contentType payload polls' tls' hrecv st' fb' hon ih =>
    obtain ⟨⟨rx', hsame⟩, hsub, hip⟩ := tlsRecvRecord_same flightSize false hframes rx
    rw [hrecv] at hsame hsub hip
    obtain ⟨heq, hholds⟩ := @onRecord_same prims clientRandom contentType payload data fb₁ fb₂ h₁ h₂
      (fun htype => by rw [← h₁.take_eq]; exact hin .start (htype ▸ hrecv)) st
    rw [hon] at heq hholds
    obtain ⟨data', h₁', h₂'⟩ := hholds rfl
    have hin' : LoopInside prims clientRandom polls' tls' fb' st' :=
      fun hvisits => hin (Visits.trans (.next .start hrecv hon) hvisits)
    rw [flightLoop_record hdone hsame]
    generalize onRecord prims clientRandom contentType payload fb₂ st = o at heq h₂'
    obtain ⟨o₁, o₂⟩ := o
    simp only at heq h₂'
    rw [← heq]
    obtain ⟨rx'', fb'', hrun, hsub', hip'⟩ :=
      @ih _ _ rx' (by rw [hip]; exact hframes.mono hsub) h₁' h₂'
      hin'
    exact ⟨rx'', fb'', hrun, List.Subset.trans hsub' hsub, hip'.trans hip⟩

/-- Records that the handshake skips: of a type that it does not know, or empty. -/
inductive Skipped : List UInt8 → Prop
  | nil : Skipped []
  | record (r : Record) {rest : List UInt8} : r.fragment.length ≤ flightSize →
      r.contentType ≠ tlsContentAlert →
      (r.contentType ≠ tlsContentHandshake ∨ r.fragment = []) → Skipped rest →
      Skipped (r.encode ++ rest)

/-- A record that is complete once its header is there. -/
theorem tlsRecvRecord_of_fill {maxPayload : ℕ} {polls polls' : List Poll} {tls tls' : TlsConn}
    {r : Record} {rest : List UInt8}
    (hfill : tlsStreamFill 5 (clock polls + tlsRecvTimeoutTicks) polls tls = (true, polls', tls'))
    (hstream : tls'.stream = r.encode ++ rest) (hlen : r.fragment.length ≤ maxPayload) :
    tlsRecvRecord maxPayload false polls tls =
      (.record r.contentType r.fragment, polls', { tls' with stream := rest }) := by
  have hsize : tls'.stream.length = 5 + r.fragment.length + rest.length := by
    rw [hstream, List.length_append, length_encode]
  have hword : be16 tls'.stream 3 = r.fragment.length := by
    have hmax : r.fragment.length ≤ 16448 := r.fragment_le
    rw [hstream]
    simp [be16, byteAt, Record.encode]
    omega
  have htake := @tlsTakeRecord_of_carries tls' r r.fragment rest false maxPayload hstream
    (by rw [Carries, if_neg (by simp)]) hlen
  rw [if_pos (by simp)] at htake
  simp only [tlsRecvRecord, hfill, hword]
  rw [tlsStreamFill_of_le (show 5 + r.fragment.length ≤ tls'.stream.length by omega)]
  simp only [htake, Bool.false_eq_true, if_false]

/-- A complete record at the front of the stream is received at once. -/
theorem tlsRecvRecord_complete {maxPayload : ℕ} {polls : List Poll} {tls : TlsConn} {r : Record}
    {rest : List UInt8} (hstream : tls.stream = r.encode ++ rest)
    (hlen : r.fragment.length ≤ maxPayload) :
    tlsRecvRecord maxPayload false polls tls =
      (.record r.contentType r.fragment, polls, { tls with stream := rest }) := by
  have hsize : 5 ≤ tls.stream.length := by
    rw [hstream, List.length_append, length_encode]
    omega
  exact tlsRecvRecord_of_fill (tlsStreamFill_of_le hsize _ _) hstream hlen

/-- What is left of skipped records makes no difference. -/
theorem flightLoop_skipped {stream : List UInt8} (h : Skipped stream) {polls : List Poll}
    {tls : TlsConn} (hstream : tls.stream = stream) {fb : FlightBuf} (hlen : fb.len = 0)
    {st : Flight}
    (hdone : ¬ st.gotServerHelloDone = true) :
    flightLoop prims clientRandom polls tls fb st =
      flightLoop prims clientRandom polls { tls with stream := [] } fb st := by
  induction h generalizing tls with
  | nil => rw [← hstream]
  | @record r rest hmax halert htype _ ih =>
    have hon : onRecord prims clientRandom r.contentType r.fragment fb st = (.ok st, fb) := by
      rw [onRecord, if_neg halert]
      by_cases hother : r.contentType ≠ tlsContentHandshake
      · rw [if_pos hother]
      · have hempty : r.fragment = [] := htype.resolve_left hother
        have happend : fb.append [] = fb := by
          simp [FlightBuf.append]
        have hshift : fb.shift 0 = fb := by
          simp [FlightBuf.shift]
        rw [if_neg hother, hempty, if_neg (by simp [hlen])]
        simp only [happend]
        rw [hlen, walkFlight.eq_def, if_neg (by omega)]
        simp only [hshift]
    rw [flightLoop_record hdone (tlsRecvRecord_complete hstream hmax), hon]
    exact ih rfl

end flight

section connection

variable {prims : Primitives} {polls : List Poll} {tls : TlsConn}

theorem serverFinish_same (master transcript : List UInt8)
    (h : FramesInside tls.tcp.remoteIp polls) (rx : List UInt8) :
    SameBut (serverFinish master transcript polls tls)
        (serverFinish master transcript polls { tls with rxBuf := rx }) ∧
      (serverFinish master transcript polls tls).2.2.tcp.remoteIp = tls.tcp.remoteIp := by
  simp only [serverFinish]
  obtain ⟨⟨rx₁, h₁⟩, hsub₁, hip₁⟩ := tlsRecvRecord_same flightSize false h rx
  rw [h₁]
  generalize tlsRecvRecord flightSize false polls tls = r₁ at hsub₁ hip₁
  obtain ⟨r₁, polls₁, tls₁⟩ := r₁
  simp only at hsub₁ hip₁ ⊢
  cases r₁ with
  | failed => exact ⟨⟨rx₁, rfl⟩, hip₁⟩
  | overrun => exact ⟨⟨rx₁, rfl⟩, hip₁⟩
  | record contentType payload =>
    simp only
    split
    · exact ⟨⟨rx₁, rfl⟩, hip₁⟩
    · split
      · exact ⟨⟨rx₁, rfl⟩, hip₁⟩
      · obtain ⟨⟨rx₂, h₂⟩, -, hip₂⟩ := @tlsRecvRecord_same polls₁ tls₁ flightSize true
          (by rw [hip₁]; exact h.mono hsub₁) rx₁
        rw [h₂]
        generalize tlsRecvRecord flightSize true polls₁ tls₁ = r₂ at hip₂
        obtain ⟨r₂, polls₂, tls₂⟩ := r₂
        simp only at hip₂ ⊢
        cases r₂ with
        | failed => exact ⟨⟨rx₂, rfl⟩, hip₂.trans hip₁⟩
        | overrun => exact ⟨⟨rx₂, rfl⟩, hip₂.trans hip₁⟩
        | record contentType payload =>
          simp only
          split
          · exact ⟨⟨rx₂, rfl⟩, hip₂.trans hip₁⟩
          · split
            · exact ⟨⟨rx₂, rfl⟩, hip₂.trans hip₁⟩
            · exact ⟨⟨rx₂, rfl⟩, hip₂.trans hip₁⟩

theorem clientFinish_same (inp : ConnectInput) (st : Flight)
    (h : FramesInside tls.tcp.remoteIp polls) (rx : List UInt8) :
    SameBut (clientFinish prims inp st polls tls)
        (clientFinish prims inp st polls { tls with rxBuf := rx }) ∧
      (clientFinish prims inp st polls tls).2.2.tcp.remoteIp = tls.tcp.remoteIp := by
  simp only [clientFinish]
  cases checkFlight inp.hostname st with
  | error e => exact ⟨⟨rx, rfl⟩, rfl⟩
  | ok cert =>
    simp only
    cases keyExchange prims inp cert st with
    | error e => exact ⟨⟨rx, rfl⟩, rfl⟩
    | ok r =>
      simp only
      split
      · exact ⟨⟨rx, rfl⟩, rfl⟩
      · split
        · exact ⟨⟨rx, rfl⟩, rfl⟩
        · split
          · exact ⟨⟨rx, rfl⟩, rfl⟩
          · exact @serverFinish_same polls (tls.withKeys _) _ _ h rx

/-- The certificates that the server sends on a new connection are parsed within their own bytes. -/
def CertificatesInside (prims : Primitives) (inp : ConnectInput) (tcp : TcpConn) : Prop :=
  LoopInside prims inp.clientRandom inp.polls (TlsStatics.boot.tls.cleared tcp)
    ⟨TlsStatics.boot.flight, 0⟩ (Flight.start (clientHello inp.clientRandom inp.hostname))

/-- What the bytes received on a new connection must be like. -/
structure ReceivesInside (prims : Primitives) (inp : ConnectInput) (recvs : List (ℕ × List Poll)) :
    Prop where
  frames : ∀ tcp, inp.tcp = some tcp → FramesInside tcp.remoteIp inp.polls
  later_frames : ∀ tcp, inp.tcp = some tcp → ∀ r ∈ recvs, FramesInside tcp.remoteIp r.2
  certificates : ∀ tcp, inp.tcp = some tcp → CertificatesInside prims inp tcp

theorem start_not_done (hello : List UInt8) : ¬ (Flight.start hello).gotServerHelloDone = true := by
  rw [Flight.start, Flight.transcriptAppend]
  split <;> simp

/-- The handshake does not depend on what is left from before. -/
theorem tlsHandshake_same {inp : ConnectInput} {tcp : TcpConn}
    (hframes : FramesInside tcp.remoteIp inp.polls) (hcert : CertificatesInside prims inp tcp)
    {m : TlsStatics} (hskip : Skipped m.tls.stream) :
    (tlsHandshake prims inp (m.tls.cleared tcp) m.flight).1 =
        (tlsHandshake prims inp (TlsStatics.boot.tls.cleared tcp) TlsStatics.boot.flight).1 ∧
      ((tlsHandshake prims inp (TlsStatics.boot.tls.cleared tcp) TlsStatics.boot.flight).1 =
          .connected →
        ∃ rx, (tlsHandshake prims inp (m.tls.cleared tcp) m.flight).2.2.1 =
          { (tlsHandshake prims inp (TlsStatics.boot.tls.cleared tcp)
              TlsStatics.boot.flight).2.2.1 with rxBuf := rx } ∧
          (tlsHandshake prims inp (TlsStatics.boot.tls.cleared tcp)
              TlsStatics.boot.flight).2.2.1.tcp.remoteIp = tcp.remoteIp) := by
  simp only [tlsHandshake]
  generalize hhello : clientHello inp.clientRandom inp.hostname = hello
  by_cases hsent : ¬ inp.sends 0 hello
  · simp only [if_pos hsent]
    exact ⟨trivial, fun h => absurd h (by simp)⟩
  simp only [if_neg hsent]
  have hloop := @flightLoop_same prims inp.clientRandom inp.polls (TlsStatics.boot.tls.cleared tcp)
    ⟨TlsStatics.boot.flight, 0⟩ ⟨m.flight, 0⟩ (Flight.start hello) [] m.tls.rxBuf hframes
    ⟨rfl, rfl⟩ ⟨rfl, rfl⟩ (hhello ▸ hcert)
  rw [@flightLoop_skipped prims inp.clientRandom m.tls.stream hskip inp.polls
    (m.tls.cleared tcp) rfl ⟨m.flight, 0⟩ rfl _ (start_not_done hello)]
  obtain ⟨rx, fb, hrun, hsub, hip⟩ := hloop
  have hstart : ({ m.tls.cleared tcp with stream := [] } : TlsConn) =
      { TlsStatics.boot.tls.cleared tcp with rxBuf := m.tls.rxBuf } := rfl
  rw [hstart, hrun]
  generalize flightLoop prims inp.clientRandom inp.polls (TlsStatics.boot.tls.cleared tcp)
    ⟨TlsStatics.boot.flight, 0⟩ (Flight.start hello) = out at hsub hip
  obtain ⟨r, polls, tls, fb₁⟩ := out
  simp only at hsub hip ⊢
  cases r with
  | error r => exact ⟨rfl, fun _ => ⟨rx, rfl, hip⟩⟩
  | ok st =>
    simp only
    obtain ⟨⟨rx', hsame⟩, hip'⟩ := @clientFinish_same prims polls tls inp st
      (by rw [hip]; exact hframes.mono hsub) rx
    rw [hsame]
    exact ⟨rfl, fun _ => ⟨rx', rfl, hip'.trans hip⟩⟩

theorem tlsRecvs_not_done {m : TlsStatics} (h : m.handshakeDone = false)
    (recvs : List (ℕ × List Poll)) : tlsRecvs recvs m = recvs.map fun _ => .nothing := by
  induction recvs with
  | nil => rfl
  | cons r recvs ih =>
    rw [tlsRecvs, tlsRecv, tlsRecvPolls, if_pos (by simp [h]), ih]
    rfl

theorem tlsRecvs_same {recvs : List (ℕ × List Poll)}
    (h : ∀ r ∈ recvs, FramesInside tls.tcp.remoteIp r.2) (rx flight flight' : List UInt8) :
    tlsRecvs recvs ⟨{ tls with rxBuf := rx }, true, flight'⟩ =
      tlsRecvs recvs ⟨tls, true, flight⟩ := by
  induction recvs generalizing tls rx with
  | nil => rfl
  | cons r recvs ih =>
    obtain ⟨maxLen, polls⟩ := r
    obtain ⟨⟨rx₁, h₁⟩, -, hip₁⟩ := @tlsRecvRecord_same polls tls maxLen true
      (h (maxLen, polls) List.mem_cons_self) rx
    have hlater : ∀ tls' : TlsConn, tls'.tcp.remoteIp = tls.tcp.remoteIp →
        ∀ r ∈ recvs, FramesInside tls'.tcp.remoteIp r.2 := by
      intro tls' hip r hr
      rw [hip]
      exact h r (List.mem_cons_of_mem _ hr)
    simp only [tlsRecvs, tlsRecv, tlsRecvPolls]
    rw [if_neg (by simp), if_neg (by simp), h₁]
    generalize tlsRecvRecord maxLen true polls tls = out at hip₁
    obtain ⟨out, polls₁, tls₁⟩ := out
    simp only at hip₁ ⊢
    cases out with
    | failed => simp only [ih (hlater tls₁ hip₁) rx₁]
    | overrun => simp only [ih (hlater tls₁ hip₁) rx₁]
    | record contentType payload =>
      simp only
      split
      · simp only [ih (hlater tls₁ hip₁) rx₁]
      · simp only [ih (hlater tls₁ hip₁) rx₁]

/-- A new connection gives the same results as at boot. -/
theorem newConnection_eq_boot {inp : ConnectInput} {recvs : List (ℕ × List Poll)}
    (h : ReceivesInside prims inp recvs) {m : TlsStatics} (hskip : Skipped m.tls.stream) :
    newConnection prims inp recvs m = newConnection prims inp recvs .boot := by
  simp only [newConnection, tlsConnect]
  cases htcp : inp.tcp with
  | none =>
    simp only
    rw [tlsRecvs_not_done rfl, tlsRecvs_not_done rfl]
  | some tcp =>
    obtain ⟨hres, hconn⟩ := tlsHandshake_same (h.frames tcp htcp) (h.certificates tcp htcp) hskip
    simp only
    generalize tlsHandshake prims inp (m.tls.cleared tcp) m.flight = out₁ at hres hconn
    generalize tlsHandshake prims inp (TlsStatics.boot.tls.cleared tcp) TlsStatics.boot.flight =
      out₂
      at hres hconn
    obtain ⟨r₁, polls₁, tls₁, flight₁⟩ := out₁
    obtain ⟨r₂, polls₂, tls₂, flight₂⟩ := out₂
    simp only at hres hconn
    subst hres
    cases r₁ with
    | failed e =>
      simp only
      rw [tlsRecvs_not_done rfl, tlsRecvs_not_done rfl]
    | overrun =>
      simp only
      rw [tlsRecvs_not_done rfl, tlsRecvs_not_done rfl]
    | connected =>
      obtain ⟨rx, rfl, hip⟩ := hconn rfl
      simp only
      rw [tlsRecvs_same (fun r hr => by rw [hip]; exact h.later_frames tcp htcp r hr)]

end connection

/-- A new connection gives the same results after two histories, when neither leaves more than
    skipped records in the stream and what the new connection receives is parsed within its own
    bytes. -/
theorem newConnection_independent (prims : Primitives) (history₁ history₂ : List TlsCall)
    (inp : ConnectInput) (recvs : List (ℕ × List Poll))
    (h₁ : Skipped (TlsStatics.after prims history₁).tls.stream)
    (h₂ : Skipped (TlsStatics.after prims history₂).tls.stream)
    (hin : ReceivesInside prims inp recvs) :
    newConnection prims inp recvs (TlsStatics.after prims history₁) =
      newConnection prims inp recvs (TlsStatics.after prims history₂) := by
  rw [newConnection_eq_boot hin h₁, newConnection_eq_boot hin h₂]

/-- Functions for handshakes that end before a certificate. -/
def noPrimitives : Primitives where
  x509ParseCertificate := fun _ _ => none
  rsaVerifyPkcs1Sha256 := fun _ _ _ _ => false
  rsaEncryptPkcs1 := fun _ _ _ _ => none
  eccGenerateKeypair := fun _ => none
  eccComputeSharedSecret := fun _ _ => none

/-- The server's alert `handshake_failure`. -/
def failureAlert : Record := ⟨21, 3, 3, [2, 40], by decide⟩

/-- A connection that receives these frames. -/
def exampleInput (polls : List Poll) : ConnectInput where
  hostname := [0x61]
  tcp := some exampleConn
  clientRandom := List.replicate 32 7
  preMasterRandom := List.replicate 46 7
  ecdheSeed := List.replicate 32 7
  paddingSeed := 7
  sent := fun _ => true
  polls := polls

/-- Its local variables when the flight begins. -/
def exampleFlight : Flight := Flight.start (clientHello (List.replicate 32 7) [0x61])

/-- The bytes arrive in one segment. -/
def oneSegment (data : List UInt8) : ConnectInput :=
  exampleInput [⟨0, segmentFrame exampleConn exampleConn.remoteSeq 0x18 data⟩]

/-- Nothing arrives in time. -/
theorem flightLoop_timeout {prims : Primitives} {clientRandom : List UInt8} {tls : TlsConn}
    (hstream : tls.stream = []) {fb : FlightBuf} {st : Flight}
    (hdone : ¬ st.gotServerHelloDone = true) :
    flightLoop prims clientRandom [] tls fb st =
      (.error (.failed "Timed out waiting for the server's handshake response."), [], tls, fb) := by
  refine flightLoop_failed hdone ?_
  have hfill : tlsStreamFill 5 (clock [] + tlsRecvTimeoutTicks) [] tls = (false, [], tls) := by
    rw [tlsStreamFill.eq_def, if_neg (by simp [hstream])]
  simp only [tlsRecvRecord, hfill]

/-- `tls_connect` when the server's flight ends early. -/
theorem tlsConnect_of_flight {prims : Primitives} {polls rest : List Poll} {m : TlsStatics}
    {tls : TlsConn} {fb : FlightBuf} {e : String}
    (h : flightLoop prims (List.replicate 32 7) polls (m.tls.cleared exampleConn) ⟨m.flight, 0⟩
      exampleFlight = (.error (.failed e), rest, tls, fb)) :
    tlsConnect prims (exampleInput polls) m =
      (.failed e, ⟨tcpClose rest tls, false, fb.buf⟩) := by
  have hlen : (clientHello (List.replicate 32 7) [0x61]).length ≤ 1900 := by decide
  have hsent : (exampleInput polls).sends 0 (clientHello (List.replicate 32 7) [0x61]) = true := by
    rw [ConnectInput.sends, Bool.and_eq_true, decide_eq_true_eq]
    exact ⟨hlen, rfl⟩
  have hhandshake : tlsHandshake prims (exampleInput polls) (m.tls.cleared exampleConn) m.flight =
      (.failed e, rest, tls, fb.buf) := by
    rw [tlsHandshake]
    change (if ¬ (exampleInput polls).sends 0 (clientHello (List.replicate 32 7) [0x61]) = true
      then _ else _) = _
    rw [if_neg (not_not.mpr hsent)]
    erw [h]
  have htcp : (exampleInput polls).tcp = some exampleConn := rfl
  simp only [tlsConnect, htcp, hhandshake]

theorem tcpClose_nil (tls : TlsConn) : tcpClose [] tls = tls := by
  rw [tcpClose, tcpCloseLoop.eq_def]

/-- With an empty stream and nothing received, the connection times out. -/
theorem tlsConnect_silence (prims : Primitives) {m : TlsStatics} (h : m.tls.stream = []) :
    tlsConnect prims (exampleInput []) m =
      (.failed "Timed out waiting for the server's handshake response.",
        ⟨m.tls.cleared exampleConn, false, m.flight⟩) := by
  have hloop := @flightLoop_timeout prims (List.replicate 32 7) (m.tls.cleared exampleConn) h
    ⟨m.flight, 0⟩ exampleFlight (start_not_done _)
  rw [tlsConnect_of_flight hloop, tcpClose_nil]

/-- A connection that receives an alert. -/
theorem flightLoop_alert {prims : Primitives} {polls polls' : List Poll} {tls tls' : TlsConn}
    {fb : FlightBuf}
    (hrecv : tlsRecvRecord flightSize false polls tls =
      (.record failureAlert.contentType failureAlert.fragment, polls', tls')) :
    flightLoop prims (List.replicate 32 7) polls tls fb exampleFlight =
      (.error (.failed "Server sent alert: handshake_failure"), polls', tls', fb) := by
  have hdone : ¬ exampleFlight.gotServerHelloDone = true := start_not_done _
  rw [flightLoop_record hdone hrecv]
  rfl

/-- An alert that is left in the stream is taken for one of the new server. -/
theorem tlsConnect_leftover (prims : Primitives) {m : TlsStatics}
    (h : m.tls.stream = failureAlert.encode) :
    (tlsConnect prims (exampleInput []) m).1 = .failed "Server sent alert: handshake_failure" := by
  have hrecv : tlsRecvRecord flightSize false [] (m.tls.cleared exampleConn) = _ :=
    @tlsRecvRecord_complete flightSize [] (m.tls.cleared exampleConn) failureAlert []
      (by rw [List.append_nil]; exact h) (by decide)
  rw [tlsConnect_of_flight (flightLoop_alert hrecv)]

/-- A server sends two alerts in one segment: the second stays in the stream. -/
theorem stream_twoAlerts (prims : Primitives) :
    (tlsConnect prims (oneSegment (failureAlert.encode ++ failureAlert.encode))
      .boot).2.tls.stream = failureAlert.encode := by
  generalize hframe : segmentFrame exampleConn exampleConn.remoteSeq 0x18
    (failureAlert.encode ++ failureAlert.encode) = frame
  have hseg := @isSegment_segmentFrame exampleConn (by decide) exampleConn.remoteSeq 0x18
    (failureAlert.encode ++ failureAlert.encode) (by decide)
  have hroom : payloadOffset (segmentFrame exampleConn exampleConn.remoteSeq 0x18
      (failureAlert.encode ++ failureAlert.encode)) +
        (failureAlert.encode ++ failureAlert.encode).length ≤ rxBufSize := by decide
  rw [hframe] at hseg hroom
  have hwait : tcpWaitSegment exampleConn segSize (0 + tcpTimeoutTicks) [⟨0, frame⟩]
      TlsStatics.boot.tls.rxBuf =
        (some ⟨0x18, failureAlert.encode ++ failureAlert.encode⟩, [],
          pollReceive frame TlsStatics.boot.tls.rxBuf) := by
    rw [tcpWaitSegment, if_pos (show (0 : UInt32) < 0 + tcpTimeoutTicks by decide),
      acceptSegment_isSegment hseg, if_pos ⟨rfl, hroom⟩]
    rfl
  have hturn := @tlsStreamFill_of_segment 5 (0 + tlsRecvTimeoutTicks) ⟨0, frame⟩ [] []
    (TlsStatics.boot.tls.cleared exampleConn) _ _ (by decide)
    (show (0 : UInt32) < 0 + tlsRecvTimeoutTicks by decide)
    (show (0 : UInt32) < 0 + tcpTimeoutTicks by decide) hwait (by decide)
  have hlong : 5 ≤ (failureAlert.encode ++ failureAlert.encode).length := by decide
  have hfill := hturn.trans
    ((if_pos (by decide)).trans (tlsStreamFill_of_le hlong (0 + tlsRecvTimeoutTicks) []))
  have hrecv :=
    @tlsRecvRecord_of_fill flightSize [⟨0, frame⟩] [] (TlsStatics.boot.tls.cleared exampleConn)
    _ failureAlert failureAlert.encode hfill rfl (by decide)
  rw [oneSegment, hframe, tlsConnect_of_flight (flightLoop_alert hrecv), tcpClose_nil]

theorem newConnection_independent_alert :
    newConnection noPrimitives (oneSegment failureAlert.encode) []
      (TlsStatics.after noPrimitives []) =
      newConnection noPrimitives (oneSegment failureAlert.encode) []
        (TlsStatics.after noPrimitives
          [.connect (exampleInput []), .send, .recv 100 [], .close []]) := by
  have hconn := @tlsConnect_silence noPrimitives .boot rfl
  refine newConnection_independent noPrimitives [] _ (oneSegment failureAlert.encode) [] .nil ?_ ?_
  · have hafter : (TlsStatics.after noPrimitives
        [.connect (exampleInput []), .send, .recv 100 [], .close []]).tls.stream = [] := by
      simp only [TlsStatics.after, List.foldl_cons, List.foldl_nil, TlsStatics.call, hconn, tlsRecv,
        tlsRecvPolls, tlsClose, tcpClose_nil]
      rfl
    rw [hafter]
    exact .nil
  · refine ⟨fun tcp htcp p hp => ?_, fun _ _ r hr => absurd hr (by simp), fun tcp _ => ?_⟩
    · rw [List.mem_singleton.mp hp]
      intro _ _ _ _
      decide
    · intro _ _ _ _ _ _ _ _ _ _ _ _ der _ rest
      rfl

/-- A peer that sends two alerts makes the next connection fail, although that one receives
    nothing. -/
theorem old_alert_fails_connection :
    ¬ ∀ (history₁ history₂ : List TlsCall) (inp : ConnectInput) (recvs : List (ℕ × List Poll)),
      newConnection noPrimitives inp recvs (TlsStatics.after noPrimitives history₁) =
        newConnection noPrimitives inp recvs (TlsStatics.after noPrimitives history₂) := by
  intro h
  have hsame := congrArg Prod.fst
    (h [.connect (oneSegment (failureAlert.encode ++ failureAlert.encode))] [] (exampleInput []) [])
  have hleft := @tlsConnect_leftover noPrimitives
    (TlsStatics.after noPrimitives
      [.connect (oneSegment (failureAlert.encode ++ failureAlert.encode))])
    (stream_twoAlerts noPrimitives)
  have hempty := @tlsConnect_silence noPrimitives (TlsStatics.after noPrimitives []) rfl
  simp only [newConnection, hleft, hempty] at hsame
  exact absurd hsame (by decide)

end AuroraOS.Tls
