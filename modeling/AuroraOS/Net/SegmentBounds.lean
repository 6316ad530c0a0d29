import AuroraOS.Net.Tcp

/-!
# The checks on received segments

`tcp_wait_segment` checks the size of a frame against headers without options, and goes by the
header lengths that the frame itself gives.

## Main definitions

- `fieldsRead` — the header fields that are read
- `Validated` — they lie inside the frame, and so does what is accepted

## Main results

- `validated_iff`
-/

namespace AuroraOS.Net

section Reads

/-- The fields of the TCP header and the IP length that the loop of `tcp_wait_segment` reads, with
    their offsets and sizes, behind the checks of the IP header. -/
def tcpFieldsRead (conn : TcpConn) (rxBuf : List UInt8) (len maxData : ℕ) : List (ℕ × ℕ) :=
  (readTcpHeader conn rxBuf len maxData (ipHeaderLen rxBuf)).2

/-- The header fields that the loop of `tcp_wait_segment` reads with `len` bytes in the buffer. -/
def fieldsRead (conn : TcpConn) (rxBuf : List UInt8) (len maxData : ℕ) : List (ℕ × ℕ) :=
  (readSegment conn rxBuf len maxData).2

variable (conn : TcpConn) (rxBuf : List UInt8) (len maxData : ℕ)

theorem tcpFieldsRead_eq : tcpFieldsRead conn rxBuf len maxData =
    (tcpStart rxBuf, 2) ::
      if be16 rxBuf (tcpStart rxBuf) ≠ conn.remotePort.toNat then []
      else (tcpStart rxBuf + 2, 2) ::
        if be16 rxBuf (tcpStart rxBuf + 2) ≠ conn.localPort.toNat then []
        else (tcpStart rxBuf + 4, 4) ::
          if be32 rxBuf (tcpStart rxBuf + 4) ≠ conn.remoteSeq then []
          else (tcpStart rxBuf + 12, 1) :: (ethHeaderSize + 2, 2) ::
            if payloadOffset rxBuf + tcpPayloadLen rxBuf > len then []
            else [(tcpStart rxBuf + 13, 1)] := by
  simp only [tcpFieldsRead, readTcpHeader, readField, apply_ite Prod.snd]
  rfl

theorem fieldsRead_eq : fieldsRead conn rxBuf len maxData =
    if len < ethHeaderSize + 20 + 20 then []
    else (12, 2) ::
      if be16 rxBuf 12 ≠ ethertypeIpv4 then []
      else (ethHeaderSize + 9, 1) ::
        if byteAt rxBuf (ethHeaderSize + 9) ≠ ipProtoTcp then []
        else (ethHeaderSize + 12, 4) ::
          if le32 rxBuf (ethHeaderSize + 12) ≠ conn.remoteIp then []
          else (ethHeaderSize, 1) :: tcpFieldsRead conn rxBuf len maxData := by
  simp only [fieldsRead, readSegment, readField, apply_ite Prod.snd]
  rfl

end Reads

/-- The headers and the payload of a frame of `len` bytes: both headers of at least 20 bytes, the
    payload behind them and inside the frame, as long as the lengths say. -/
structure ValidFrame (buf : List UInt8) (len : ℕ) : Prop where
  ipHeader : 20 ≤ ipHeaderLen buf
  tcpHeader : 20 ≤ tcpHeaderLen buf
  headers : ethHeaderSize + ipHeaderLen buf + tcpHeaderLen buf ≤ len
  payload : payloadOffset buf + tcpPayloadLen buf ≤ len
  behind : tcpStart buf + tcpHeaderLen buf ≤ payloadOffset buf
  payloadLen : tcpPayloadLen buf + ipHeaderLen buf + tcpHeaderLen buf =
    be16 buf (ethHeaderSize + 2)

/-- A frame is checked before it is used: every header field that is read lies inside of it, and it
    is valid when `tcp_wait_segment` returns its segment. -/
structure Validated (conn : TcpConn) (maxData : ℕ) (frame rxBuf : List UInt8) : Prop where
  inside : ∀ field ∈ fieldsRead conn (pollReceive frame rxBuf) (min frame.length rxBufSize) maxData,
    field.1 + field.2 ≤ min frame.length rxBufSize
  valid : ∀ deadline ticks seg,
    (tcpWaitSegment conn maxData deadline [⟨ticks, frame⟩] rxBuf).1 = some seg →
      ValidFrame (pollReceive frame rxBuf) (min frame.length rxBufSize)

section Conditions

/-- A TCP frame of the peer that is long enough for headers without options. -/
structure FromPeer (conn : TcpConn) (frame : List UInt8) : Prop where
  length_ge : ethHeaderSize + 20 + 20 ≤ frame.length
  ethertype : be16 frame 12 = ethertypeIpv4
  protocol : byteAt frame (ethHeaderSize + 9) = ipProtoTcp
  srcIp : le32 frame (ethHeaderSize + 12) = conn.remoteIp

/-- The number of bytes at the start of the TCP header that matter: up to the first of the ports and
    the sequence number that does not match, or else to the header's length. -/
def comparedBytes (conn : TcpConn) (frame : List UInt8) : ℕ :=
  if be16 frame (tcpStart frame) ≠ conn.remotePort.toNat then 2
  else if be16 frame (tcpStart frame + 2) ≠ conn.localPort.toNat then 4
  else if be32 frame (tcpStart frame + 4) ≠ conn.remoteSeq then 8
  else 13

/-- The frame is the expected one and complete. -/
structure Expected (conn : TcpConn) (frame : List UInt8) : Prop where
  srcPort : be16 frame (tcpStart frame) = conn.remotePort.toNat
  destPort : be16 frame (tcpStart frame + 2) = conn.localPort.toNat
  seq : be32 frame (tcpStart frame + 4) = conn.remoteSeq
  complete : payloadOffset frame + tcpPayloadLen frame ≤ min frame.length rxBufSize

end Conditions

section Validation

variable {conn : TcpConn} {maxData len : ℕ} {frame buf : List UInt8} (rxBuf : List UInt8)

/-- The wrap-around of the payload's length leaves no frame that is long enough. -/
theorem payloadLen_of_complete (hlen : len ≤ rxBufSize)
    (h : payloadOffset buf + tcpPayloadLen buf ≤ len) :
    tcpPayloadLen buf + ipHeaderLen buf + tcpHeaderLen buf = be16 buf (ethHeaderSize + 2) := by
  have hip := ipHeaderLen_le buf
  have htcp := tcpHeaderLen_le buf
  have hhi := (byteAt buf (ethHeaderSize + 2)).toNat_lt
  have hlo := (byteAt buf (ethHeaderSize + 2 + 1)).toNat_lt
  have hrx : rxBufSize = 1600 := rfl
  have htotal : be16 buf (ethHeaderSize + 2) < 65536 := by
    rw [be16]
    omega
  rw [tcpPayloadLen] at h ⊢
  omega

/-- What is read behind a check is read when the check passes. -/
theorem forall_mem_cons_ite {α : Type} {P : α → Prop} {c : Prop} [Decidable c] {a : α}
    {l : List α} : (∀ x ∈ a :: if ¬c then [] else l, P x) ↔ P a ∧ (c → ∀ x ∈ l, P x) := by
  rw [List.forall_mem_cons]
  refine and_congr_right fun _ => ?_
  by_cases hc : c
  · rw [if_neg (not_not.mpr hc)]
    exact ⟨fun h _ => h, fun h => h hc⟩
  · rw [if_pos hc]
    exact iff_of_true (fun _ h => absurd h List.not_mem_nil) fun h => absurd h hc

/-- The fields of the IP header lie in the part of the frame whose size is checked. -/
theorem fieldsRead_inside_iff :
    (∀ field ∈ fieldsRead conn (pollReceive frame rxBuf) (min frame.length rxBufSize) maxData,
        field.1 + field.2 ≤ min frame.length rxBufSize) ↔
      (FromPeer conn frame →
        ∀ field ∈ tcpFieldsRead conn (pollReceive frame rxBuf) (min frame.length rxBufSize) maxData,
          field.1 + field.2 ≤ min frame.length rxBufSize) := by
  have heth : ethHeaderSize = 14 := rfl
  have hrx : rxBufSize = 1600 := rfl
  by_cases hshort : frame.length < ethHeaderSize + 20 + 20
  · rw [fieldsRead_eq, if_pos (by omega)]
    exact iff_of_true (fun _ h => absurd h List.not_mem_nil)
      fun h => absurd h.length_ge (Nat.not_le.mpr hshort)
  rw [fieldsRead_eq, if_neg (by omega), be16_pollReceive rxBuf (by omega) (by omega),
    byteAt_pollReceive rxBuf (by omega) (by omega), le32_pollReceive rxBuf (by omega) (by omega),
    forall_mem_cons_ite, forall_mem_cons_ite, forall_mem_cons_ite, List.forall_mem_cons]
  constructor
  · rintro ⟨-, h⟩ hpeer
    exact ((h hpeer.ethertype).2 hpeer.protocol).2 hpeer.srcIp |>.2
  · exact fun h => ⟨by omega, fun htype => ⟨by omega, fun hproto => ⟨by omega, fun hsrc =>
      ⟨by omega, h ⟨by omega, htype, hproto, hsrc⟩⟩⟩⟩⟩

/-- The fields of the TCP header that are read lie inside the frame if what is compared does, and
    the flags of a segment that is accepted. -/
theorem tcpFieldsRead_inside_iff (hlen : ethHeaderSize + 20 + 20 ≤ frame.length) :
    (∀ field ∈ tcpFieldsRead conn (pollReceive frame rxBuf) (min frame.length rxBufSize) maxData,
        field.1 + field.2 ≤ min frame.length rxBufSize) ↔
      tcpStart frame + comparedBytes conn frame ≤ frame.length ∧
        (Expected conn frame → tcpStart frame + 14 ≤ frame.length) := by
  have heth : ethHeaderSize = 14 := rfl
  have hrx : rxBufSize = 1600 := rfl
  have hle := tcpStart_le frame
  obtain ⟨hip, hstart⟩ := tcpStart_pollReceive rxBuf hlen
  rw [tcpFieldsRead_eq, hstart, forall_mem_cons_ite, forall_mem_cons_ite, forall_mem_cons_ite]
  constructor
  · rintro ⟨h₂, h⟩
    rw [be16_pollReceive rxBuf (by omega) (by omega)] at h
    by_cases hsrc : be16 frame (tcpStart frame) = conn.remotePort.toNat
    · obtain ⟨h₄, h⟩ := h hsrc
      rw [be16_pollReceive rxBuf (by omega) (by omega)] at h
      by_cases hdest : be16 frame (tcpStart frame + 2) = conn.localPort.toNat
      · obtain ⟨h₈, h⟩ := h hdest
        rw [be32_pollReceive rxBuf (by omega) (by omega)] at h
        by_cases hseq : be32 frame (tcpStart frame + 4) = conn.remoteSeq
        · have h₁₃ := h hseq _ List.mem_cons_self
          obtain ⟨-, hoff, hplen⟩ := payload_pollReceive rxBuf hlen (by omega)
          rw [comparedBytes, if_neg (not_not.mpr hsrc), if_neg (not_not.mpr hdest),
            if_neg (not_not.mpr hseq)]
          refine ⟨by omega, fun hexp => ?_⟩
          rw [hoff, hplen, if_neg (Nat.not_lt.mpr hexp.complete)] at h
          have h₁₄ := h hseq (tcpStart frame + 13, 1) (by simp)
          omega
        · rw [comparedBytes, if_neg (not_not.mpr hsrc), if_neg (not_not.mpr hdest), if_pos hseq]
          exact ⟨by omega, fun hexp => absurd hexp.seq hseq⟩
      · rw [comparedBytes, if_neg (not_not.mpr hsrc), if_pos hdest]
        exact ⟨by omega, fun hexp => absurd hexp.destPort hdest⟩
    · rw [comparedBytes, if_pos hsrc]
      exact ⟨by omega, fun hexp => absurd hexp.srcPort hsrc⟩
  · rintro ⟨hcompared, hexp⟩
    rw [comparedBytes] at hcompared
    have h₂ : tcpStart frame + 2 ≤ frame.length := by
      split_ifs at hcompared <;> omega
    refine ⟨by omega, fun hsrc => ?_⟩
    rw [be16_pollReceive rxBuf (by omega) (by omega)] at hsrc
    rw [if_neg (not_not.mpr hsrc)] at hcompared
    have h₄ : tcpStart frame + 4 ≤ frame.length := by
      split_ifs at hcompared <;> omega
    refine ⟨by omega, fun hdest => ?_⟩
    rw [be16_pollReceive rxBuf (by omega) (by omega)] at hdest
    rw [if_neg (not_not.mpr hdest)] at hcompared
    have h₈ : tcpStart frame + 8 ≤ frame.length := by
      split_ifs at hcompared <;> omega
    refine ⟨by omega, fun hseq => ?_⟩
    rw [be32_pollReceive rxBuf (by omega) (by omega)] at hseq
    rw [if_neg (not_not.mpr hseq)] at hcompared
    obtain ⟨-, hoff, hplen⟩ := payload_pollReceive rxBuf hlen hcompared
    rw [hoff, hplen, List.forall_mem_cons, List.forall_mem_cons]
    refine ⟨by omega, by omega, ?_⟩
    split_ifs with hcomplete
    · exact fun _ h => absurd h List.not_mem_nil
    · have h₁₄ := hexp ⟨hsrc, hdest, hseq, Nat.not_lt.mp hcomplete⟩
      rw [List.forall_mem_singleton]
      omega

/-- The segment of a complete frame of the peer with the expected ports and number is accepted, as
    long as what is compared lies inside the frame. -/
theorem exists_acceptSegment_iff (hlen : ethHeaderSize + 20 + 20 ≤ frame.length)
    (hcompared : tcpStart frame + comparedBytes conn frame ≤ frame.length)
    (hpeer : FromPeer conn frame) :
    (∃ seg, acceptSegment conn (pollReceive frame rxBuf) (min frame.length rxBufSize) maxData =
        some seg) ↔ Expected conn frame := by
  have heth : ethHeaderSize = 14 := rfl
  have hrx : rxBufSize = 1600 := rfl
  have hle := tcpStart_le frame
  obtain ⟨-, hstart⟩ := tcpStart_pollReceive rxBuf hlen
  rw [comparedBytes] at hcompared
  have h₂ : tcpStart frame + 2 ≤ frame.length := by
    split_ifs at hcompared <;> omega
  rw [acceptSegment_eq, if_neg (by omega), be16_pollReceive rxBuf (by omega) (by omega),
    if_neg (not_not.mpr hpeer.ethertype), byteAt_pollReceive rxBuf (by omega) (by omega),
    if_neg (not_not.mpr hpeer.protocol), le32_pollReceive rxBuf (by omega) (by omega),
    if_neg (not_not.mpr hpeer.srcIp), hstart, be16_pollReceive rxBuf (by omega) (by omega)]
  by_cases hsrc : be16 frame (tcpStart frame) = conn.remotePort.toNat
  swap
  · rw [if_pos hsrc]
    exact iff_of_false (fun h => absurd h.choose_spec (by simp)) fun h => hsrc h.srcPort
  rw [if_neg (not_not.mpr hsrc)] at hcompared ⊢
  have h₄ : tcpStart frame + 4 ≤ frame.length := by
    split_ifs at hcompared <;> omega
  rw [be16_pollReceive rxBuf (by omega) (by omega)]
  by_cases hdest : be16 frame (tcpStart frame + 2) = conn.localPort.toNat
  swap
  · rw [if_pos hdest]
    exact iff_of_false (fun h => absurd h.choose_spec (by simp)) fun h => hdest h.destPort
  rw [if_neg (not_not.mpr hdest)] at hcompared ⊢
  have h₈ : tcpStart frame + 8 ≤ frame.length := by
    split_ifs at hcompared <;> omega
  rw [be32_pollReceive rxBuf (by omega) (by omega)]
  by_cases hseq : be32 frame (tcpStart frame + 4) = conn.remoteSeq
  swap
  · rw [if_pos hseq]
    exact iff_of_false (fun h => absurd h.choose_spec (by simp)) fun h => hseq h.seq
  rw [if_neg (not_not.mpr hseq)] at hcompared ⊢
  obtain ⟨-, hoff, hplen⟩ := payload_pollReceive rxBuf hlen hcompared
  rw [hoff, hplen]
  by_cases hcomplete : payloadOffset frame + tcpPayloadLen frame ≤ min frame.length rxBufSize
  · rw [if_neg (Nat.not_lt.mpr hcomplete)]
    exact iff_of_true ⟨_, rfl⟩ ⟨hsrc, hdest, hseq, hcomplete⟩
  · rw [if_pos (Nat.not_le.mp hcomplete)]
    exact iff_of_false (fun h => absurd h.choose_spec (by simp)) fun h => hcomplete h.complete

/-- Nothing is accepted from elsewhere. -/
theorem FromPeer.of_acceptSegment {seg : Segment}
    (h : acceptSegment conn (pollReceive frame rxBuf) (min frame.length rxBufSize) maxData =
      some seg) : FromPeer conn frame := by
  have heth : ethHeaderSize = 14 := rfl
  have hrx : rxBufSize = 1600 := rfl
  simp only [acceptSegment_eq, Option.ite_none_left_eq_some, not_not] at h
  obtain ⟨hlen, htype, hproto, hsrc, -⟩ := h
  rw [be16_pollReceive rxBuf (by omega) (by omega)] at htype
  rw [byteAt_pollReceive rxBuf (by omega) (by omega)] at hproto
  rw [le32_pollReceive rxBuf (by omega) (by omega)] at hsrc
  exact ⟨by omega, htype, hproto, hsrc⟩

/-- With a single frame, `tcp_wait_segment` returns its segment or nothing. -/
theorem tcpWaitSegment_single {deadline ticks : UInt32} :
    (tcpWaitSegment conn maxData deadline [⟨ticks, frame⟩] rxBuf).1 =
      if ticks < deadline then
        acceptSegment conn (pollReceive frame rxBuf) (min frame.length rxBufSize) maxData
      else none := by
  rw [tcpWaitSegment]
  split_ifs
  · cases acceptSegment conn (pollReceive frame rxBuf) (min frame.length rxBufSize) maxData <;> rfl
  · rfl

end Validation

/-- Every received frame is checked before it is used if and only if, of a frame of the peer, what
    is compared of the TCP header lies inside the frame, and the header lengths of the expected
    frame are at least 20. -/
theorem validated_iff (conn : TcpConn) (maxData : ℕ) (frame rxBuf : List UInt8) :
    Validated conn maxData frame rxBuf ↔
      (FromPeer conn frame → tcpStart frame + comparedBytes conn frame ≤ frame.length ∧
        (Expected conn frame → 20 ≤ ipHeaderLen frame ∧ 20 ≤ tcpHeaderLen frame)) := by
  constructor
  · rintro ⟨hinside, hvalid⟩ hpeer
    have hlen := hpeer.length_ge
    obtain ⟨hcompared, hflags⟩ :=
      (tcpFieldsRead_inside_iff rxBuf hlen).mp ((fieldsRead_inside_iff rxBuf).mp hinside hpeer)
    refine ⟨hcompared, fun hexp => ?_⟩
    obtain ⟨seg, hseg⟩ := (exists_acceptSegment_iff rxBuf hlen hcompared hpeer).mpr hexp
    have hframe := hvalid 1 0 seg (by rw [tcpWaitSegment_single, if_pos (by decide), hseg])
    have hinside := hflags hexp
    obtain ⟨hip, -⟩ := tcpStart_pollReceive rxBuf hlen
    obtain ⟨htcp, -, -⟩ := payload_pollReceive rxBuf hlen (by omega)
    exact ⟨hip ▸ hframe.ipHeader, htcp ▸ hframe.tcpHeader⟩
  · intro h
    constructor
    · refine (fieldsRead_inside_iff rxBuf).mpr fun hpeer => ?_
      obtain ⟨hcompared, hlens⟩ := h hpeer
      refine (tcpFieldsRead_inside_iff rxBuf hpeer.length_ge).mpr ⟨hcompared, fun hexp => ?_⟩
      obtain ⟨-, htcp⟩ := hlens hexp
      have hcomplete := hexp.complete
      rw [payloadOffset] at hcomplete
      omega
    · intro deadline ticks seg hseg
      rw [tcpWaitSegment_single] at hseg
      split_ifs at hseg
      have hpeer := FromPeer.of_acceptSegment rxBuf hseg
      have hlen := hpeer.length_ge
      obtain ⟨hcompared, hlens⟩ := h hpeer
      have hexp := (exists_acceptSegment_iff rxBuf hlen hcompared hpeer).mp ⟨seg, hseg⟩
      obtain ⟨hip, htcp⟩ := hlens hexp
      have hcomplete := hexp.complete
      have hinside : tcpStart frame + 13 ≤ frame.length := by
        rw [payloadOffset] at hcomplete
        omega
      obtain ⟨hip', hstart⟩ := tcpStart_pollReceive rxBuf hlen
      obtain ⟨htcp', hoff, hplen⟩ := payload_pollReceive rxBuf hlen hinside
      have hpayload : payloadOffset (pollReceive frame rxBuf) +
          tcpPayloadLen (pollReceive frame rxBuf) ≤ min frame.length rxBufSize := by
        rwa [hoff, hplen]
      exact
        { ipHeader := hip' ▸ hip
          tcpHeader := htcp' ▸ htcp
          headers := (Nat.le_add_right _ _).trans hpayload
          payload := hpayload
          behind := le_refl _
          payloadLen := payloadLen_of_complete (min_le_right _ _) hpayload }

/-- A TCP header length of 0 is accepted, with the payload in the header's place. -/
theorem tcpWaitSegment_shortHeader :
    ¬∀ conn maxData frame rxBuf, Validated conn maxData frame rxBuf := by
  intro hall
  have h := (hall exampleConn 970
    ((segmentFrame exampleConn exampleConn.remoteSeq 0x18 []).set 46 0) []).valid 1 0
    ⟨0x18, [0, 80, 192, 0, 0, 0, 32, 1, 0, 0, 0, 0, 0, 24, 0, 0, 0, 0, 0, 0]⟩ rfl
  exact absurd h.tcpHeader (by decide)

end AuroraOS.Net
