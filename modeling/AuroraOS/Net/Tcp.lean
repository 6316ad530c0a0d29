import Mathlib.Data.List.Basic
import Mathlib.Tactic.Common
import Mathlib.Tactic.Ring

/-!
# Receiving TCP segments

`tcp_wait_segment` of `kernel/net.c`, on the bytes of the received frames. The receive buffer is
part of the state, since the function reads headers at offsets that the frame itself gives and
may see bytes of an earlier frame there.

What arrives is a list of polls: the clock when the loop tests its deadline, and the frame that
`e1000_poll_receive` then finds (the empty frame when there is none). A list that ends means that
nothing happens until every deadline has passed. The clock and the deadlines are `uint32_t`: the
sum of a clock and a timeout can wrap around, and is then in the past.

## Main definitions

- `TcpConn`, `acceptSegment`, `tcpWaitSegment`
- `IsSegment` — a frame carries a segment of the connection
- `Foreign` — a frame belongs to somebody else

## Main results

- `acceptSegment_isSegment`, `acceptSegment_foreign` — what becomes of such frames
-/

namespace AuroraOS.Net

/-- `struct tcp_conn`, without the peer's MAC address, which is only used to send. -/
structure TcpConn where
  remoteIp : ℕ
  localPort : UInt16
  remotePort : UInt16
  /-- the next byte to send -/
  localSeq : UInt32
  /-- the next byte expected from the peer -/
  remoteSeq : UInt32

/-- `remote_seq += n`. -/
def TcpConn.advance (conn : TcpConn) (n : ℕ) : TcpConn :=
  { conn with remoteSeq := conn.remoteSeq + UInt32.ofNat n }

@[simp]
theorem TcpConn.advance_zero (conn : TcpConn) : conn.advance 0 = conn := by
  simp [TcpConn.advance]

/-- `buf[i]`. -/
def byteAt (buf : List UInt8) (i : ℕ) : UInt8 := buf.getD i 0

/-- A 16-bit number in network byte order, as `ntohs` reads it. -/
def be16 (buf : List UInt8) (i : ℕ) : ℕ := 256 * (byteAt buf i).toNat + (byteAt buf (i + 1)).toNat

/-- A 32-bit number in network byte order, as `ntohl` reads it. -/
def be32 (buf : List UInt8) (i : ℕ) : UInt32 :=
  UInt32.ofNat (65536 * be16 buf i + be16 buf (i + 2))

/-- A 32-bit number as the processor reads it, used for addresses, which stay in network order. -/
def le32 (buf : List UInt8) (i : ℕ) : ℕ :=
  (byteAt buf i).toNat + 256 * (byteAt buf (i + 1)).toNat +
    65536 * (byteAt buf (i + 2)).toNat + 16777216 * (byteAt buf (i + 3)).toNat

/-- The bytes of a 16-bit number, as `htons` stores it. -/
def bytes16 (n : ℕ) : List UInt8 := [UInt8.ofNat (n / 256), UInt8.ofNat n]

theorem length_bytes16 (n : ℕ) : (bytes16 n).length = 2 := rfl

/-- The bytes of a 32-bit number, as `htonl` stores it. -/
def bytes32 (n : UInt32) : List UInt8 := bytes16 (n.toNat / 65536) ++ bytes16 n.toNat

/-- The bytes of an address, which is in network order already. -/
def addressBytes (ip : ℕ) : List UInt8 :=
  [UInt8.ofNat ip, UInt8.ofNat (ip / 256), UInt8.ofNat (ip / 65536), UInt8.ofNat (ip / 16777216)]

/-- `ETHERTYPE_IPV4`. -/
def ethertypeIpv4 : ℕ := 0x0800

/-- `IP_PROTO_TCP`. -/
def ipProtoTcp : UInt8 := 6

/-- `IP_PROTO_UDP`. -/
def ipProtoUdp : UInt8 := 17

/-- `TCP_FLAG_FIN`. -/
def tcpFlagFin : UInt8 := 0x01

/-- `TCP_TIMEOUT_TICKS`. -/
def tcpTimeoutTicks : UInt32 := 500

/-- The size of `rx_buf`. -/
def rxBufSize : ℕ := 1600

/-- The size of an Ethernet header. -/
def ethHeaderSize : ℕ := 14

/-- `ip_header_len`, the length that the IP header gives for itself. -/
def ipHeaderLen (buf : List UInt8) : ℕ := (byteAt buf ethHeaderSize).toNat % 16 * 4

/-- Where the TCP header starts. -/
def tcpStart (buf : List UInt8) : ℕ := ethHeaderSize + ipHeaderLen buf

/-- `tcp_header_len`. -/
def tcpHeaderLen (buf : List UInt8) : ℕ := (byteAt buf (tcpStart buf + 12)).toNat / 16 * 4

/-- `payload_offset`. -/
def payloadOffset (buf : List UInt8) : ℕ := tcpStart buf + tcpHeaderLen buf

/-- `tcp_payload_len`, computed in 16 bits. -/
def tcpPayloadLen (buf : List UInt8) : ℕ :=
  (((be16 buf (ethHeaderSize + 2) : ℤ) - ipHeaderLen buf - tcpHeaderLen buf) % 65536).toNat

/-- What `tcp_wait_segment` hands back: `out_flags` and `out_data`. -/
structure Segment where
  flags : UInt8
  data : List UInt8

/-- Reads the field of `size` bytes at `i` and goes on with its value. A result comes with the list
    of the fields, by offset and size, that are read for it. -/
def readField {α β : Type} (value : List UInt8 → ℕ → β) (size : ℕ) (rxBuf : List UInt8) (i : ℕ)
    (next : β → α × List (ℕ × ℕ)) : α × List (ℕ × ℕ) :=
  ((next (value rxBuf i)).1, (i, size) :: (next (value rxBuf i)).2)

/-- The body of the loop of `tcp_wait_segment` from the TCP header on. -/
def readTcpHeader (conn : TcpConn) (rxBuf : List UInt8) (len maxData ipHeaderLen : ℕ) :
    Option Segment × List (ℕ × ℕ) :=
  let tcp := ethHeaderSize + ipHeaderLen
  readField be16 2 rxBuf tcp fun srcPort =>
    if srcPort ≠ conn.remotePort.toNat then (none, [])
    else readField be16 2 rxBuf (tcp + 2) fun destPort =>
      if destPort ≠ conn.localPort.toNat then (none, [])
      else readField be32 4 rxBuf (tcp + 4) fun segSeq =>
        if segSeq ≠ conn.remoteSeq then (none, [])
        else readField byteAt 1 rxBuf (tcp + 12) fun dataOffset =>
          let tcpHeaderLen := dataOffset.toNat / 16 * 4
          readField be16 2 rxBuf (ethHeaderSize + 2) fun ipTotalLen =>
            let tcpPayloadLen := (((ipTotalLen : ℤ) - ipHeaderLen - tcpHeaderLen) % 65536).toNat
            let payloadOffset := tcp + tcpHeaderLen
            if payloadOffset + tcpPayloadLen > len then (none, [])
            else readField byteAt 1 rxBuf (tcp + 13) fun flags =>
              (some ⟨flags, (rxBuf.drop payloadOffset).take (min tcpPayloadLen maxData)⟩, [])

/-- The body of the loop of `tcp_wait_segment`, with `len` bytes just received into `rxBuf`, and the
    header fields that it reads. `none` stands for `continue`. -/
def readSegment (conn : TcpConn) (rxBuf : List UInt8) (len maxData : ℕ) :
    Option Segment × List (ℕ × ℕ) :=
  if len < ethHeaderSize + 20 + 20 then (none, [])
  else readField be16 2 rxBuf 12 fun ethertype =>
    if ethertype ≠ ethertypeIpv4 then (none, [])
    else readField byteAt 1 rxBuf (ethHeaderSize + 9) fun protocol =>
      if protocol ≠ ipProtoTcp then (none, [])
      else readField le32 4 rxBuf (ethHeaderSize + 12) fun srcIp =>
        if srcIp ≠ conn.remoteIp then (none, [])
        else readField byteAt 1 rxBuf ethHeaderSize fun versionIhl =>
          readTcpHeader conn rxBuf len maxData (versionIhl.toNat % 16 * 4)

/-- The body of the loop of `tcp_wait_segment`. -/
def acceptSegment (conn : TcpConn) (rxBuf : List UInt8) (len maxData : ℕ) : Option Segment :=
  (readSegment conn rxBuf len maxData).1

theorem acceptSegment_eq (conn : TcpConn) (rxBuf : List UInt8) (len maxData : ℕ) :
    acceptSegment conn rxBuf len maxData =
      if len < ethHeaderSize + 20 + 20 then none
      else if be16 rxBuf 12 ≠ ethertypeIpv4 then none
      else if byteAt rxBuf (ethHeaderSize + 9) ≠ ipProtoTcp then none
      else if le32 rxBuf (ethHeaderSize + 12) ≠ conn.remoteIp then none
      else if be16 rxBuf (tcpStart rxBuf) ≠ conn.remotePort.toNat then none
      else if be16 rxBuf (tcpStart rxBuf + 2) ≠ conn.localPort.toNat then none
      else if be32 rxBuf (tcpStart rxBuf + 4) ≠ conn.remoteSeq then none
      else if payloadOffset rxBuf + tcpPayloadLen rxBuf > len then none
      else some
        { flags := byteAt rxBuf (tcpStart rxBuf + 13)
          data := (rxBuf.drop (payloadOffset rxBuf)).take
            (min (tcpPayloadLen rxBuf) maxData) } := by
  rw [acceptSegment, readSegment]
  simp only [readTcpHeader, readField, apply_ite Prod.fst]
  rfl

/-- One turn of a loop: the clock at its test and the frame that is found if the turn gets to the
    poll. -/
structure Poll where
  ticks : UInt32
  frame : List UInt8

/-- `e1000_poll_receive` copies a frame into the buffer, at most `rxBufSize` bytes of it. -/
def pollReceive (frame rxBuf : List UInt8) : List UInt8 :=
  frame.take rxBufSize ++ rxBuf.drop (min frame.length rxBufSize)

/-- `tcp_wait_segment`, from the test of the deadline on: the segment if one was accepted, what
    is left of the polls and the receive buffer. -/
def tcpWaitSegment (conn : TcpConn) (maxData : ℕ) (deadline : UInt32) :
    List Poll → List UInt8 → Option Segment × List Poll × List UInt8
  | [], rxBuf => (none, [], rxBuf)
  | p :: ps, rxBuf =>
    if p.ticks < deadline then
      match acceptSegment conn (pollReceive p.frame rxBuf) (min p.frame.length rxBufSize)
          maxData with
      | some seg => (some seg, ps, pollReceive p.frame rxBuf)
      | none => tcpWaitSegment conn maxData deadline ps (pollReceive p.frame rxBuf)
    else (none, p :: ps, rxBuf)

/-- A frame that carries a segment of the connection: headers of any legal length, then the data,
    then any padding. -/
structure IsSegment (conn : TcpConn) (seq : UInt32) (flags : UInt8) (data frame : List UInt8) :
    Prop where
  ethertype : be16 frame 12 = ethertypeIpv4
  protocol : byteAt frame (ethHeaderSize + 9) = ipProtoTcp
  srcIp : le32 frame (ethHeaderSize + 12) = conn.remoteIp
  ipHeader : 20 ≤ ipHeaderLen frame
  srcPort : be16 frame (tcpStart frame) = conn.remotePort.toNat
  destPort : be16 frame (tcpStart frame + 2) = conn.localPort.toNat
  seq_eq : be32 frame (tcpStart frame + 4) = seq
  flags_eq : byteAt frame (tcpStart frame + 13) = flags
  tcpHeader : 20 ≤ tcpHeaderLen frame
  totalLength : be16 frame (ethHeaderSize + 2) =
    ipHeaderLen frame + tcpHeaderLen frame + data.length
  length_le : payloadOffset frame + data.length ≤ frame.length
  data_eq : (frame.drop (payloadOffset frame)).take data.length = data

/-- A frame that is nothing of this connection: too short, of another protocol, from another host
    or with a complete TCP header for other ports. -/
def Foreign (conn : TcpConn) (frame : List UInt8) : Prop :=
  frame.length < ethHeaderSize + 20 + 20 ∨ be16 frame 12 ≠ ethertypeIpv4 ∨
    byteAt frame (ethHeaderSize + 9) ≠ ipProtoTcp ∨
    le32 frame (ethHeaderSize + 12) ≠ conn.remoteIp ∨
    (tcpStart frame + 20 ≤ frame.length ∧
      (be16 frame (tcpStart frame) ≠ conn.remotePort.toNat ∨
        be16 frame (tcpStart frame + 2) ≠ conn.localPort.toNat))

section pollReceive

variable {frame : List UInt8} (rxBuf : List UInt8)

theorem byteAt_pollReceive {i : ℕ} (hi : i < frame.length) (hi' : i < rxBufSize) :
    byteAt (pollReceive frame rxBuf) i = byteAt frame i := by
  have htake : i < (frame.take rxBufSize).length := by
    rw [List.length_take]
    omega
  rw [byteAt, byteAt, pollReceive, List.getD_eq_getElem?_getD, List.getD_eq_getElem?_getD,
    List.getElem?_append_left htake, List.getElem?_take_of_lt hi']

theorem be16_pollReceive {i : ℕ} (hi : i + 1 < frame.length) (hi' : i + 1 < rxBufSize) :
    be16 (pollReceive frame rxBuf) i = be16 frame i := by
  rw [be16, byteAt_pollReceive rxBuf (by omega) (by omega), byteAt_pollReceive rxBuf hi hi', be16]

theorem be32_pollReceive {i : ℕ} (hi : i + 3 < frame.length) (hi' : i + 3 < rxBufSize) :
    be32 (pollReceive frame rxBuf) i = be32 frame i := by
  rw [be32, be16_pollReceive rxBuf (by omega) (by omega), be16_pollReceive rxBuf (by omega)
    (by omega), be32]

theorem le32_pollReceive {i : ℕ} (hi : i + 3 < frame.length) (hi' : i + 3 < rxBufSize) :
    le32 (pollReceive frame rxBuf) i = le32 frame i := by
  simp only [le32]
  rw [byteAt_pollReceive rxBuf (by omega) (by omega),
    byteAt_pollReceive rxBuf (by omega) (by omega),
    byteAt_pollReceive rxBuf (by omega) (by omega), byteAt_pollReceive rxBuf hi hi']

theorem ipHeaderLen_le (buf : List UInt8) : ipHeaderLen buf ≤ 60 := by
  rw [ipHeaderLen]
  omega

theorem tcpHeaderLen_le (buf : List UInt8) : tcpHeaderLen buf ≤ 60 := by
  have hbyte := (byteAt buf (tcpStart buf + 12)).toNat_lt
  rw [tcpHeaderLen]
  omega

theorem tcpStart_le (buf : List UInt8) : tcpStart buf ≤ 74 := by
  have hlen := ipHeaderLen_le buf
  rw [tcpStart, ethHeaderSize]
  omega

/-- The IP header's length is read from the frame. -/
theorem tcpStart_pollReceive (hlen : ethHeaderSize + 40 ≤ frame.length) :
    ipHeaderLen (pollReceive frame rxBuf) = ipHeaderLen frame ∧
      tcpStart (pollReceive frame rxBuf) = tcpStart frame := by
  have hihl : ipHeaderLen (pollReceive frame rxBuf) = ipHeaderLen frame := by
    rw [ipHeaderLen, byteAt_pollReceive rxBuf (by omega) (by decide), ipHeaderLen]
  exact ⟨hihl, by rw [tcpStart, hihl, tcpStart]⟩

/-- So is what it says about the payload, with the TCP header's length inside. -/
theorem payload_pollReceive (hlen : ethHeaderSize + 40 ≤ frame.length)
    (hinside : tcpStart frame + 13 ≤ frame.length) :
    tcpHeaderLen (pollReceive frame rxBuf) = tcpHeaderLen frame ∧
      payloadOffset (pollReceive frame rxBuf) = payloadOffset frame ∧
      tcpPayloadLen (pollReceive frame rxBuf) = tcpPayloadLen frame := by
  have heth : ethHeaderSize = 14 := rfl
  have hrx : rxBufSize = 1600 := rfl
  have hle := tcpStart_le frame
  obtain ⟨hihl, hstart⟩ := tcpStart_pollReceive rxBuf hlen
  have hthl : tcpHeaderLen (pollReceive frame rxBuf) = tcpHeaderLen frame := by
    rw [tcpHeaderLen, hstart, byteAt_pollReceive rxBuf (by omega) (by omega), tcpHeaderLen]
  refine ⟨hthl, by rw [payloadOffset, hstart, hthl, payloadOffset], ?_⟩
  rw [tcpPayloadLen, be16_pollReceive rxBuf (by omega) (by omega), hihl, hthl, tcpPayloadLen]

end pollReceive

/-- A foreign frame is skipped. -/
theorem acceptSegment_foreign {conn : TcpConn} {frame : List UInt8} (h : Foreign conn frame)
    (rxBuf : List UInt8) (maxData : ℕ) :
    acceptSegment conn (pollReceive frame rxBuf) (min frame.length rxBufSize) maxData = none := by
  by_cases hshort : frame.length < ethHeaderSize + 40
  · rw [acceptSegment_eq, if_pos (by omega)]
  have hlen : ethHeaderSize + 40 ≤ frame.length := Nat.le_of_not_lt hshort
  have hsize : ethHeaderSize + 40 ≤ min frame.length rxBufSize := le_min hlen (by decide)
  have heth : ethHeaderSize = 14 := rfl
  have hrx : rxBufSize = 1600 := rfl
  obtain ⟨_, hstart⟩ := tcpStart_pollReceive rxBuf hlen
  have hle := tcpStart_le frame
  rw [acceptSegment_eq, if_neg (by omega), be16_pollReceive rxBuf (by omega) (by omega),
    byteAt_pollReceive rxBuf (by omega) (by omega), le32_pollReceive rxBuf (by omega) (by omega),
    hstart]
  obtain h | h | h | h | ⟨hfull, h⟩ := h
  · omega
  · rw [if_pos h]
  · rw [if_pos h]
    split <;> rfl
  · rw [if_pos h]
    repeat' split <;> try rfl
  · rw [be16_pollReceive rxBuf (by omega) (by omega), be16_pollReceive rxBuf (by omega) (by omega)]
    obtain h | h := h
    · rw [if_pos h]
      repeat' split <;> try rfl
    · rw [if_pos h]
      repeat' split <;> try rfl

/-- A segment of the connection is accepted when its number is the expected one and it fits into
    the receive buffer; at most `maxData` bytes of it are handed on. -/
theorem acceptSegment_isSegment {conn : TcpConn} {seq : UInt32} {flags : UInt8}
    {data frame : List UInt8} (h : IsSegment conn seq flags data frame) (rxBuf : List UInt8)
    (maxData : ℕ) :
    acceptSegment conn (pollReceive frame rxBuf) (min frame.length rxBufSize) maxData =
      if seq = conn.remoteSeq ∧ payloadOffset frame + data.length ≤ rxBufSize then
        some ⟨flags, data.take maxData⟩
      else none := by
  have heth : ethHeaderSize = 14 := rfl
  have hrx : rxBufSize = 1600 := rfl
  have hle := tcpStart_le frame
  have hihl := h.ipHeader
  have hthl := h.tcpHeader
  have hlen := h.length_le
  have hoff : payloadOffset frame = ethHeaderSize + ipHeaderLen frame + tcpHeaderLen frame := rfl
  have htcp : tcpStart frame = ethHeaderSize + ipHeaderLen frame := rfl
  have hlong : ethHeaderSize + 40 ≤ frame.length := by omega
  obtain ⟨-, hstart⟩ := tcpStart_pollReceive rxBuf hlong
  obtain ⟨-, hoff', hplen'⟩ := payload_pollReceive rxBuf hlong (by omega)
  have hplen : tcpPayloadLen frame = data.length := by
    have htotal := h.totalLength
    have hbound : be16 frame (ethHeaderSize + 2) < 65536 := by
      have h₁ := (byteAt frame (ethHeaderSize + 2)).toNat_lt
      have h₂ := (byteAt frame (ethHeaderSize + 2 + 1)).toNat_lt
      rw [be16]
      omega
    rw [tcpPayloadLen]
    omega
  rw [acceptSegment_eq, if_neg (by omega), be16_pollReceive rxBuf (by omega) (by omega),
    if_neg (by simp [h.ethertype]), byteAt_pollReceive rxBuf (by omega) (by omega),
    if_neg (by simp [h.protocol]), le32_pollReceive rxBuf (by omega) (by omega),
    if_neg (by simp [h.srcIp]), hstart, be16_pollReceive rxBuf (by omega) (by omega),
    if_neg (by simp [h.srcPort]), be16_pollReceive rxBuf (by omega) (by omega),
    if_neg (by simp [h.destPort]), be32_pollReceive rxBuf (by omega) (by omega), h.seq_eq, hoff',
    hplen', hplen]
  by_cases hseq : seq = conn.remoteSeq
  · by_cases hfit : payloadOffset frame + data.length ≤ rxBufSize
    · rw [if_neg (by simp [hseq]), if_neg (by omega), if_pos ⟨hseq, hfit⟩,
        byteAt_pollReceive rxBuf (by omega) (by omega), h.flags_eq]
      -- the data lies in the received part of the buffer
      have hdrop : ((pollReceive frame rxBuf).drop (payloadOffset frame)).take data.length =
          data := by
        have hlen' : payloadOffset frame ≤ (frame.take rxBufSize).length := by
          rw [List.length_take]
          omega
        rw [pollReceive, List.drop_append_of_le_length hlen', List.take_append_of_le_length,
          List.drop_take, List.take_take, Nat.min_eq_left (by omega), h.data_eq]
        rw [List.length_drop, List.length_take]
        omega
      rw [Nat.min_comm, ← List.take_take, hdrop]
    · rw [if_neg (by simp [hseq]), if_pos (by omega), if_neg (fun hc => hfit hc.2)]
  · rw [if_pos hseq, if_neg (fun hc => hseq hc.1)]

theorem length_acceptSegment {conn : TcpConn} {rxBuf : List UInt8} {len maxData : ℕ} {seg : Segment}
    (h : acceptSegment conn rxBuf len maxData = some seg) : seg.data.length ≤ maxData := by
  simp only [acceptSegment_eq, Option.ite_none_left_eq_some, Option.some.injEq] at h
  obtain ⟨-, -, -, -, -, -, -, -, rfl⟩ := h
  rw [List.length_take]
  omega

/-- What `tcp_wait_segment` hands back comes from one of the frames it polled. -/
theorem tcpWaitSegment_some {conn : TcpConn} {maxData : ℕ} {deadline : UInt32} {polls : List Poll}
    {rxBuf : List UInt8} {seg : Segment}
    (h : (tcpWaitSegment conn maxData deadline polls rxBuf).1 = some seg) :
    ∃ p ∈ polls, ∃ buf, acceptSegment conn (pollReceive p.frame buf)
      (min p.frame.length rxBufSize) maxData = some seg := by
  induction polls generalizing rxBuf with
  | nil => exact absurd h (by simp [tcpWaitSegment])
  | cons p ps ih =>
    rw [tcpWaitSegment] at h
    split at h
    · split at h
      · next hacc =>
        obtain rfl := Option.some.inj h
        exact ⟨p, by simp, rxBuf, hacc⟩
      · obtain ⟨q, hq, hacc⟩ := ih h
        exact ⟨q, List.mem_cons_of_mem _ hq, hacc⟩
    · exact absurd h (by simp)

/-- A frame with 20-byte headers that carries `data`, which is at most 65495 bytes long. -/
def segmentFrame (conn : TcpConn) (seq : UInt32) (flags : UInt8) (data : List UInt8) :
    List UInt8 :=
  let total := 40 + data.length
  [0, 0, 0, 0, 0, 0, 0, 0, 0, 0, 0, 0, 0x08, 0x00,
    0x45, 0, UInt8.ofNat (total / 256), UInt8.ofNat total, 0, 0, 0, 0, 64, 6, 0, 0,
    UInt8.ofNat conn.remoteIp, UInt8.ofNat (conn.remoteIp / 256),
    UInt8.ofNat (conn.remoteIp / 65536), UInt8.ofNat (conn.remoteIp / 16777216), 0, 0, 0, 0,
    UInt8.ofNat (conn.remotePort.toNat / 256), UInt8.ofNat conn.remotePort.toNat,
    UInt8.ofNat (conn.localPort.toNat / 256), UInt8.ofNat conn.localPort.toNat,
    UInt8.ofNat (seq.toNat / 16777216), UInt8.ofNat (seq.toNat / 65536),
    UInt8.ofNat (seq.toNat / 256), UInt8.ofNat seq.toNat, 0, 0, 0, 0, 0x50, flags, 0, 0, 0, 0,
    0, 0] ++ data

theorem isSegment_segmentFrame {conn : TcpConn} (hip : conn.remoteIp < 2 ^ 32) (seq : UInt32)
    (flags : UInt8) (data : List UInt8) (hdata : data.length ≤ 65495) :
    IsSegment conn seq flags data (segmentFrame conn seq flags data) where
  ethertype := by simp [be16, byteAt, segmentFrame, ethertypeIpv4]
  protocol := by simp [byteAt, segmentFrame, ipProtoTcp, ethHeaderSize]
  srcIp := by
    simp [le32, byteAt, segmentFrame, ethHeaderSize]
    omega
  ipHeader := by simp [ipHeaderLen, byteAt, segmentFrame, ethHeaderSize]
  srcPort := by
    have hlt := conn.remotePort.toNat_lt
    simp [be16, tcpStart, ipHeaderLen, byteAt, segmentFrame, ethHeaderSize]
    omega
  destPort := by
    have hlt := conn.localPort.toNat_lt
    simp [be16, tcpStart, ipHeaderLen, byteAt, segmentFrame, ethHeaderSize]
    omega
  seq_eq := by
    have hlt := seq.toNat_lt
    apply UInt32.toNat_inj.mp
    simp [be32, be16, tcpStart, ipHeaderLen, byteAt, segmentFrame, ethHeaderSize]
    omega
  flags_eq := by simp [tcpStart, ipHeaderLen, byteAt, segmentFrame, ethHeaderSize]
  tcpHeader := by
    simp [tcpHeaderLen, tcpStart, ipHeaderLen, byteAt, segmentFrame, ethHeaderSize]
  totalLength := by
    simp [be16, tcpHeaderLen, tcpStart, ipHeaderLen, byteAt, segmentFrame, ethHeaderSize]
    omega
  length_le := by
    simp [payloadOffset, tcpHeaderLen, tcpStart, ipHeaderLen, byteAt, segmentFrame, ethHeaderSize]
    omega
  data_eq := by
    simp [payloadOffset, tcpHeaderLen, tcpStart, ipHeaderLen, byteAt, segmentFrame, ethHeaderSize]

/-- A connection to port 80 of 10.0.2.2. -/
def exampleConn : TcpConn := ⟨0x0202000A, 49152, 80, 0x1001, 0x2001⟩

end AuroraOS.Net
