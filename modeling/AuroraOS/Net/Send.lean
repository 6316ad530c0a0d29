import AuroraOS.Lib.OnesComplement
import AuroraOS.Net.Tcp

/-!
# Sending packets

`send_ethernet_frame`, `send_udp_packet` and `tcp_send_segment` of `kernel/net.c`. Every byte of the
static buffers that is sent is written by the same call, so a frame does not depend on the calls
before. `none` stands for a copy that leaves its buffer, `some none` for a packet that is refused,
otherwise the frame is what is handed to `e1000_send`.

## Main definitions

- `sendEthernetFrame`, `ipChecksum`, `sendUdpPacket`, `tcpChecksum`, `tcpSendSegment`

## Main results

- `tcpSendSegment_received` — a segment arrives as it was sent
- `emitted_checksums` — the checksums of what is sent verify at the receiver
-/

namespace AuroraOS.Net

open Lib

section Model

/-- The address of a network card. -/
structure MacAddress where
  bytes : List UInt8
  length_eq : bytes.length = 6

/-- `my_mac` and `my_ip`. -/
structure Interface where
  myMac : MacAddress
  myIp : UInt32

/-- `TX_SCRATCH_SIZE`, the size of `tx_scratch` and of the buffer of `send_udp_packet`. -/
def txScratchSize : ℕ := 1024

/-- `TCP_SCRATCH_SIZE`, the size of the buffer of `tcp_send_segment`. -/
def tcpScratchSize : ℕ := 1600

/-- The size of an IPv4 header without options. -/
def ipHeaderSize : ℕ := 20

/-- The size of a UDP header. -/
def udpHeaderSize : ℕ := 8

/-- The size of a TCP header without options. -/
def tcpHeaderSize : ℕ := 20

/-- `TCP_FLAG_ACK`. -/
def tcpFlagAck : UInt8 := 0x10

/-- `ip_checksum`. -/
def ipChecksum (data : List UInt8) : ℕ := complement16 (foldCarries (sumWords data 0).toNat)

/-- `struct eth_header`. -/
def ethHeader (net : Interface) (destMac : MacAddress) (ethertype : ℕ) : List UInt8 :=
  destMac.bytes ++ net.myMac.bytes ++ bytes16 ethertype

/-- `send_ethernet_frame`. -/
def sendEthernetFrame (net : Interface) (destMac : MacAddress) (ethertype : ℕ)
    (payload : List UInt8) : Option (List UInt8) :=
  if ethHeaderSize + payload.length > txScratchSize then none
  else some (ethHeader net destMac ethertype ++ payload)

/-- `struct ipv4_header` as both functions fill it. -/
def ipHeader (net : Interface) (destIp : ℕ) (protocol : UInt8) (totalLength checksum : ℕ) :
    List UInt8 :=
  0x45 :: 0 :: bytes16 totalLength ++ [0, 0, 0, 0, 64, protocol] ++
    (bytes16 checksum ++ (addressBytes net.myIp.toNat ++ addressBytes destIp))

/-- The IP header with its checksum, which is computed over the header with a zero in its place. -/
def checkedIpHeader (net : Interface) (destIp : ℕ) (protocol : UInt8) (totalLength : ℕ) :
    List UInt8 :=
  ipHeader net destIp protocol totalLength (ipChecksum (ipHeader net destIp protocol totalLength 0))

/-- `struct udp_header`. -/
def udpHeader (srcPort destPort : UInt16) (udpLen : ℕ) : List UInt8 :=
  bytes16 srcPort.toNat ++ bytes16 destPort.toNat ++ bytes16 udpLen ++ bytes16 0

/-- `send_udp_packet`. -/
def sendUdpPacket (net : Interface) (destIp : ℕ) (destMac : MacAddress)
    (srcPort destPort : UInt16) (data : List UInt8) : Option (Option (List UInt8)) :=
  let udpLen := (udpHeaderSize + data.length) % 65536
  let ipLen := (ipHeaderSize + udpLen) % 65536
  if ipHeaderSize + udpLen > txScratchSize - ethHeaderSize then some none
  else if ipHeaderSize + udpHeaderSize + data.length > txScratchSize then none
  else some (sendEthernetFrame net destMac ethertypeIpv4
    (checkedIpHeader net destIp ipProtoUdp ipLen ++ (udpHeader srcPort destPort udpLen ++ data)))

/-- The pseudo-header of `tcp_checksum`. -/
def pseudoHeader (srcIp destIp tcpLen : ℕ) : List UInt8 :=
  addressBytes srcIp ++ addressBytes destIp ++ [0, ipProtoTcp] ++ bytes16 tcpLen

/-- `tcp_checksum`. -/
def tcpChecksum (srcIp destIp : ℕ) (tcpData : List UInt8) : ℕ :=
  complement16 (foldCarries
    (sumWords tcpData (sumWords (pseudoHeader srcIp destIp tcpData.length) 0)).toNat)

/-- `struct tcp_header`. -/
def tcpHeader (conn : TcpConn) (flags : UInt8) (checksum : ℕ) : List UInt8 :=
  bytes16 conn.localPort.toNat ++ bytes16 conn.remotePort.toNat ++ bytes32 conn.localSeq ++
    bytes32 (if flags &&& tcpFlagAck ≠ 0 then conn.remoteSeq else 0) ++ [0x50, flags] ++
    bytes16 4096 ++ (bytes16 checksum ++ bytes16 0)

/-- The segment with its checksum, which is computed over the segment with a zero in its place. -/
def checkedSegment (net : Interface) (conn : TcpConn) (flags : UInt8) (data : List UInt8) :
    List UInt8 :=
  tcpHeader conn flags
    (tcpChecksum net.myIp.toNat conn.remoteIp (tcpHeader conn flags 0 ++ data)) ++ data

/-- `tcp_send_segment`. -/
def tcpSendSegment (net : Interface) (conn : TcpConn) (remoteMac : MacAddress) (flags : UInt8)
    (data : List UInt8) : Option (Option (List UInt8)) :=
  let tcpLen := (tcpHeaderSize + data.length) % 65536
  if ipHeaderSize + tcpLen > tcpScratchSize - ethHeaderSize then some none
  else if ipHeaderSize + tcpHeaderSize + data.length > tcpScratchSize then none
  else some (sendEthernetFrame net remoteMac ethertypeIpv4
    (checkedIpHeader net conn.remoteIp ipProtoTcp ((ipHeaderSize + tcpLen) % 65536) ++
      checkedSegment net conn flags data))

end Model

section Frames

variable {net : Interface} {conn peer : TcpConn} {remoteMac : MacAddress} {flags : UInt8}
  {data frame : List UInt8}

theorem length_ethHeader (net : Interface) (destMac : MacAddress) (ethertype : ℕ) :
    (ethHeader net destMac ethertype).length = ethHeaderSize := by
  simp only [ethHeader, List.length_append, destMac.length_eq, net.myMac.length_eq]
  rfl

theorem length_checkedIpHeader (net : Interface) (destIp : ℕ) (protocol : UInt8)
    (totalLength : ℕ) : (checkedIpHeader net destIp protocol totalLength).length = ipHeaderSize :=
  rfl

theorem length_checkedSegment :
    (checkedSegment net conn flags data).length = tcpHeaderSize + data.length := by
  rw [checkedSegment, List.length_append]
  rfl

theorem sendEthernetFrame_eq_some_iff {ethertype : ℕ} {payload : List UInt8} :
    sendEthernetFrame net remoteMac ethertype payload = some frame ↔
      ethHeaderSize + payload.length ≤ txScratchSize ∧
        frame = ethHeader net remoteMac ethertype ++ payload := by
  rw [sendEthernetFrame]
  split_ifs with hlong
  · exact iff_of_false id fun h => Nat.not_lt.mpr h.1 hlong
  · rw [Option.some.injEq, and_iff_right (Nat.not_lt.mp hlong), eq_comm]

/-- A segment that is sent fits into the scratch buffer, and its frame consists of the headers and
    the data. -/
theorem tcpSendSegment_eq_iff :
    tcpSendSegment net conn remoteMac flags data = some (some frame) ↔
      data.length ≤ 970 ∧
        frame = ethHeader net remoteMac ethertypeIpv4 ++
          (checkedIpHeader net conn.remoteIp ipProtoTcp (40 + data.length) ++
            checkedSegment net conn flags data) := by
  have hsizes : ethHeaderSize = 14 ∧ ipHeaderSize = 20 ∧ tcpHeaderSize = 20 ∧
    txScratchSize = 1024 ∧ tcpScratchSize = 1600 := ⟨rfl, rfl, rfl, rfl, rfl⟩
  rw [tcpSendSegment]
  split_ifs with hrefused hover
  · refine iff_of_false (by simp) fun h => ?_
    omega
  · refine iff_of_false id fun h => ?_
    omega
  · have htotal : (ipHeaderSize + (tcpHeaderSize + data.length) % 65536) % 65536 =
        40 + data.length := by omega
    rw [htotal, Option.some.injEq, sendEthernetFrame_eq_some_iff, List.length_append,
      length_checkedIpHeader, length_checkedSegment]
    refine and_congr_left fun _ => ?_
    omega

/-- A datagram that is sent fits into the scratch buffer, and its frame consists of the headers and
    the data. -/
theorem sendUdpPacket_eq_iff {destIp : ℕ} {srcPort destPort : UInt16} :
    sendUdpPacket net destIp remoteMac srcPort destPort data = some (some frame) ↔
      data.length ≤ 982 ∧
        frame = ethHeader net remoteMac ethertypeIpv4 ++
          (checkedIpHeader net destIp ipProtoUdp (28 + data.length) ++
            (udpHeader srcPort destPort (8 + data.length) ++ data)) := by
  have hsizes : ethHeaderSize = 14 ∧ ipHeaderSize = 20 ∧ udpHeaderSize = 8 ∧
    txScratchSize = 1024 := ⟨rfl, rfl, rfl, rfl⟩
  have hudp : ∀ n, (udpHeader srcPort destPort n).length = 8 := fun _ => rfl
  rw [sendUdpPacket]
  split_ifs with hrefused hover
  · refine iff_of_false (by simp) fun h => ?_
    omega
  · refine iff_of_false id fun h => ?_
    omega
  · have hlen : (udpHeaderSize + data.length) % 65536 = 8 + data.length := by omega
    have htotal : (ipHeaderSize + (8 + data.length)) % 65536 = 28 + data.length := by omega
    rw [hlen, htotal, Option.some.injEq, sendEthernetFrame_eq_some_iff, List.length_append,
      length_checkedIpHeader, List.length_append, hudp]
    refine and_congr_left fun _ => ?_
    omega

end Frames

section Reception

/-- The record at the other end of a connection, which expects the next byte. -/
structure Mirrors (net : Interface) (conn peer : TcpConn) : Prop where
  remoteIp : peer.remoteIp = net.myIp.toNat
  localPort : peer.localPort = conn.remotePort
  remotePort : peer.remotePort = conn.localPort
  remoteSeq : peer.remoteSeq = conn.localSeq

variable {net : Interface} {conn peer : TcpConn} {data : List UInt8}

theorem MacAddress.exists_bytes (mac : MacAddress) :
    ∃ a b c d e f, mac.bytes = [a, b, c, d, e, f] := by
  obtain ⟨bytes, hlen⟩ := mac
  match bytes, hlen with
  | [a, b, c, d, e, f], _ => exact ⟨a, b, c, d, e, f, rfl⟩

/-- The bytes behind the Ethernet header. -/
theorem byteAt_ethHeader_append (destMac : MacAddress) (ethertype : ℕ) (packet : List UInt8)
    (i : ℕ) : byteAt (ethHeader net destMac ethertype ++ packet) (ethHeaderSize + i) =
      byteAt packet i := by
  rw [byteAt, byteAt, List.getD_eq_getElem?_getD, List.getD_eq_getElem?_getD,
    List.getElem?_append_right (by rw [length_ethHeader]; exact Nat.le_add_right _ _),
    length_ethHeader, Nat.add_sub_cancel_left]

/-- What is sent is a segment of the connection of the other side. -/
theorem isSegment_sent (h : Mirrors net conn peer) (hdata : data.length ≤ 970)
    (remoteMac : MacAddress) (flags : UInt8) :
    IsSegment peer conn.localSeq flags data
      (ethHeader net remoteMac ethertypeIpv4 ++
        (checkedIpHeader net conn.remoteIp ipProtoTcp (40 + data.length) ++
          checkedSegment net conn flags data)) := by
  obtain ⟨a₁, a₂, a₃, a₄, a₅, a₆, hdest⟩ := remoteMac.exists_bytes
  obtain ⟨b₁, b₂, b₃, b₄, b₅, b₆, hsrc⟩ := net.myMac.exists_bytes
  rw [ethHeader, hdest, hsrc, checkedIpHeader, checkedSegment]
  generalize ipChecksum (ipHeader net conn.remoteIp ipProtoTcp (40 + data.length) 0) = ipSum
  generalize tcpChecksum net.myIp.toNat conn.remoteIp (tcpHeader conn flags 0 ++ data) = tcpSum
  generalize hframe : [a₁, a₂, a₃, a₄, a₅, a₆] ++ [b₁, b₂, b₃, b₄, b₅, b₆] ++
    bytes16 ethertypeIpv4 ++ (ipHeader net conn.remoteIp ipProtoTcp (40 + data.length) ipSum ++
      (tcpHeader conn flags tcpSum ++ data)) = frame
  have hbytes := hframe.symm
  simp only [bytes16, ipHeader, addressBytes, tcpHeader, bytes32, List.cons_append, List.nil_append]
    at hbytes
  have hipLen : ipHeaderLen frame = 20 := by simp [ipHeaderLen, byteAt, hbytes, ethHeaderSize]
  have hstart : tcpStart frame = 34 := by rw [tcpStart, hipLen, ethHeaderSize]
  have htcpLen : tcpHeaderLen frame = 20 := by
    rw [tcpHeaderLen, hstart]
    simp [byteAt, hbytes]
  have hoffset : payloadOffset frame = 54 := by rw [payloadOffset, hstart, htcpLen]
  have hdrop : frame.drop 54 = data := by rw [hbytes]; rfl
  have hlen : frame.length = 54 + data.length := by
    rw [hbytes]
    simp only [List.length_cons]
    omega
  have hlocal := conn.localPort.toNat_lt
  have hremote := conn.remotePort.toNat_lt
  have hseq := conn.localSeq.toNat_lt
  have hip := net.myIp.toNat_lt
  exact
    { ethertype := by simp [be16, byteAt, hbytes, ethertypeIpv4]
      protocol := by simp [byteAt, hbytes, ethHeaderSize]
      srcIp := by
        simp [h.remoteIp, le32, byteAt, hbytes, ethHeaderSize]
        omega
      ipHeader := hipLen.ge
      srcPort := by
        rw [h.remotePort, hstart]
        simp [be16, byteAt, hbytes]
        omega
      destPort := by
        rw [h.localPort, hstart]
        simp [be16, byteAt, hbytes]
        omega
      seq_eq := by
        rw [hstart]
        apply UInt32.toNat_inj.mp
        simp [be32, be16, byteAt, hbytes]
        omega
      flags_eq := by
        rw [hstart]
        simp [byteAt, hbytes]
      tcpHeader := htcpLen.ge
      totalLength := by
        rw [hipLen, htcpLen]
        simp [be16, byteAt, hbytes, ethHeaderSize]
        omega
      length_le := by rw [hoffset, hlen]
      data_eq := by rw [hoffset, hdrop, List.take_length] }

end Reception

/-- The frame of a segment makes the other side return its flags and its data. -/
theorem tcpSendSegment_received {net : Interface} {conn peer : TcpConn} {data : List UInt8}
    {maxData : ℕ} (h : Mirrors net conn peer) (hdata : data.length ≤ 970)
    (hmax : data.length ≤ maxData) (remoteMac : MacAddress) (flags : UInt8) :
    ∃ frame, tcpSendSegment net conn remoteMac flags data = some (some frame) ∧
      ∀ deadline ticks polls rxBuf, ticks < deadline →
        tcpWaitSegment peer maxData deadline (⟨ticks, frame⟩ :: polls) rxBuf =
          (some ⟨flags, data⟩, polls, pollReceive frame rxBuf) := by
  refine ⟨_, tcpSendSegment_eq_iff.mpr ⟨hdata, rfl⟩, ?_⟩
  intro deadline ticks polls rxBuf hticks
  have hsegment := isSegment_sent h hdata remoteMac flags
  have hfits := hsegment.length_le
  generalize hframe : ethHeader net remoteMac ethertypeIpv4 ++
    (checkedIpHeader net conn.remoteIp ipProtoTcp (40 + data.length) ++
      checkedSegment net conn flags data) = frame at hsegment hfits ⊢
  have hlen : frame.length = 54 + data.length := by
    rw [← hframe, List.length_append, List.length_append, length_ethHeader, length_checkedIpHeader,
      length_checkedSegment, ethHeaderSize, ipHeaderSize, tcpHeaderSize]
    omega
  have hrx : rxBufSize = 1600 := rfl
  rw [tcpWaitSegment, if_pos hticks, acceptSegment_isSegment hsegment rxBuf maxData,
    if_pos ⟨h.remoteSeq.symm, by omega⟩, List.take_of_length_le hmax]

/-- A greeting from 10.0.2.15 to port 80 of 10.0.2.2. -/
theorem tcpSendSegment_received_hi :
    ∃ frame, tcpSendSegment ⟨⟨[2, 0, 0, 0, 0, 1], rfl⟩, 0x0F02000A⟩ exampleConn
        ⟨[2, 0, 0, 0, 0, 2], rfl⟩ 0x18 [104, 105] = some (some frame) ∧
      ∀ deadline ticks polls rxBuf, ticks < deadline →
        tcpWaitSegment ⟨0x0F02000A, 80, 49152, 0x2001, 0x1001⟩ 970 deadline
            (⟨ticks, frame⟩ :: polls) rxBuf =
          (some ⟨0x18, [104, 105]⟩, polls, pollReceive frame rxBuf) :=
  tcpSendSegment_received
    { remoteIp := rfl, localPort := rfl, remotePort := rfl, remoteSeq := rfl } (by decide)
    (by decide) _ _

section Checksums

/-- The IP header of a frame. -/
def frameIpHeader (frame : List UInt8) : List UInt8 := (frame.drop ethHeaderSize).take ipHeaderSize

/-- The TCP segment of a frame. -/
def frameSegment (frame : List UInt8) : List UInt8 := frame.drop (ethHeaderSize + ipHeaderSize)

/-- The pseudo-header by the addresses and the protocol of the frame. -/
def framePseudoHeader (frame : List UInt8) : List UInt8 :=
  (frame.drop (ethHeaderSize + 12)).take 8 ++ [0, byteAt frame (ethHeaderSize + 9)] ++
    bytes16 (frameSegment frame).length

/-- The sum of the words fits into the accumulator and folds to all ones. -/
def Verifies (bytes : List UInt8) : Prop :=
  wordTotal bytes < 2 ^ 32 ∧ foldCarries (wordTotal bytes) = 0xffff

variable {net : Interface} {conn : TcpConn} {remoteMac : MacAddress} {flags : UInt8}
  {data frame : List UInt8}

theorem wordTotal_lt {bytes : List UInt8} (h : bytes.length < 131000) :
    wordTotal bytes < 2 ^ 32 := by
  have hle := wordTotal_le bytes
  omega

theorem wordTotal_bytes16 {n : ℕ} (hn : n < 65536) (rest : List UInt8) :
    wordTotal (bytes16 n ++ rest) = n + wordTotal rest := by
  have hword : wordTotal (bytes16 n) = n := by
    simp only [bytes16, wordTotal, UInt8.toNat_ofNat']
    omega
  rw [wordTotal_append rest (by rw [length_bytes16]), hword]

/-- A checksum that is computed with a zero in its place verifies. -/
theorem verifies_checksum {a b : List UInt8} (heven : a.length % 2 = 0) (hpos : 0 < wordTotal a)
    (hlen : a.length + b.length < 130000) :
    Verifies (a ++ (bytes16 (complement16 (foldCarries (wordTotal (a ++ (bytes16 0 ++ b))))) ++
      b)) := by
  have hzero : wordTotal (a ++ (bytes16 0 ++ b)) = wordTotal a + wordTotal b := by
    rw [wordTotal_append _ heven, wordTotal_bytes16 (by decide), Nat.zero_add]
  have hsum : complement16 (foldCarries (wordTotal a + wordTotal b)) < 65536 := by
    rw [complement16]
    omega
  have htotal : wordTotal (a ++ (bytes16 (complement16 (foldCarries (wordTotal a + wordTotal b))) ++
      b)) = wordTotal a + wordTotal b + complement16 (foldCarries (wordTotal a + wordTotal b)) := by
    rw [wordTotal_append _ heven, wordTotal_bytes16 hsum]
    omega
  rw [hzero]
  constructor
  · refine wordTotal_lt ?_
    simp only [List.length_append, length_bytes16]
    omega
  · rw [htotal]
    exact foldCarries_complement (by omega)

/-- The accumulator of `ip_checksum` does not overflow. -/
theorem sumWords_zero {bytes : List UInt8} (h : bytes.length < 131000) :
    (sumWords bytes 0).toNat = wordTotal bytes := by
  have hsum := sumWords_toNat bytes 0
  rw [UInt32.toNat_zero, Nat.zero_add] at hsum
  exact hsum (wordTotal_lt h)

/-- Neither does the accumulator of `tcp_checksum`. -/
theorem sumWords_pseudoHeader (srcIp destIp : ℕ) {segment : List UInt8}
    (h : segment.length < 65536) :
    (sumWords segment (sumWords (pseudoHeader srcIp destIp segment.length) 0)).toNat =
      wordTotal (pseudoHeader srcIp destIp segment.length ++ segment) := by
  have hlen : (pseudoHeader srcIp destIp segment.length).length = 12 := rfl
  have hsum :=
    sumWords_zero (show (pseudoHeader srcIp destIp segment.length).length < 131000 by omega)
  have hall : wordTotal (pseudoHeader srcIp destIp segment.length ++ segment) < 2 ^ 32 :=
    wordTotal_lt (by rw [List.length_append]; omega)
  rw [wordTotal_append segment (by omega)] at hall ⊢
  rw [sumWords_toNat segment _ (by rw [hsum]; exact hall), hsum]

/-- The IP header that both functions send verifies. -/
theorem verifies_checkedIpHeader (net : Interface) (destIp : ℕ) (protocol : UInt8)
    (totalLength : ℕ) : Verifies (checkedIpHeader net destIp protocol totalLength) := by
  have hlen : (ipHeader net destIp protocol totalLength 0).length < 131000 :=
    show ipHeaderSize < 131000 by decide
  rw [checkedIpHeader, ipChecksum, sumWords_zero hlen]
  refine verifies_checksum (show 10 % 2 = 0 from rfl) ?_ (show 10 + 8 < 130000 by decide)
  rw [List.cons_append, List.cons_append, wordTotal]
  exact Nat.lt_of_lt_of_le (by decide) (Nat.le_add_right _ _)

theorem wordTotal_pseudoHeader_pos (srcIp destIp tcpLen : ℕ) :
    0 < wordTotal (pseudoHeader srcIp destIp tcpLen) := by
  have hproto : wordTotal [0, ipProtoTcp] = 6 := rfl
  have haddresses : (addressBytes srcIp ++ addressBytes destIp).length = 8 := rfl
  have hten : (addressBytes srcIp ++ addressBytes destIp ++ [0, ipProtoTcp]).length = 10 := rfl
  rw [pseudoHeader, wordTotal_append _ (by omega), wordTotal_append _ (by omega), hproto]
  omega

/-- The checksum is the last but one field of the TCP header. -/
theorem tcpHeader_split (conn : TcpConn) (flags : UInt8) :
    ∃ start : List UInt8, start.length = 16 ∧
      ∀ checksum, tcpHeader conn flags checksum = start ++ (bytes16 checksum ++ bytes16 0) :=
  ⟨_, rfl, fun _ => rfl⟩

/-- So does the segment, with the pseudo-header in front. -/
theorem verifies_checkedSegment (net : Interface) (conn : TcpConn) (flags : UInt8)
    {data : List UInt8} (h : data.length < 65000) :
    Verifies (pseudoHeader net.myIp.toNat conn.remoteIp (tcpHeaderSize + data.length) ++
      checkedSegment net conn flags data) := by
  have hlen : (tcpHeader conn flags 0 ++ data).length = tcpHeaderSize + data.length := by
    rw [List.length_append]
    rfl
  have hsum := sumWords_pseudoHeader net.myIp.toNat conn.remoteIp
    (show (tcpHeader conn flags 0 ++ data).length < 65536 by rw [hlen, tcpHeaderSize]; omega)
  rw [checkedSegment, tcpChecksum, hsum, hlen]
  obtain ⟨start, hstart, hsplit⟩ := tcpHeader_split conn flags
  generalize hpseudo : pseudoHeader net.myIp.toNat conn.remoteIp (tcpHeaderSize + data.length) =
    pseudo
  have hpseudoLen : pseudo.length = 12 := by rw [← hpseudo]; rfl
  have hpos : 0 < wordTotal (pseudo ++ start) := by
    rw [wordTotal_append _ (by omega), ← hpseudo]
    exact Nat.add_pos_left (wordTotal_pseudoHeader_pos _ _ _) _
  have happ : ∀ checksum, pseudo ++ (tcpHeader conn flags checksum ++ data) =
      (pseudo ++ start) ++ (bytes16 checksum ++ (bytes16 0 ++ data)) := fun checksum => by
    rw [hsplit]
    simp only [List.append_assoc]
  rw [happ, happ]
  refine verifies_checksum ?_ hpos ?_
  · rw [List.length_append]
    omega
  · simp only [List.length_append, length_bytes16]
    omega

theorem frameIpHeader_sent (destIp : ℕ) (protocol : UInt8) (totalLength : ℕ) (rest : List UInt8) :
    frameIpHeader (ethHeader net remoteMac ethertypeIpv4 ++
      (checkedIpHeader net destIp protocol totalLength ++ rest)) =
        checkedIpHeader net destIp protocol totalLength := by
  rw [frameIpHeader, List.drop_left' (length_ethHeader _ _ _),
    List.take_left' (length_checkedIpHeader _ _ _ _)]

theorem frameSegment_sent (destIp : ℕ) (protocol : UInt8) (totalLength : ℕ) (rest : List UInt8) :
    frameSegment (ethHeader net remoteMac ethertypeIpv4 ++
      (checkedIpHeader net destIp protocol totalLength ++ rest)) = rest := by
  rw [frameSegment, ← List.drop_drop, List.drop_left' (length_ethHeader _ _ _),
    List.drop_left' (length_checkedIpHeader _ _ _ _)]

/-- The receiver finds the pseudo-header that the sender summed. -/
theorem framePseudoHeader_sent :
    framePseudoHeader (ethHeader net remoteMac ethertypeIpv4 ++
      (checkedIpHeader net conn.remoteIp ipProtoTcp (40 + data.length) ++
        checkedSegment net conn flags data)) =
      pseudoHeader net.myIp.toNat conn.remoteIp (tcpHeaderSize + data.length) := by
  have haddresses : (checkedIpHeader net conn.remoteIp ipProtoTcp (40 + data.length)).drop 12 =
      addressBytes net.myIp.toNat ++ addressBytes conn.remoteIp := rfl
  have hlen : 12 ≤ (checkedIpHeader net conn.remoteIp ipProtoTcp (40 + data.length)).length :=
    show 12 ≤ ipHeaderSize by decide
  rw [framePseudoHeader, frameSegment_sent, length_checkedSegment, byteAt_ethHeader_append,
    ← List.drop_drop, List.drop_left' (length_ethHeader _ _ _), List.drop_append_of_le_length hlen,
    haddresses]
  rfl

end Checksums

/-- What is sent verifies at the receiver: the IP header of every packet, and every segment with its
    pseudo-header; and the accumulators hold the sums themselves. -/
theorem emitted_checksums (net : Interface) (mac : MacAddress) (data frame : List UInt8) :
    (∀ conn flags, tcpSendSegment net conn mac flags data = some (some frame) →
      Verifies (frameIpHeader frame) ∧ Verifies (framePseudoHeader frame ++ frameSegment frame)) ∧
    (∀ destIp srcPort destPort,
      sendUdpPacket net destIp mac srcPort destPort data = some (some frame) →
        Verifies (frameIpHeader frame)) ∧
    (∀ destIp protocol totalLength checksum,
      (sumWords (ipHeader net destIp protocol totalLength checksum) 0).toNat =
        wordTotal (ipHeader net destIp protocol totalLength checksum)) ∧
    ∀ srcIp destIp (segment : List UInt8), segment.length < 65536 →
      (sumWords segment (sumWords (pseudoHeader srcIp destIp segment.length) 0)).toNat =
        wordTotal (pseudoHeader srcIp destIp segment.length ++ segment) := by
  refine ⟨fun conn flags h => ?_, fun destIp srcPort destPort h => ?_,
    fun destIp protocol total sum => ?_,
    fun srcIp destIp segment h => sumWords_pseudoHeader srcIp destIp h⟩
  · obtain ⟨hdata, rfl⟩ := tcpSendSegment_eq_iff.mp h
    rw [frameIpHeader_sent, framePseudoHeader_sent, frameSegment_sent]
    exact ⟨verifies_checkedIpHeader _ _ _ _, verifies_checkedSegment net conn flags (by omega)⟩
  · obtain ⟨-, rfl⟩ := sendUdpPacket_eq_iff.mp h
    rw [frameIpHeader_sent]
    exact verifies_checkedIpHeader _ _ _ _
  · exact sumWords_zero (show ipHeaderSize < 131000 by decide)

/-- A segment of even length, one of odd length, and a datagram. -/
theorem emitted_checksums_hi :
    (∃ frame, tcpSendSegment ⟨⟨[2, 0, 0, 0, 0, 1], rfl⟩, 0x0F02000A⟩ exampleConn
        ⟨[2, 0, 0, 0, 0, 2], rfl⟩ 0x18 [104, 105] = some (some frame) ∧
      Verifies (frameIpHeader frame) ∧ Verifies (framePseudoHeader frame ++ frameSegment frame)) ∧
    (∃ frame, tcpSendSegment ⟨⟨[2, 0, 0, 0, 0, 1], rfl⟩, 0x0F02000A⟩ exampleConn
        ⟨[2, 0, 0, 0, 0, 2], rfl⟩ 0x18 [104] = some (some frame) ∧
      Verifies (frameIpHeader frame) ∧ Verifies (framePseudoHeader frame ++ frameSegment frame)) ∧
    ∃ frame, sendUdpPacket ⟨⟨[2, 0, 0, 0, 0, 1], rfl⟩, 0x0F02000A⟩ 0x0202000A
        ⟨[2, 0, 0, 0, 0, 2], rfl⟩ 49152 53 [1] = some (some frame) ∧
      Verifies (frameIpHeader frame) := by
  have heven : [104, 105].length ≤ 970 := by decide
  have hodd : [104].length ≤ 970 := by decide
  have hdatagram : [1].length ≤ 982 := by decide
  refine ⟨⟨_, tcpSendSegment_eq_iff.mpr ⟨heven, rfl⟩, ?_⟩,
    ⟨_, tcpSendSegment_eq_iff.mpr ⟨hodd, rfl⟩, ?_⟩,
    ⟨_, sendUdpPacket_eq_iff.mpr ⟨hdatagram, rfl⟩, ?_⟩⟩
  · exact (emitted_checksums _ _ _ _).1 _ _ (tcpSendSegment_eq_iff.mpr ⟨heven, rfl⟩)
  · exact (emitted_checksums _ _ _ _).1 _ _ (tcpSendSegment_eq_iff.mpr ⟨hodd, rfl⟩)
  · exact (emitted_checksums _ _ _ _).2.1 _ _ _ (sendUdpPacket_eq_iff.mpr ⟨hdatagram, rfl⟩)

end AuroraOS.Net
