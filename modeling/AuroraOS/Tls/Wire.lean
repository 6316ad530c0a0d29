import AuroraOS.Tls.RoundTrip

/-!
# The frames of the records

The model of the record layer keeps of a segment only its numbers, its flags and its data. These are
what the frame says that `send_ethernet_frame` hands to the network card, and the functions refuse
the same segments.

## Main definitions

- `wireSegment` — the segment in a frame

## Main results

- `tcpSendSegment_eq`
- `tlsSendRecord_frame`
-/

namespace AuroraOS.Tls

open AuroraOS.Net

/-- The segment in a frame. -/
def wireSegment (frame : List UInt8) : WireSegment where
  seq := be32 frame (tcpStart frame + 4)
  ack := be32 frame (tcpStart frame + 8)
  flags := byteAt frame (tcpStart frame + 13)
  data := frame.drop (payloadOffset frame)

section

variable {net : Interface} {conn : TcpConn} {remoteMac : MacAddress} {flags : UInt8}
  {data : List UInt8}

/-- The bytes of the segment behind the two headers in front of it. -/
theorem byteAt_sent (i : ℕ) :
    byteAt (ethHeader net remoteMac ethertypeIpv4 ++
      (checkedIpHeader net conn.remoteIp ipProtoTcp (40 + data.length) ++
        checkedSegment net conn flags data)) (34 + i) =
      byteAt (checkedSegment net conn flags data) i := by
  have hip := length_checkedIpHeader net conn.remoteIp ipProtoTcp (40 + data.length)
  have hoffset : 34 + i = ethHeaderSize + (ipHeaderSize + i) := by
    rw [ethHeaderSize, ipHeaderSize]
    omega
  rw [hoffset, byteAt_ethHeader_append, byteAt, byteAt, List.getD_eq_getElem?_getD,
    List.getD_eq_getElem?_getD, List.getElem?_append_right (by omega), hip, Nat.add_sub_cancel_left]

theorem be32_sent (i : ℕ) :
    be32 (ethHeader net remoteMac ethertypeIpv4 ++
      (checkedIpHeader net conn.remoteIp ipProtoTcp (40 + data.length) ++
        checkedSegment net conn flags data)) (34 + i) =
      be32 (checkedSegment net conn flags data) i := by
  simp only [be32, be16, Nat.add_assoc, byteAt_sent]

/-- Four bytes of a number, wherever they stand. -/
theorem be32_of_bytes {l : List UInt8} {k : ℕ} {n : UInt32}
    (h₀ : byteAt l k = byteAt (bytes32 n) 0) (h₁ : byteAt l (k + 1) = byteAt (bytes32 n) 1)
    (h₂ : byteAt l (k + 2) = byteAt (bytes32 n) 2)
    (h₃ : byteAt l (k + 2 + 1) = byteAt (bytes32 n) 3) : be32 l k = n := by
  have hn := n.toNat_lt
  rw [be32, be16, be16, h₀, h₁, h₂, h₃]
  apply UInt32.toNat_inj.mp
  simp [byteAt, bytes32, bytes16]
  omega

/-- A frame says what it was made for. -/
theorem wireSegment_sent :
    wireSegment (ethHeader net remoteMac ethertypeIpv4 ++
      (checkedIpHeader net conn.remoteIp ipProtoTcp (40 + data.length) ++
        checkedSegment net conn flags data)) =
      ⟨conn.localSeq, if flags &&& tcpFlagAck ≠ 0 then conn.remoteSeq else 0, flags, data⟩ := by
  have hbytes := @byteAt_sent net conn remoteMac flags data
  have hwords := @be32_sent net conn remoteMac flags data
  have hversion : byteAt (ethHeader net remoteMac ethertypeIpv4 ++
      (checkedIpHeader net conn.remoteIp ipProtoTcp (40 + data.length) ++
        checkedSegment net conn flags data)) ethHeaderSize = 0x45 :=
    byteAt_ethHeader_append remoteMac ethertypeIpv4 _ 0
  have hdrop : (ethHeader net remoteMac ethertypeIpv4 ++
      (checkedIpHeader net conn.remoteIp ipProtoTcp (40 + data.length) ++
        checkedSegment net conn flags data)).drop 54 = data := by
    have hall : ∀ n, (tcpHeader conn flags n).length = 20 := fun _ => rfl
    rw [← List.append_assoc, checkedSegment, ← List.append_assoc]
    refine List.drop_left' ?_
    rw [List.length_append, List.length_append, length_ethHeader, length_checkedIpHeader, hall]
    rfl
  generalize ethHeader net remoteMac ethertypeIpv4 ++
    (checkedIpHeader net conn.remoteIp ipProtoTcp (40 + data.length) ++
      checkedSegment net conn flags data) = frame at hbytes hwords hversion hdrop ⊢
  have hstart : tcpStart frame = 34 := by
    rw [tcpStart, ipHeaderLen, hversion]
    rfl
  have hlength : byteAt (checkedSegment net conn flags data) 12 = 0x50 := rfl
  have hoffset : payloadOffset frame = 54 := by
    rw [payloadOffset, tcpHeaderLen, hstart, hbytes, hlength]
    rfl
  have hseq : be32 (checkedSegment net conn flags data) 4 = conn.localSeq :=
    be32_of_bytes rfl rfl rfl rfl
  have hack : be32 (checkedSegment net conn flags data) 8 =
      if flags &&& tcpFlagAck ≠ 0 then conn.remoteSeq else 0 :=
    be32_of_bytes rfl rfl rfl rfl
  have hflags : byteAt (checkedSegment net conn flags data) 13 = flags := rfl
  rw [wireSegment, hstart, hoffset, hwords, hwords, hbytes, hseq, hack, hflags, hdrop]

end

/-- What the model of the record layer says of a segment, the frame says that the model of the
    network layer hands to the card. -/
theorem tcpSendSegment_eq (net : Interface) (conn : TcpConn) (remoteMac : MacAddress)
    (flags : UInt8) {data : List UInt8} (hdata : data.length ≤ 65515) (nic : NicOutcome) :
    tcpSendSegment conn flags data nic =
      match Net.tcpSendSegment net conn remoteMac flags data with
      | some (some frame) =>
        (nic = .sent, if nic = .lost then none else some (wireSegment frame))
      | _ => (false, none) := by
  have hsizes : ethHeaderSize = 14 ∧ txScratchSize = 1024 ∧ tcpScratchSize = 1600 :=
    ⟨rfl, rfl, rfl⟩
  have hlen : (20 + data.length) % 65536 = 20 + data.length := by omega
  by_cases hfits : data.length ≤ 970
  · have hsent : Net.tcpSendSegment net conn remoteMac flags data = some (some _) :=
      tcpSendSegment_eq_iff.mpr ⟨hfits, rfl⟩
    rw [hsent]
    simp only [wireSegment_sent, tcpSendSegment, hlen, sendEthernetFrame]
    rw [if_neg (by omega), if_neg (by omega)]
    cases nic <;> rfl
  · have hrefused : ∀ frame,
        Net.tcpSendSegment net conn remoteMac flags data ≠ some (some frame) := fun frame h =>
      hfits (tcpSendSegment_eq_iff.mp h).1
    have hlost : tcpSendSegment conn flags data nic = (false, none) := by
      simp only [tcpSendSegment, hlen, sendEthernetFrame]
      split
      · rfl
      · rw [if_pos (by omega)]
    rw [hlost]
    split
    · next frame h => exact absurd h (hrefused frame)
    · rfl

/-- Whatever a call puts on the wire is the segment in the frame that goes to the card. -/
theorem tlsSendRecord_frame (net : Interface) (remoteMac : MacAddress) (tls : TlsSender)
    (contentType : UInt8) (payload : List UInt8) (encrypt : Bool) (env : SendEnv)
    {segment : WireSegment}
    (h : (tlsSendRecord tls contentType payload encrypt env).2.1 = some segment) :
    ∃ frame, Net.tcpSendSegment net tls.tcp remoteMac (tcpFlagPsh ||| tcpFlagAck) segment.data =
        some (some frame) ∧ segment = wireSegment frame := by
  rw [tlsSendRecord] at h
  split at h
  · exact absurd h (by simp)
  · next hlen =>
    have hfragment := length_protectedFragment tls contentType payload env
    have htcp : (if encrypt then { tls with writeSeqNum := tls.writeSeqNum + 1 } else tls).tcp =
        tls.tcp := by
      split <;> rfl
    dsimp only at h
    rw [htcp] at h
    generalize hrecord : recordHeader contentType (if encrypt then
        protectedFragment tls contentType payload env else payload).length ++
      (if encrypt then protectedFragment tls contentType payload env else payload) = record at h
    have hsize : record.length ≤ 65515 := by
      rw [← hrecord, List.length_append, recordHeader]
      split
      · simp only [List.length_cons, List.length_nil]
        omega
      · simp only [List.length_cons, List.length_nil]
        omega
    obtain rfl := data_tcpSendSegment h
    rw [tcpSendSegment_eq net tls.tcp remoteMac _ hsize] at h
    split at h
    · next frame hframe =>
      refine ⟨frame, hframe, ?_⟩
      split at h
      · exact absurd h (by simp)
      · exact (Option.some.inj h).symm
    · exact absurd h (by simp)

end AuroraOS.Tls
