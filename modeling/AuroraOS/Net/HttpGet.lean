import AuroraOS.Net.Tcp

/-!
# The receive loop of `net_http_get`

The peer sends a byte stream; what arrives are pieces of it, in any order, some more than once,
some never, between frames of other connections. The loop appends the piece it expects to
`response` if there is room, and acknowledges it in any case.

A piece that does not fit is skipped, and a shorter one after it may fit again: then the response
has a hole.

## Main results

- `response_prefix` — as long as nothing is appended after something was skipped, the response is
  a prefix of the stream
- `response_hole` — a run in which it is not
-/

namespace AuroraOS.Net

/-- The variables of the loop. -/
structure HttpGet where
  conn : TcpConn
  rxBuf : List UInt8
  response : List UInt8
  gotFin : Bool
  idleDeadline : UInt32
  /-- the bytes of the stream that were acknowledged, of which `remote_seq` is the remainder
      modulo `2 ^ 32`; not a variable of the source -/
  acked : ℕ

/-- The size of `response`. -/
def responseSize : ℕ := 65536

/-- The size of `seg_data`. -/
def segDataSize : ℕ := 1460

/-- The state before the loop. -/
def HttpGet.start (conn : TcpConn) (rxBuf : List UInt8) (idleDeadline : UInt32) : HttpGet where
  conn := conn
  rxBuf := rxBuf
  response := []
  gotFin := false
  idleDeadline := idleDeadline
  acked := 0

/-- What one pass of the loop sees of the world: the clock at the loop's test, at the start of
    `tcp_wait_segment` and after it, and the polls in between. -/
structure Pass where
  now : UInt32
  waitStart : UInt32
  polls : List Poll
  after : UInt32

/-- The rest of a pass in which a segment was received. -/
def takeSegment (after : UInt32) (seg : Segment) (s : HttpGet) : HttpGet :=
  let fin := seg.flags &&& tcpFlagFin ≠ 0
  let remoteSeq := s.conn.remoteSeq + UInt32.ofNat seg.data.length
  { s with
    idleDeadline := after + tcpTimeoutTicks
    conn := { s.conn with remoteSeq := if fin then remoteSeq + 1 else remoteSeq }
    gotFin := s.gotFin || fin
    response :=
      if 0 < seg.data.length ∧ s.response.length + seg.data.length ≤ responseSize then
        s.response ++ seg.data
      else s.response
    acked := s.acked + seg.data.length }

/-- One pass of the loop, `none` when it ends. -/
def httpPass (p : Pass) (s : HttpGet) : Option HttpGet :=
  if p.now < s.idleDeadline ∧ ¬ s.gotFin then
    match tcpWaitSegment s.conn segDataSize (p.waitStart + tcpTimeoutTicks) p.polls s.rxBuf with
    | (none, _, rxBuf) => some { s with rxBuf := rxBuf }
    | (some seg, _, rxBuf) => some (takeSegment p.after seg { s with rxBuf := rxBuf })
  else none

/-- A frame that can arrive in state `s` while the peer sends `stream`, whose first byte has the
    sequence number `start`: a frame of somebody else, or any piece of the stream. The peer is not
    4 GiB ahead of the acknowledgements; the window of 4096 bytes that is sent to it is far below
    that. -/
def OnWire (stream : List UInt8) (start : UInt32) (s : HttpGet) (frame : List UInt8) : Prop :=
  Foreign s.conn frame ∨
    ∃ off len flags, off + len ≤ stream.length ∧ off < s.acked + 2 ^ 32 ∧
      IsSegment s.conn (start + UInt32.ofNat off) flags ((stream.drop off).take len) frame

/-- The states of the loop that the network can lead to with passes that satisfy `ok`. -/
inductive HttpReach (stream : List UInt8) (start : UInt32) (ok : HttpGet → Pass → Prop) :
    HttpGet → Prop where
  | init {conn : TcpConn} (rxBuf : List UInt8) (idleDeadline : UInt32)
      (h : conn.remoteSeq = start) :
    HttpReach stream start ok (.start conn rxBuf idleDeadline)
  | pass {s s' : HttpGet} {p : Pass} (hs : HttpReach stream start ok s)
    (hwire : ∀ q ∈ p.polls, OnWire stream start s q.frame) (hok : ok s p)
    (h : httpPass p s = some s') : HttpReach stream start ok s'

/-- If bytes that were acknowledged are missing from the response, no segment arrives that is
    expected next, not empty and short enough for the room that is left. -/
def NoLateFit (s : HttpGet) (p : Pass) : Prop :=
  s.acked ≠ s.response.length → ∀ q ∈ p.polls, ∀ flags data,
    IsSegment s.conn s.conn.remoteSeq flags data q.frame →
      data = [] ∨ responseSize < s.response.length + min data.length segDataSize

/-- The expected sequence number, and the response as a prefix of the stream. -/
structure PrefixInv (stream : List UInt8) (start : UInt32) (s : HttpGet) : Prop where
  seq : s.gotFin = false → s.conn.remoteSeq = start + UInt32.ofNat s.acked
  isPrefix : s.response <+: stream
  length_le : s.response.length ≤ responseSize

/-- Sequence numbers repeat only after `2 ^ 32` bytes. -/
theorem offset_eq {start : UInt32} {off acked : ℕ}
    (h : start + UInt32.ofNat off = start + UInt32.ofNat acked) (hoff : off < acked + 2 ^ 32)
    (hacked : acked < 2 ^ 32) : off = acked := by
  have hmod : off % 2 ^ 32 = acked % 2 ^ 32 := by
    have hnat := congrArg UInt32.toNat ((UInt32.add_right_inj start).mp h)
    simpa using hnat
  omega

/-- What a pass receives is a piece of the stream with the expected number. -/
theorem received_piece {stream : List UInt8} {start : UInt32} {s : HttpGet} {p : Pass}
    {seg : Segment} (hwire : ∀ q ∈ p.polls, OnWire stream start s q.frame) {deadline : UInt32}
    (h : (tcpWaitSegment s.conn segDataSize deadline p.polls s.rxBuf).1 = some seg) :
    ∃ q ∈ p.polls, ∃ off data, off < s.acked + 2 ^ 32 ∧ data <+: stream.drop off ∧
      start + UInt32.ofNat off = s.conn.remoteSeq ∧
      IsSegment s.conn s.conn.remoteSeq seg.flags data q.frame ∧
      seg.data = data.take segDataSize := by
  obtain ⟨q, hq, buf, hacc⟩ := tcpWaitSegment_some h
  refine ⟨q, hq, ?_⟩
  obtain hforeign | ⟨off, len, flags, hlen, hoff, hseg⟩ := hwire q hq
  · rw [acceptSegment_foreign hforeign] at hacc
    exact absurd hacc (by simp)
  · rw [acceptSegment_isSegment hseg] at hacc
    split at hacc
    · next hc =>
      obtain rfl := Option.some.inj hacc
      exact ⟨off, _, hoff, List.take_prefix _ _, hc.1, hc.1 ▸ hseg, rfl⟩
    · exact absurd hacc (by simp)

/-- Receiving a segment keeps the invariant, if it is only appended where nothing is missing. -/
theorem takeSegment_inv {stream : List UInt8} {start : UInt32} {s : HttpGet} {seg : Segment}
    {after : UInt32} {off : ℕ} {data : List UInt8} (h : PrefixInv stream start s)
    (hfin : s.gotFin = false)
    (hoff : off < s.acked + 2 ^ 32) (hdata : data <+: stream.drop off)
    (hseq : start + UInt32.ofNat off = s.conn.remoteSeq) (hseg : seg.data = data.take segDataSize)
    (hclean : s.acked ≠ s.response.length →
      data = [] ∨ responseSize < s.response.length + min data.length segDataSize) :
    PrefixInv stream start (takeSegment after seg s) := by
  have hlen : seg.data.length = min data.length segDataSize := by
    rw [hseg, List.length_take, Nat.min_comm]
  refine ⟨fun hfin' => ?_, ?_, ?_⟩
  · simp only [takeSegment, hfin, Bool.false_or, decide_eq_false_iff_not, not_not] at hfin' ⊢
    rw [hfin', if_neg (not_not.mpr rfl), h.seq hfin, UInt32.ofNat_add, UInt32.add_assoc]
  · simp only [takeSegment]
    split
    · next hfit =>
      have heq : s.acked = s.response.length := by
        by_contra hne
        obtain hnil | hbig := hclean hne
        · simp [hseg, hnil] at hfit
        · omega
      have hle := h.length_le
      have hpos : off = s.acked := by
        refine offset_eq (hseq.trans (h.seq hfin)) hoff ?_
        rw [responseSize] at hle
        omega
      obtain ⟨rest, hrest⟩ := hdata
      have hpiece : seg.data = (stream.drop s.response.length).take seg.data.length := by
        rw [← heq, ← hpos, ← hrest, hlen, hseg]
        simp [List.take_append_of_le_length, List.take_eq_take_iff, Nat.min_comm]
      rw [List.prefix_iff_eq_take.mp h.isPrefix, hpiece, ← List.take_add]
      exact List.take_prefix _ _
    · exact h.isPrefix
  · simp only [takeSegment]
    split
    · next hfit =>
      rw [List.length_append]
      exact hfit.2
    · exact h.length_le

theorem httpPass_inv {stream : List UInt8} {start : UInt32} {s s' : HttpGet} {p : Pass}
    (h : PrefixInv stream start s) (hwire : ∀ q ∈ p.polls, OnWire stream start s q.frame)
    (hclean : NoLateFit s p) (hpass : httpPass p s = some s') : PrefixInv stream start s' := by
  rw [httpPass] at hpass
  split at hpass
  · next hgo =>
    have hfin : s.gotFin = false := by simpa using hgo.2
    split at hpass
    · obtain rfl := Option.some.inj hpass
      exact ⟨h.seq, h.isPrefix, h.length_le⟩
    · next seg _ rxBuf hwait =>
      obtain rfl := Option.some.inj hpass
      obtain ⟨q, hq, off, data, hoff, hdata, hseq, hseg, hlen⟩ := received_piece hwire
        (congrArg Prod.fst hwait)
      have hinv : PrefixInv stream start { s with rxBuf := rxBuf } :=
        ⟨h.seq, h.isPrefix, h.length_le⟩
      exact takeSegment_inv hinv hfin hoff hdata hseq hlen fun hne => hclean hne q hq _ _ hseg
  · exact absurd hpass (by simp)

/-- In every run in which no segment fits after one that did not, the response is at every moment
    a prefix of the peer's stream. -/
theorem response_prefix {stream : List UInt8} {start : UInt32} {s : HttpGet}
    (h : HttpReach stream start NoLateFit s) : s.response <+: stream := by
  have hinv : PrefixInv stream start s := by
    induction h with
    | init rxBuf idleDeadline hseq =>
      exact ⟨fun _ => by simp [HttpGet.start, hseq], List.nil_prefix, Nat.zero_le _⟩
    | pass _ hwire hok hpass ih => exact httpPass_inv ih hwire hok hpass
  exact hinv.isPrefix

/-- A pass in which the expected segment with the given data arrives at once. -/
def promptPass (conn : TcpConn) (data : List UInt8) : Pass :=
  ⟨0, 0, [⟨0, segmentFrame conn conn.remoteSeq 0x10 data⟩], 0⟩

/-- The loop is waiting for the byte after the acknowledged ones. -/
structure Steady (start : UInt32) (s : HttpGet) : Prop where
  ip : s.conn.remoteIp < 2 ^ 32
  seq : s.conn.remoteSeq = start + UInt32.ofNat s.acked
  fin : s.gotFin = false
  idle : 0 < s.idleDeadline

theorem httpPass_promptPass {start : UInt32} {s : HttpGet} (h : Steady start s)
    (data : List UInt8) (hdata : data.length ≤ segDataSize) :
    ∃ rxBuf, httpPass (promptPass s.conn data) s =
      some (takeSegment 0 ⟨0x10, data⟩ { s with rxBuf := rxBuf }) := by
  rw [segDataSize] at hdata
  have hseg := isSegment_segmentFrame h.ip s.conn.remoteSeq 0x10 data (by omega)
  have hacc := acceptSegment_isSegment hseg s.rxBuf segDataSize
  have hfit : payloadOffset (segmentFrame s.conn s.conn.remoteSeq 0x10 data) + data.length ≤
      rxBufSize := by
    have hoff : payloadOffset (segmentFrame s.conn s.conn.remoteSeq 0x10 data) = 54 := by
      simp [payloadOffset, tcpHeaderLen, tcpStart, ipHeaderLen, byteAt, segmentFrame,
        ethHeaderSize]
    rw [hoff, rxBufSize]
    omega
  rw [if_pos ⟨rfl, hfit⟩, List.take_of_length_le (by rw [segDataSize]; exact hdata)] at hacc
  refine ⟨pollReceive (segmentFrame s.conn s.conn.remoteSeq 0x10 data) s.rxBuf, ?_⟩
  rw [httpPass, if_pos ⟨h.idle, by simp [h.fin]⟩, promptPass]
  have hticks : (0 : UInt32) < 0 + tcpTimeoutTicks := by decide
  simp only [tcpWaitSegment, hacc, hticks, if_true]

/-- The next piece of the stream arrives. -/
theorem reach_promptPass {stream : List UInt8} {start : UInt32} {ok : HttpGet → Pass → Prop}
    {s : HttpGet} (hs : HttpReach stream start ok s) (h : Steady start s) (len : ℕ)
    (hlen : len ≤ segDataSize) (hstream : s.acked + len ≤ stream.length)
    (hok : ok s (promptPass s.conn ((stream.drop s.acked).take len))) :
    ∃ s', HttpReach stream start ok s' ∧ Steady start s' ∧ s'.acked = s.acked + len ∧
      s'.response = if 0 < len ∧ s.response.length + len ≤ responseSize then
        s.response ++ (stream.drop s.acked).take len else s.response := by
  have hdata : ((stream.drop s.acked).take len).length = len := by
    rw [List.length_take, List.length_drop]
    omega
  obtain ⟨rxBuf, hpass⟩ := httpPass_promptPass h ((stream.drop s.acked).take len)
    (hdata.trans_le hlen)
  have hwire : ∀ q ∈ (promptPass s.conn ((stream.drop s.acked).take len)).polls,
      OnWire stream start s q.frame := by
    intro q hq
    obtain rfl := List.mem_singleton.mp hq
    refine .inr ⟨s.acked, len, 0x10, hstream, by omega, ?_⟩
    rw [← h.seq]
    rw [segDataSize] at hlen
    exact isSegment_segmentFrame h.ip _ _ _ (by omega)
  have hflag : (0x10 : UInt8) &&& tcpFlagFin = 0 := by decide
  have hidle : (0 : UInt32) < 0 + tcpTimeoutTicks := by decide
  refine ⟨_, .pass hs hwire hok hpass, ⟨h.ip, ?_, by simp [takeSegment, h.fin, hflag],
    hidle⟩, ?_, ?_⟩
  · simp [takeSegment, hdata, h.seq, hflag, UInt32.ofNat_add, UInt32.add_assoc]
  · simp [takeSegment, hdata]
  · simp only [takeSegment, hdata]

/-- The beginning of a status line that comes in two segments. -/
theorem response_prefix_two_segments :
    ∃ s, HttpReach [72, 84, 84, 80, 47, 49] 0x2001 NoLateFit s ∧
      s.response = [72, 84, 84, 80, 47, 49] ∧ s.response <+: [72, 84, 84, 80, 47, 49] := by
  have hsteady : Steady 0x2001 (.start exampleConn [] 500) :=
    ⟨by decide, by decide, rfl, by decide⟩
  have hs : HttpReach [72, 84, 84, 80, 47, 49] 0x2001 NoLateFit (.start exampleConn [] 500) :=
    .init [] 500 rfl
  obtain ⟨s₁, hs₁, hsteady₁, hacked₁, hresp₁⟩ := reach_promptPass hs hsteady 4 (by decide)
    (by decide) (fun hne => absurd rfl hne)
  have hresp₁' : s₁.response = [72, 84, 84, 80] := hresp₁
  have hacked₁' : s₁.acked = 4 := hacked₁
  obtain ⟨s₂, hs₂, -, -, hresp₂⟩ := reach_promptPass hs₁ hsteady₁ 2 (by decide)
    (by rw [hacked₁']; decide) (fun hne => absurd (by rw [hacked₁', hresp₁']; rfl) hne)
  rw [hresp₁', hacked₁'] at hresp₂
  exact ⟨s₂, hs₂, hresp₂, response_prefix hs₂⟩

/-- A stream of zeros that ends with a one. -/
def holedStream : List UInt8 := List.replicate 65700 0 ++ [1]

theorem length_holedStream : holedStream.length = 65701 := by
  rw [holedStream, List.length_append, List.length_replicate, List.length_singleton]

/-- The first 44 full segments of it fit. -/
theorem reach_full_segments (n : ℕ) (hn : n ≤ 44) :
    ∃ s, HttpReach holedStream 0x2001 (fun _ _ => True) s ∧ Steady 0x2001 s ∧
      s.acked = 1460 * n ∧ s.response = List.replicate (1460 * n) 0 := by
  induction n with
  | zero =>
    exact ⟨.start exampleConn [] 500, .init [] 500 rfl, ⟨by decide, by decide, rfl, by decide⟩,
      rfl, rfl⟩
  | succ n ih =>
    obtain ⟨s, hs, hsteady, hacked, hresp⟩ := ih (by omega)
    obtain ⟨s', hs', hsteady', hacked', hresp'⟩ := reach_promptPass hs hsteady segDataSize
      (le_refl segDataSize) (by rw [length_holedStream, hacked, segDataSize]; omega) trivial
    have hpiece : (holedStream.drop (1460 * n)).take 1460 = List.replicate 1460 0 := by
      rw [holedStream, List.drop_append_of_le_length (by rw [List.length_replicate]; omega),
        List.drop_replicate, List.take_append_of_le_length (by rw [List.length_replicate]; omega),
        List.take_replicate, Nat.min_eq_left (by omega)]
    refine ⟨s', hs', hsteady', by rw [hacked', hacked, segDataSize]; ring, ?_⟩
    rw [hresp', hresp, hacked, List.length_replicate, segDataSize, responseSize,
      if_pos (by omega), hpiece, List.replicate_append_replicate]
    rfl

/-- After 44 full segments there is room for 1296 bytes: the next full segment is skipped, and
    the one byte after it is appended. -/
theorem response_hole :
    ∃ s, HttpReach holedStream 0x2001 (fun _ _ => True) s ∧ ¬ s.response <+: holedStream := by
  obtain ⟨s, hs, hsteady, hacked, hresp⟩ := reach_full_segments 44 le_rfl
  obtain ⟨s₁, hs₁, hsteady₁, hacked₁, hresp₁⟩ := reach_promptPass hs hsteady segDataSize
    (le_refl segDataSize) (by rw [length_holedStream, hacked, segDataSize]; decide) trivial
  rw [hresp, List.length_replicate, segDataSize, responseSize, if_neg (by decide)] at hresp₁
  rw [hacked, segDataSize] at hacked₁
  obtain ⟨s₂, hs₂, -, -, hresp₂⟩ := reach_promptPass hs₁ hsteady₁ 1 (by decide)
    (by rw [length_holedStream, hacked₁]) trivial
  have hlast : (holedStream.drop (1460 * 44 + 1460)).take 1 = [1] := by
    rw [holedStream, List.drop_append, List.length_replicate, List.drop_replicate]
    rfl
  rw [hresp₁, List.length_replicate, responseSize, if_pos (by decide), hacked₁, hlast] at hresp₂
  refine ⟨s₂, hs₂, fun hfirst => ?_⟩
  -- byte 64240 is one in the response and zero in the stream
  have hone : s₂.response[1460 * 44]? = some 1 := by
    rw [hresp₂, List.getElem?_append_right (by rw [List.length_replicate]), List.length_replicate,
      Nat.sub_self]
    rfl
  have hzero : holedStream[1460 * 44]? = some 0 := by
    rw [holedStream, List.getElem?_append_left (by rw [List.length_replicate]; decide),
      List.getElem?_replicate, if_pos (by decide)]
  obtain ⟨rest, hrest⟩ := hfirst
  rw [← hrest, List.getElem?_append_left (List.getElem?_eq_some_iff.mp hone).1, hone] at hzero
  exact absurd hzero (by decide)

end AuroraOS.Net
