import AuroraOS.Tls.Record

/-!
# Reassembly of TLS records

Records are sent one after the other as one stream of bytes, which is cut into TCP segments
anywhere. `tls_recv_record` gets them back exactly when every segment ends at most
`TLS_STREAM_BUF_SIZE` bytes after the start of the record that is being waited for: the buffer has
no room for more, and a segment that does not fit has already been acknowledged. Protected records
also must not be larger than what `hmac_sha256` can hash.

## Main definitions

- `Arrival`, `InOrder` — what is polled, and the bytes of the stream it brings
- `InTime` — nothing is waited for longer than the deadline
- `SegmentsFit` — the condition on where segments end

## Main results

- `tlsStreamFill_spec`, `tlsRecvRecord_spec`
- `recvRecords_eq_iff`
-/

namespace AuroraOS.Tls

open AuroraOS.Net AuroraOS.Crypto

/-- A poll together with the bytes of the stream that its frame carries. -/
structure Arrival where
  ticks : UInt32
  frame : List UInt8
  data : List UInt8

/-- The poll alone. -/
def Arrival.poll (a : Arrival) : Poll := ⟨a.ticks, a.frame⟩

/-- The part of the stream that arrives. -/
def bytes (as : List Arrival) : List UInt8 := as.flatMap Arrival.data

@[simp]
theorem bytes_nil : bytes [] = [] := rfl

@[simp]
theorem bytes_cons (a : Arrival) (as : List Arrival) : bytes (a :: as) = a.data ++ bytes as := rfl

@[simp]
theorem bytes_append (as bs : List Arrival) : bytes (as ++ bs) = bytes as ++ bytes bs :=
  List.flatMap_append

/-- Segments of 1 to 1460 bytes arrive in the order of the stream, between frames that are no
    concern of the connection. -/
def InOrder (conn : TcpConn) : List Arrival → Prop
  | [] => True
  | a :: as =>
    ((a.data = [] ∧ Foreign conn a.frame) ∨ (a.data ≠ [] ∧ a.data.length ≤ 1460 ∧
      ∃ flags, IsSegment conn conn.remoteSeq flags a.data a.frame)) ∧
      InOrder (conn.advance a.data.length) as

/-- The stream of a list of records. -/
def encodeAll (recs : List Record) : List UInt8 := recs.flatMap Record.encode

@[simp]
theorem encodeAll_nil : encodeAll [] = [] := rfl

@[simp]
theorem encodeAll_cons (r : Record) (rs : List Record) :
    encodeAll (r :: rs) = r.encode ++ encodeAll rs := rfl

@[simp]
theorem length_encode (r : Record) : r.encode.length = 5 + r.fragment.length := by
  simp only [Record.encode, List.length_append, List.length_cons, List.length_nil]

/-- The segment `q` arrives when `n` bytes of the stream are there, while the record that starts
    at byte `start` and has `len` bytes is waited for. -/
def Awaits (start len n : ℕ) : Prop := start ≤ n ∧ n < start + len

/-- With `b` bytes of the records received already: every segment ends at most
    `TLS_STREAM_BUF_SIZE` bytes after the start of the record that is waited for when it
    arrives. -/
def SegmentsFit (b : ℕ) (recs : List Record) (arrivals : List Arrival) : Prop :=
  ∀ pre q post, arrivals = pre ++ q :: post → ∀ rpre r rpost, recs = rpre ++ r :: rpost →
    Awaits (encodeAll rpre).length r.encode.length (b + (bytes pre).length) →
      b + (bytes pre).length + q.data.length ≤ (encodeAll rpre).length + tlsStreamBufSize

/-- When the poll `q` is made for a record, the clock is below the deadline that `q` and every
    earlier poll for the same record would set. The deadline is a 32-bit sum: nothing is in time in
    the last `TLS_RECV_TIMEOUT_TICKS` ticks before the clock wraps around. -/
def InTime (b : ℕ) (recs : List Record) (arrivals : List Arrival) : Prop :=
  ∀ pre mid q post, arrivals = pre ++ (mid ++ q :: post) →
    ∀ rpre r rpost, recs = rpre ++ r :: rpost →
      Awaits (encodeAll rpre).length r.encode.length (b + (bytes pre).length) →
      Awaits (encodeAll rpre).length r.encode.length (b + (bytes (pre ++ mid)).length) →
        ∀ p ∈ mid ++ [q], q.ticks < p.ticks + tlsRecvTimeoutTicks

theorem payloadOffset_le (frame : List UInt8) : payloadOffset frame ≤ 134 := by
  have h₁ := tcpStart_le frame
  have h₂ := tcpHeaderLen_le frame
  rw [payloadOffset]
  omega

/-- `tcp_wait_segment` skips the foreign frames and returns the next segment. -/
theorem tcpWaitSegment_inOrder {conn : TcpConn} {deadline : UInt32} {arrivals : List Arrival}
    (hin : InOrder conn arrivals) (hne : bytes arrivals ≠ [])
    (htime : ∀ pre q post, arrivals = pre ++ q :: post → bytes pre = [] → q.ticks < deadline)
    (rxBuf : List UInt8) :
    ∃ pre q post flags rxBuf', arrivals = pre ++ q :: post ∧ bytes pre = [] ∧ q.data ≠ [] ∧
      tcpWaitSegment conn segSize deadline (arrivals.map Arrival.poll) rxBuf =
        (some ⟨flags, q.data⟩, post.map Arrival.poll, rxBuf') ∧
      InOrder (conn.advance q.data.length) post := by
  induction arrivals generalizing rxBuf with
  | nil => exact absurd rfl hne
  | cons a as ih =>
    obtain ⟨ha, has⟩ := hin
    have hticks : a.poll.ticks < deadline := htime [] a as rfl rfl
    rw [List.map_cons, tcpWaitSegment, if_pos hticks]
    obtain ⟨hnil, hforeign⟩ | ⟨hdata, hlen, flags, hseg⟩ := ha
    · have hacc := acceptSegment_foreign hforeign rxBuf segSize
      simp only [Arrival.poll] at hacc ⊢
      rw [hacc]
      rw [hnil, List.length_nil, TcpConn.advance_zero] at has
      obtain ⟨pre, q, post, flags, rxBuf', hsplit, hpre, hq, hwait, hin⟩ := ih has
        (by simpa [hnil] using hne)
        (fun pre q post hsplit hpre => htime (a :: pre) q post (by rw [hsplit]; rfl)
          (by simp [hnil, hpre]))
        (pollReceive a.frame rxBuf)
      exact ⟨a :: pre, q, post, flags, rxBuf', by rw [hsplit]; rfl, by simp [hnil, hpre], hq,
        hwait, hin⟩
    · have hacc := acceptSegment_isSegment hseg rxBuf segSize
      have hoff := payloadOffset_le a.frame
      rw [if_pos ⟨rfl, by rw [rxBufSize]; omega⟩,
        List.take_of_length_le (by rw [segSize]; omega)] at hacc
      simp only [Arrival.poll] at hacc ⊢
      rw [hacc]
      exact ⟨[], a, as, flags, _, rfl, rfl, hdata, rfl, has⟩

/-- With `b` bytes in the buffer: as long as fewer than `need` bytes are there, polls come before
    the deadline and less than the timeout after each other. -/
def Timely (need : ℕ) (deadline : UInt32) (b : ℕ) (arrivals : List Arrival) : Prop :=
  ∀ pre q post, arrivals = pre ++ q :: post → b + (bytes pre).length < need →
    q.ticks < deadline ∧ ∀ p ∈ pre ++ [q], q.ticks < p.ticks + tlsRecvTimeoutTicks

theorem Timely.drop {need b : ℕ} {deadline : UInt32} {mid rest : List Arrival}
    (h : Timely need deadline b (mid ++ rest)) :
    Timely need deadline (b + (bytes mid).length) rest := by
  intro pre q post hsplit hlt
  obtain ⟨hdeadline, hpre⟩ := h (mid ++ pre) q post (by rw [hsplit, List.append_assoc])
    (by rw [bytes_append, List.length_append]; omega)
  exact ⟨hdeadline, fun p hp =>
    hpre p (by rw [List.append_assoc]; exact List.mem_append_right _ hp)⟩

/-- The arrivals `mid` are taken one by one while fewer than `need` bytes are there, and fit. -/
def Taken (need b : ℕ) (mid : List Arrival) : Prop :=
  ∀ pre q post, mid = pre ++ q :: post → b + (bytes pre).length < need ∧
    b + (bytes pre).length + q.data.length ≤ tlsStreamBufSize

/-- Some segment arrives while fewer than `need` bytes are there, and does not fit. -/
def Overflows (need b : ℕ) (arrivals : List Arrival) : Prop :=
  ∃ pre q post, arrivals = pre ++ q :: post ∧ b + (bytes pre).length < need ∧
    tlsStreamBufSize < b + (bytes pre).length + q.data.length

theorem Taken.append {need b : ℕ} {mid₁ mid₂ : List Arrival} (h₁ : Taken need b mid₁)
    (h₂ : Taken need (b + (bytes mid₁).length) mid₂) : Taken need b (mid₁ ++ mid₂) := by
  intro pre q post hsplit
  obtain ⟨l, hpre, hrest⟩ | ⟨l, hmid, hrest⟩ := List.append_eq_append_iff.mp hsplit
  · obtain ⟨hlt, hle⟩ := h₂ l q post hrest
    rw [hpre, bytes_append, List.length_append, ← Nat.add_assoc]
    exact ⟨hlt, hle⟩
  · cases l with
    | nil =>
      obtain ⟨hlt, hle⟩ := h₂ [] q post (by simpa using hrest.symm)
      rw [hmid, List.append_nil] at hlt hle
      exact ⟨by simpa using hlt, by simpa using hle⟩
    | cons a l =>
      obtain ⟨rfl, -⟩ := List.cons.inj hrest
      exact h₁ pre q l hmid

/-- A successful fill: the arrivals `mid` were taken, `rest` is left. -/
structure Filled (need : ℕ) (arrivals : List Arrival) (tls : TlsConn) (mid rest : List Arrival)
    (tls' : TlsConn) : Prop where
  split : arrivals = mid ++ rest
  stream : tls'.stream = tls.stream ++ bytes mid
  need_le : need ≤ tls'.stream.length
  taken : Taken need tls.stream.length mid
  inOrder : InOrder tls'.tcp rest
  macKey : tls'.serverMacKey = tls.serverMacKey
  writeKey : tls'.serverWriteKey = tls.serverWriteKey
  seqNum : tls'.readSeqNum = tls.readSeqNum

/-- Nothing is taken when there is enough. -/
theorem Filled.refl {need : ℕ} {arrivals : List Arrival} {tls : TlsConn}
    (hdone : need ≤ tls.stream.length) (hin : InOrder tls.tcp arrivals) :
    Filled need arrivals tls [] arrivals tls where
  split := rfl
  stream := by rw [bytes_nil, List.append_nil]
  need_le := hdone
  taken := fun pre q post hsplit => absurd hsplit (by simp)
  inOrder := hin
  macKey := rfl
  writeKey := rfl
  seqNum := rfl

/-- Arrivals without data and then one segment, in front of a fill. -/
theorem Filled.cons {need : ℕ} {pre post mid rest : List Arrival} {q : Arrival}
    {tls tls' : TlsConn} {flags : UInt8} {rxBuf : List UInt8} (hpre : bytes pre = [])
    (hlt : tls.stream.length < need) (hfit : tls.stream.length + q.data.length ≤ tlsStreamBufSize)
    (h : Filled need post { tls.acknowledge ⟨flags, q.data⟩ rxBuf with
      stream := tls.stream ++ q.data } mid rest tls') :
    Filled need (pre ++ q :: post) tls (pre ++ q :: mid) rest tls' where
  split := by rw [h.split]; simp
  stream := by rw [h.stream]; simp [hpre]
  need_le := h.need_le
  taken := by
    have hq : Taken need tls.stream.length (pre ++ [q]) := by
      intro pre' q' post' hsplit
      have hpre' : bytes pre' = [] ∧ q'.data.length ≤ q.data.length := by
        obtain ⟨l, rfl, hrest⟩ | ⟨l, rfl, hrest⟩ := List.append_eq_append_iff.mp hsplit
        · cases l with
          | nil => simp_all
          | cons a l => simp at hrest
        · cases l with
          | nil => simp_all
          | cons a l =>
            obtain ⟨rfl, -⟩ := List.cons.inj hrest
            simp_all
      rw [hpre'.1, List.length_nil, Nat.add_zero]
      exact ⟨hlt, by omega⟩
    have happend := hq.append (by
      simpa [hpre, List.length_append] using h.taken)
    simpa using happend
  inOrder := h.inOrder
  macKey := h.macKey
  writeKey := h.writeKey
  seqNum := h.seqNum

/-- A turn of the loop of `tls_stream_fill` that receives the next segment before its deadline. -/
theorem tlsStreamFill_turn {need : ℕ} {deadline : UInt32} {a : Arrival} {as : List Arrival}
    {tls : TlsConn} (hin : InOrder tls.tcp (a :: as)) (hlt : tls.stream.length < need)
    (hne : bytes (a :: as) ≠ []) (hticks : a.poll.ticks < deadline)
    (htime : ∀ pre q post, a :: as = pre ++ q :: post → bytes pre = [] →
      q.ticks < a.poll.ticks + tcpTimeoutTicks) :
    ∃ pre q post flags rxBuf, a :: as = pre ++ q :: post ∧ bytes pre = [] ∧ q.data ≠ [] ∧
      InOrder (tls.tcp.advance q.data.length) post ∧
      tlsStreamFill need deadline ((a :: as).map Arrival.poll) tls =
        if tls.stream.length + q.data.length ≤ tlsStreamBufSize then
          tlsStreamFill need deadline (post.map Arrival.poll)
            { tls.acknowledge ⟨flags, q.data⟩ rxBuf with stream := tls.stream ++ q.data }
        else (false, post.map Arrival.poll, tls.acknowledge ⟨flags, q.data⟩ rxBuf) := by
  obtain ⟨pre, q, post, flags, rxBuf, hsplit, hpre, hdata, hwait, hpost⟩ :=
    tcpWaitSegment_inOrder hin hne htime tls.rxBuf
  refine ⟨pre, q, post, flags, rxBuf, hsplit, hpre, hdata, hpost, ?_⟩
  rw [List.map_cons] at hwait ⊢
  exact tlsStreamFill_of_segment hlt hticks (htime [] a as rfl rfl) hwait hdata

/-- `tls_stream_fill` either takes arrivals until there are enough bytes, or it meets a segment
    that does not fit. -/
theorem tlsStreamFill_spec {need : ℕ} {deadline : UInt32} {arrivals : List Arrival} {tls : TlsConn}
    (hin : InOrder tls.tcp arrivals)
    (hneed : need ≤ tls.stream.length + (bytes arrivals).length)
    (htime : Timely need deadline tls.stream.length arrivals) :
    (∃ mid rest tls', tlsStreamFill need deadline (arrivals.map Arrival.poll) tls =
        (true, rest.map Arrival.poll, tls') ∧ Filled need arrivals tls mid rest tls') ∨
      ((tlsStreamFill need deadline (arrivals.map Arrival.poll) tls).1 = false ∧
        Overflows need tls.stream.length arrivals) := by
  induction hn : arrivals.length using Nat.strong_induction_on generalizing arrivals tls with
  | _ n ih =>
    by_cases hdone : need ≤ tls.stream.length
    · exact .inl ⟨[], arrivals, tls, tlsStreamFill_of_le hdone _ _, .refl hdone hin⟩
    · have hlt : tls.stream.length < need := Nat.lt_of_not_le hdone
      have hne : bytes arrivals ≠ [] := fun hnil => by
        rw [hnil] at hneed
        exact hdone (by simpa using hneed)
      cases arrivals with
      | nil => exact absurd rfl hne
      | cons a as =>
        have hwaitTime : ∀ pre q post, a :: as = pre ++ q :: post → bytes pre = [] →
            q.ticks < a.poll.ticks + tcpTimeoutTicks := by
          intro pre q post hsplit hpre
          have hq := (htime pre q post hsplit (by rw [hpre]; exact hlt)).2 a
          apply hq
          cases pre with
          | nil =>
            obtain ⟨rfl, -⟩ := List.cons.inj hsplit
            exact List.mem_singleton_self a
          | cons a' pre =>
            obtain ⟨rfl, -⟩ := List.cons.inj hsplit
            exact List.mem_cons_self
        have hticks : a.poll.ticks < deadline := (htime [] a as rfl hlt).1
        obtain ⟨pre, q, post, flags, rxBuf, hsplit, hpre, hdata, hpost, hrun⟩ :=
          tlsStreamFill_turn hin hlt hne hticks hwaitTime
        have hpreLen : tls.stream.length + (bytes pre).length = tls.stream.length := by
          rw [hpre, List.length_nil, Nat.add_zero]
        rw [hrun]
        by_cases hfit : tls.stream.length + q.data.length ≤ tlsStreamBufSize
        · have hbytes : bytes (a :: as) = q.data ++ bytes post := by
            rw [hsplit, bytes_append, hpre, List.nil_append, bytes_cons]
          have hcount : (a :: as).length = pre.length + (post.length + 1) := by
            rw [hsplit, List.length_append, List.length_cons]
          have htime' := (hsplit ▸ htime : Timely _ _ _ (pre ++ ([q] ++ post))).drop.drop
          rw [if_pos hfit]
          obtain ⟨mid, rest, tls', hrun, hfilled⟩ | ⟨hfail, pre', q', post', hsplit', hlt', hbig⟩ :=
            @ih post.length (by omega) post { tls.acknowledge ⟨flags, q.data⟩ rxBuf with
              stream := tls.stream ++ q.data } hpost (by simpa [hbytes, Nat.add_assoc] using hneed)
              (by simpa [hpreLen] using htime') rfl
          · exact .inl ⟨_, _, _, hrun, hsplit ▸ hfilled.cons hpre hlt hfit⟩
          · refine .inr ⟨hfail, pre ++ q :: pre', q', post', by rw [hsplit, hsplit']; simp, ?_, ?_⟩
            · simpa [hpre, Nat.add_assoc] using hlt'
            · simpa [hpre, Nat.add_assoc] using hbig
        · rw [if_neg hfit]
          exact .inr ⟨rfl, pre, q, post, hsplit, by omega, by omega⟩

theorem Timely.mono {need need' b : ℕ} {deadline : UInt32} {arrivals : List Arrival}
    (hle : need ≤ need')
    (h : Timely need' deadline b arrivals) : Timely need deadline b arrivals :=
  fun pre q post hsplit hlt => h pre q post hsplit (by omega)

theorem Taken.mono {need need' b : ℕ} {mid : List Arrival} (hle : need ≤ need')
    (h : Taken need b mid) : Taken need' b mid :=
  fun pre q post hsplit => ⟨by have := (h pre q post hsplit).1; omega, (h pre q post hsplit).2⟩

/-- Two fills, the second for at least as much as the first. -/
theorem Filled.trans {need need' : ℕ} {arrivals mid₁ rest₁ mid₂ rest₂ : List Arrival}
    {tls tls₁ tls₂ : TlsConn} (hle : need ≤ need')
    (h₁ : Filled need arrivals tls mid₁ rest₁ tls₁)
    (h₂ : Filled need' rest₁ tls₁ mid₂ rest₂ tls₂) :
    Filled need' arrivals tls (mid₁ ++ mid₂) rest₂ tls₂ where
  split := by rw [h₁.split, h₂.split, List.append_assoc]
  stream := by rw [h₂.stream, h₁.stream, bytes_append, List.append_assoc]
  need_le := h₂.need_le
  taken := by
    apply (h₁.taken.mono hle).append
    simpa [h₁.stream] using h₂.taken
  inOrder := h₂.inOrder
  macKey := h₂.macKey.trans h₁.macKey
  writeKey := h₂.writeKey.trans h₁.writeKey
  seqNum := h₂.seqNum.trans h₁.seqNum

/-- A fill only moves bytes from the network to the buffer. -/
theorem Filled.total {need : ℕ} {arrivals mid rest : List Arrival} {tls tls' : TlsConn}
    (h : Filled need arrivals tls mid rest tls') :
    tls'.stream ++ bytes rest = tls.stream ++ bytes arrivals := by
  rw [h.stream, h.split, bytes_append, List.append_assoc]

/-- After a fill for the next record, the buffer holds the record and the beginning of the next
    ones. -/
theorem Filled.leftover {r : Record} {rs : List Record} {arrivals mid rest : List Arrival}
    {tls tls' : TlsConn} (h : Filled r.encode.length arrivals tls mid rest tls')
    (htotal : tls.stream ++ bytes arrivals = encodeAll (r :: rs)) :
    ∃ left, tls'.stream = r.encode ++ left ∧ left ++ bytes rest = encodeAll rs ∧
      r.encode.length ≤ tls.stream.length + (bytes mid).length ∧
      left.length = tls.stream.length + (bytes mid).length - r.encode.length := by
  have htotal' := h.total.trans htotal
  have hlen : tls'.stream.length = tls.stream.length + (bytes mid).length := by
    rw [h.stream, List.length_append]
  obtain ⟨left, hleft⟩ : r.encode <+: tls'.stream :=
    List.prefix_of_prefix_length_le ⟨encodeAll rs, rfl⟩ ⟨bytes rest, htotal'⟩ h.need_le
  refine ⟨left, hleft.symm, ?_, hlen ▸ h.need_le, ?_⟩
  · rw [← hleft, encodeAll_cons, List.append_assoc] at htotal'
    exact List.append_cancel_left htotal'
  · rw [← hlen, ← hleft, List.length_append]
    omega

/-- The polls made for the next record come before its deadline. -/
theorem InTime.timely {b : ℕ} {r : Record} {rs : List Record} {arrivals : List Arrival}
    (h : InTime b (r :: rs) arrivals) :
    Timely r.encode.length (clock (arrivals.map Arrival.poll) + tlsRecvTimeoutTicks) b
      arrivals := by
  intro pre q post hsplit hlt
  have hpre : ∀ p ∈ pre ++ [q], q.ticks < p.ticks + tlsRecvTimeoutTicks := by
    refine h [] pre q post hsplit [] r rs rfl ⟨Nat.zero_le _, ?_⟩ ⟨Nat.zero_le _, ?_⟩
    · simp only [bytes_nil, encodeAll_nil, List.length_nil]
      omega
    · simpa using hlt
  refine ⟨?_, hpre⟩
  subst hsplit
  cases pre with
  | nil => exact hpre q (List.mem_singleton_self q)
  | cons a pre => exact hpre a (List.mem_cons_self ..)

/-- The header of the next record, once five bytes of the stream are there. -/
theorem be16_stream {stream rest : List UInt8} {r : Record} {rs : List Record}
    (htotal : stream ++ rest = encodeAll (r :: rs)) (hlen : 5 ≤ stream.length) :
    be16 stream 3 = r.fragment.length := by
  have hbyte : ∀ i < 5, byteAt stream i = byteAt (encodeAll (r :: rs)) i := by
    intro i hi
    rw [← htotal, byteAt, byteAt, List.getD_eq_getElem?_getD, List.getD_eq_getElem?_getD,
      List.getElem?_append_left (by omega)]
  have hle := r.fragment_le
  rw [tlsMaxRecordCiphertext] at hle
  rw [be16, hbyte 3 (by omega), hbyte 4 (by omega)]
  simp only [encodeAll_cons, Record.encode, byteAt, List.cons_append, List.getD_cons_succ,
    List.getD_cons_zero, UInt8.toNat_ofNat']
  omega

/-- `tls_recv_record` fills the buffer up to the end of the next record and takes it, or it meets
    a segment that does not fit. -/
theorem tlsRecvRecord_spec (maxPayload : ℕ) (encrypted : Bool) {r : Record} {rs : List Record}
    {arrivals : List Arrival} {tls : TlsConn} (hin : InOrder tls.tcp arrivals)
    (htotal : tls.stream ++ bytes arrivals = encodeAll (r :: rs))
    (htime : InTime tls.stream.length (r :: rs) arrivals) :
    (∃ mid rest tls', Filled r.encode.length arrivals tls mid rest tls' ∧
        tlsRecvRecord maxPayload encrypted (arrivals.map Arrival.poll) tls =
          ((tlsTakeRecord maxPayload encrypted r.fragment.length tls').1, rest.map Arrival.poll,
            (tlsTakeRecord maxPayload encrypted r.fragment.length tls').2)) ∨
      ((tlsRecvRecord maxPayload encrypted (arrivals.map Arrival.poll) tls).1 = .failed ∧
        Overflows r.encode.length tls.stream.length arrivals) := by
  have htimely := htime.timely
  have hfive : 5 ≤ r.encode.length := by
    rw [length_encode]
    omega
  have hneed : r.encode.length ≤ tls.stream.length + (bytes arrivals).length := by
    rw [← List.length_append, htotal, encodeAll_cons, List.length_append]
    omega
  rw [tlsRecvRecord]
  generalize clock (arrivals.map Arrival.poll) + tlsRecvTimeoutTicks = deadline at htimely ⊢
  obtain ⟨mid₁, rest₁, tls₁, hfill₁, hfilled₁⟩ | ⟨hfail, pre, q, post, hsplit, hlt, hbig⟩ :=
    tlsStreamFill_spec hin (hfive.trans hneed) (htimely.mono hfive)
  · have hlen := be16_stream (hfilled₁.total.trans htotal) hfilled₁.need_le
    have hneed' : r.encode.length ≤ tls₁.stream.length + (bytes rest₁).length := by
      rw [← List.length_append, hfilled₁.total, List.length_append]
      exact hneed
    have htimely' : Timely r.encode.length deadline tls₁.stream.length rest₁ := by
      rw [hfilled₁.stream, List.length_append]
      rw [hfilled₁.split] at htimely
      exact htimely.drop
    simp only [hfill₁, hlen, ← length_encode]
    obtain ⟨mid₂, rest₂, tls₂, hfill₂, hfilled₂⟩ | ⟨hfail, pre, q, post, hsplit, hlt, hbig⟩ :=
      tlsStreamFill_spec hfilled₁.inOrder hneed' htimely'
    · refine .inl ⟨mid₁ ++ mid₂, rest₂, tls₂, hfilled₁.trans hfive hfilled₂, ?_⟩
      simp only [hfill₂]
    · refine .inr ⟨?_, mid₁ ++ pre, q, post, by rw [hfilled₁.split, hsplit, List.append_assoc],
        ?_, ?_⟩
      · generalize tlsStreamFill _ _ _ tls₁ = res at hfail ⊢
        obtain ⟨ok, polls, tls'⟩ := res
        obtain rfl : ok = false := hfail
        rfl
      · simpa [hfilled₁.stream, Nat.add_assoc] using hlt
      · simpa [hfilled₁.stream, Nat.add_assoc] using hbig
  · refine .inr ⟨?_, pre, q, post, hsplit, by omega, hbig⟩
    generalize tlsStreamFill _ _ _ tls = res at hfail ⊢
    obtain ⟨ok, polls, tls'⟩ := res
    obtain rfl : ok = false := hfail
    rfl

/-- With `b` bytes there already: every segment that arrives while the record of `len` bytes at
    byte `start` is waited for ends at most `TLS_STREAM_BUF_SIZE` bytes after its start. -/
def RecordFits (start len b : ℕ) (arrivals : List Arrival) : Prop :=
  ∀ pre q post, arrivals = pre ++ q :: post → Awaits start len (b + (bytes pre).length) →
    b + (bytes pre).length + q.data.length ≤ start + tlsStreamBufSize

theorem segmentsFit_iff {b : ℕ} {recs : List Record} {arrivals : List Arrival} :
    SegmentsFit b recs arrivals ↔ ∀ rpre r rpost, recs = rpre ++ r :: rpost →
      RecordFits (encodeAll rpre).length r.encode.length b arrivals :=
  ⟨fun h rpre r rpost hrecs pre q post hsplit => h pre q post hsplit rpre r rpost hrecs,
    fun h pre q post hsplit rpre r rpost hrecs => h rpre r rpost hrecs pre q post hsplit⟩

/-- The segments that a fill took fit. -/
theorem Taken.recordFits {len b : ℕ} {mid rest : List Arrival} (h : Taken len b mid)
    (hdone : len ≤ b + (bytes mid).length) : RecordFits 0 len b (mid ++ rest) := by
  intro pre q post hsplit ⟨hge, hlt⟩
  obtain ⟨l, rfl, hrest⟩ | ⟨l, rfl, hrest⟩ := List.append_eq_append_iff.mp hsplit
  · rw [bytes_append, List.length_append] at hlt
    omega
  · cases l with
    | nil =>
      rw [List.append_nil] at hdone
      omega
    | cons a l =>
      obtain ⟨rfl, -⟩ := List.cons.inj hrest
      have hfit := (h pre q l rfl).2
      omega

/-- After the record that a fill was for, nothing changes for the records behind it. -/
theorem Taken.recordFits_iff {need start len b : ℕ} {mid rest : List Arrival}
    (h : Taken need b mid) (hdone : need ≤ b + (bytes mid).length) :
    RecordFits (need + start) len b (mid ++ rest) ↔
      RecordFits start len (b + (bytes mid).length - need) rest := by
  constructor
  · intro hfits pre q post hsplit ⟨hge, hlt⟩
    have hfit := hfits (mid ++ pre) q post (by rw [hsplit, List.append_assoc])
    simp only [Awaits, bytes_append, List.length_append] at hfit
    have := hfit ⟨by omega, by omega⟩
    omega
  · intro hfits pre q post hsplit ⟨hge, hlt⟩
    obtain ⟨l, rfl, hrest⟩ | ⟨l, rfl, hrest⟩ := List.append_eq_append_iff.mp hsplit
    · -- the segment comes after the record was complete
      rw [bytes_append, List.length_append] at hge hlt ⊢
      have := hfits l q post hrest ⟨by omega, by omega⟩
      omega
    · cases l with
      | nil =>
        rw [List.append_nil] at hdone hfits
        have := hfits [] q post hrest.symm
          ⟨by simp only [bytes_nil, List.length_nil]; omega,
            by simp only [bytes_nil, List.length_nil]; omega⟩
        simp only [bytes_nil, List.length_nil] at this
        omega
      | cons a l =>
        -- the segment was taken while the record was waited for
        obtain ⟨rfl, -⟩ := List.cons.inj hrest
        have hlt' := (h pre q l rfl).1
        omega

/-- Taking the next record leaves the condition on the segments for the records after it. -/
theorem segmentsFit_cons {b : ℕ} {r : Record} {rs : List Record} {mid rest : List Arrival}
    (htaken : Taken r.encode.length b mid) (hdone : r.encode.length ≤ b + (bytes mid).length) :
    SegmentsFit b (r :: rs) (mid ++ rest) ↔
      SegmentsFit (b + (bytes mid).length - r.encode.length) rs rest := by
  rw [segmentsFit_iff, segmentsFit_iff]
  constructor
  · intro h rpre r' rpost hrecs
    have hfits := h (r :: rpre) r' rpost (by rw [hrecs]; rfl)
    rw [encodeAll_cons, List.length_append] at hfits
    exact (htaken.recordFits_iff hdone).mp hfits
  · intro h rpre r' rpost hrecs
    cases rpre with
    | nil =>
      obtain ⟨rfl, -⟩ := List.cons.inj hrecs
      exact htaken.recordFits hdone
    | cons r'' rpre =>
      obtain ⟨rfl, hrs⟩ := List.cons.inj hrecs
      rw [encodeAll_cons, List.length_append]
      exact (htaken.recordFits_iff hdone).mpr (h rpre r' rpost hrs)

/-- And the condition on the clock. -/
theorem InTime.tail {b : ℕ} {r : Record} {rs : List Record} {mid rest : List Arrival}
    (h : InTime b (r :: rs) (mid ++ rest)) (hdone : r.encode.length ≤ b + (bytes mid).length) :
    InTime (b + (bytes mid).length - r.encode.length) rs rest := by
  intro pre between q post hsplit rpre r' rpost hrecs ⟨hge, hlt⟩ ⟨hge', hlt'⟩
  have hq := h (mid ++ pre) between q post (by rw [hsplit, List.append_assoc]) (r :: rpre) r' rpost
    (by rw [hrecs]; rfl)
  simp only [Awaits, bytes_append, encodeAll_cons, List.length_append] at hq hge' hlt'
  exact hq ⟨by omega, by omega⟩ ⟨by omega, by omega⟩

theorem Overflows.not_recordFits {b len : ℕ} {arrivals : List Arrival}
    (h : Overflows len b arrivals) : ¬ RecordFits 0 len b arrivals := by
  obtain ⟨pre, q, post, hsplit, hlt, hbig⟩ := h
  intro hfits
  have := hfits pre q post hsplit ⟨Nat.zero_le _, by omega⟩
  omega

theorem Overflows.not_segmentsFit {b : ℕ} {r : Record} {rs : List Record}
    {arrivals : List Arrival} (h : Overflows r.encode.length b arrivals) :
    ¬ SegmentsFit b (r :: rs) arrivals :=
  fun hfit => h.not_recordFits (segmentsFit_iff.mp hfit [] r rs rfl)

/-- The records carry the payloads, each of at most `2 ^ 14` bytes, from number `seqNum` on. -/
def CarriesAll (macKey writeKey : List UInt8) (encrypted : Bool) :
    UInt64 → List Record → List (List UInt8) → Prop
  | _, [], [] => True
  | seqNum, r :: rs, payload :: payloads =>
    Carries macKey writeKey encrypted seqNum r payload ∧ payload.length ≤ 2 ^ 14 ∧
      CarriesAll macKey writeKey encrypted (seqNum + 1) rs payloads
  | _, _, _ => False

/-- The results that successive calls should have. -/
def expected (recs : List Record) (payloads : List (List UInt8)) : List RecvResult :=
  List.zipWith (fun r payload => .record r.contentType payload) recs payloads

/-- From any state between two records. -/
theorem recvRecords_eq_iff {maxPayload : ℕ} (hmax : 2 ^ 14 ≤ maxPayload) {encrypted : Bool}
    {recs : List Record} {payloads : List (List UInt8)} {arrivals : List Arrival} {tls : TlsConn}
    {seqNum : UInt64} (hseq : encrypted = true → tls.readSeqNum = seqNum)
    (hcarries : CarriesAll tls.serverMacKey tls.serverWriteKey encrypted seqNum recs payloads)
    (hin : InOrder tls.tcp arrivals) (htotal : tls.stream ++ bytes arrivals = encodeAll recs)
    (htime : InTime tls.stream.length recs arrivals) :
    tlsRecvRecords maxPayload encrypted recs.length (arrivals.map Arrival.poll) tls =
        expected recs payloads ↔
      SegmentsFit tls.stream.length recs arrivals ∧
        (encrypted = true → ∀ payload ∈ payloads, 13 + payload.length ≤ innerDataSize) := by
  induction recs generalizing payloads arrivals tls seqNum with
  | nil =>
    cases payloads with
    | nil =>
      refine iff_of_true rfl ⟨?_, by simp⟩
      intro pre q post _ rpre r rpost hrecs
      simp at hrecs
    | cons _ _ => exact absurd hcarries id
  | cons r rs ih =>
    cases payloads with
    | nil => exact absurd hcarries id
    | cons payload payloads =>
      obtain ⟨hcarry, hlen, hrest⟩ := hcarries
      rw [List.length_cons, tlsRecvRecords]
      obtain ⟨mid, rest, tls₁, hfilled, hrun⟩ | ⟨hfail, hover⟩ :=
        tlsRecvRecord_spec maxPayload encrypted hin htotal htime
      · obtain ⟨left, hleft, htotal', hdone, hleftLen⟩ := hfilled.leftover htotal
        have hcarry' : Carries tls₁.serverMacKey tls₁.serverWriteKey encrypted tls₁.readSeqNum r
            payload := by
          rw [hfilled.macKey, hfilled.writeKey, hfilled.seqNum]
          exact hcarry.of_seqNum hseq
        simp only [hrun, tlsTakeRecord_of_carries hleft hcarry' (hlen.trans hmax)]
        by_cases hfits : encrypted = true → 13 + payload.length ≤ innerDataSize
        · rw [if_pos hfits, hfilled.split, segmentsFit_cons hfilled.taken hdone, ← hleftLen]
          rw [hfilled.split] at htime
          have htime' := htime.tail hdone
          rw [← hleftLen] at htime'
          have hih := @ih payloads rest { tls₁ with
            stream := left
            readSeqNum := if encrypted then tls₁.readSeqNum + 1 else tls₁.readSeqNum }
            (seqNum + 1) (fun henc => by simp [henc, hfilled.seqNum, hseq henc])
            (by rw [hfilled.macKey, hfilled.writeKey]; exact hrest) hfilled.inOrder htotal' htime'
          rw [expected, List.zipWith_cons_cons, List.cons.injEq, eq_self_iff_true, true_and]
          refine hih.trans ⟨fun ⟨h₁, h₂⟩ => ⟨h₁, fun henc => ?_⟩, fun ⟨h₁, h₂⟩ =>
            ⟨h₁, fun henc => ?_⟩⟩
          · exact List.forall_mem_cons.mpr ⟨hfits henc, h₂ henc⟩
          · exact (List.forall_mem_cons.mp (h₂ henc)).2
        · rw [if_neg hfits]
          refine iff_of_false (fun heq => ?_) (fun hcond => hfits fun henc => ?_)
          · exact absurd (List.cons.inj heq).1 (by simp)
          · exact hcond.2 henc payload (List.mem_cons_self ..)
      · refine iff_of_false (fun heq => ?_) (fun hcond => hover.not_segmentsFit hcond.1)
        have hhead := (List.cons.inj heq).1
        rw [hfail] at hhead
        exact absurd hhead (by simp)

/-- Nothing can overflow as long as the whole stream fits into the buffer. -/
theorem segmentsFit_of_short {recs : List Record} {arrivals : List Arrival}
    (h : (bytes arrivals).length ≤ tlsStreamBufSize) : SegmentsFit 0 recs arrivals := by
  intro pre q post hsplit rpre r rpost _ _
  rw [hsplit] at h
  simp only [bytes_append, bytes_cons, List.length_append] at h
  omega

theorem inTime_of_ticks {recs : List Record} {arrivals : List Arrival} (b : ℕ)
    (h : ∀ p ∈ arrivals, p.ticks = 0) : InTime b recs arrivals := by
  intro pre mid q post hsplit _ _ _ _ _ _ p hp
  rw [h q (by simp [hsplit]), h p (by rw [hsplit]; simp at hp ⊢; tauto)]
  decide

/-- The given pieces of a stream arrive at once, one after the other. -/
def deliver (conn : TcpConn) : List (List UInt8) → List Arrival
  | [] => []
  | piece :: pieces =>
    ⟨0, segmentFrame conn conn.remoteSeq 0x18 piece, piece⟩ ::
      deliver (conn.advance piece.length) pieces

theorem inOrder_deliver {conn : TcpConn} (hip : conn.remoteIp < 2 ^ 32)
    {pieces : List (List UInt8)} (h : ∀ piece ∈ pieces, piece ≠ [] ∧ piece.length ≤ 1460) :
    InOrder conn (deliver conn pieces) := by
  induction pieces generalizing conn with
  | nil => trivial
  | cons piece pieces ih =>
    obtain ⟨⟨hne, hlen⟩, hrest⟩ := List.forall_mem_cons.mp h
    refine ⟨.inr ⟨hne, hlen, 0x18, isSegment_segmentFrame hip _ _ _ (hlen.trans (by decide))⟩, ?_⟩
    apply ih _ hrest
    exact hip

theorem deliver_append (conn : TcpConn) (ps qs : List (List UInt8)) :
    deliver conn (ps ++ qs) = deliver conn ps ++ deliver (conn.advance ps.flatten.length) qs := by
  induction ps generalizing conn with
  | nil => simp [deliver]
  | cons piece pieces ih =>
    rw [List.cons_append, deliver, ih, deliver, List.cons_append]
    simp [TcpConn.advance, UInt32.ofNat_add, UInt32.add_assoc]

@[simp]
theorem bytes_deliver (conn : TcpConn) (pieces : List (List UInt8)) :
    bytes (deliver conn pieces) = pieces.flatten := by
  induction pieces generalizing conn with
  | nil => rfl
  | cons piece pieces ih => rw [deliver, bytes_cons, ih, List.flatten_cons]

theorem ticks_deliver {conn : TcpConn} {pieces : List (List UInt8)} :
    ∀ p ∈ deliver conn pieces, p.ticks = 0 := by
  induction pieces generalizing conn with
  | nil => simp [deliver]
  | cons piece pieces ih => exact List.forall_mem_cons.mpr ⟨rfl, ih⟩

/-- A connection before its first record. -/
def exampleTls : TlsConn where
  tcp := exampleConn
  serverMacKey := []
  serverWriteKey := []
  readSeqNum := 0
  stream := []
  rxBuf := []

/-- `k` pieces of `n` bytes. -/
def cut (n : ℕ) : ℕ → List UInt8 → List (List UInt8)
  | 0, _ => []
  | k + 1, l => l.take n :: cut n k (l.drop n)

theorem flatten_cut (n k : ℕ) (l : List UInt8) : (cut n k l).flatten = l.take (n * k) := by
  induction k generalizing l with
  | zero => simp [cut]
  | succ k ih => rw [cut, List.flatten_cons, ih, Nat.mul_succ, Nat.add_comm, List.take_add]

theorem cut_add (n j k : ℕ) (l : List UInt8) :
    cut n (j + k) l = cut n j l ++ cut n k (l.drop (n * j)) := by
  induction j generalizing l with
  | zero => simp [cut]
  | succ j ih =>
    rw [Nat.succ_add, cut, cut, ih, List.cons_append, List.drop_drop, Nat.mul_succ, Nat.add_comm n]

theorem forall_mem_cut {n k : ℕ} {l : List UInt8} (hn : 0 < n) (hl : n * k < l.length + n) :
    ∀ piece ∈ cut n k l, piece ≠ [] ∧ piece.length ≤ n := by
  induction k generalizing l with
  | zero => simp [cut]
  | succ k ih =>
    rw [Nat.mul_succ] at hl
    refine List.forall_mem_cons.mpr ⟨⟨fun hnil => ?_, List.length_take_le _ _⟩, ?_⟩
    · have h := congrArg List.length hnil
      rw [List.length_take, List.length_nil] at h
      omega
    · apply ih
      rw [List.length_drop]
      omega

/-- A record of the largest plaintext size. -/
def bigRecord : Record := ⟨22, 3, 3, List.replicate 16384 0, by rw [List.length_replicate]; decide⟩

/-- Two of them, cut into full segments. -/
def bigPieces : List (List UInt8) := cut 1460 23 (encodeAll [bigRecord, bigRecord])

theorem length_bigRecord : bigRecord.fragment.length = 16384 := List.length_replicate

theorem length_bigStream : (encodeAll [bigRecord, bigRecord]).length = 32778 := by
  simp only [encodeAll_cons, encodeAll_nil, List.append_nil, List.length_append, length_encode,
    length_bigRecord]

theorem flatten_bigPieces : bigPieces.flatten = encodeAll [bigRecord, bigRecord] := by
  rw [bigPieces, flatten_cut, List.take_of_length_le (by rw [length_bigStream]; decide)]

/-- Eleven segments of it, and the twelfth. -/
theorem deliver_bigPieces : ∃ pre q post, deliver exampleConn bigPieces = pre ++ q :: post ∧
    (bytes pre).length = 16060 ∧ q.data.length = 1460 := by
  have hcut : bigPieces = cut 1460 11 (encodeAll [bigRecord, bigRecord]) ++
      cut 1460 12 ((encodeAll [bigRecord, bigRecord]).drop 16060) := by
    rw [bigPieces]
    exact cut_add 1460 11 12 _
  rw [hcut, deliver_append]
  refine ⟨_, _, _, rfl, ?_, ?_⟩
  · rw [bytes_deliver, flatten_cut, List.length_take, length_bigStream]
    decide
  · rw [List.length_take, List.length_drop, length_bigStream]
    decide

end AuroraOS.Tls
