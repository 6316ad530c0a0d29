import AuroraOS.Net.HttpGet
import AuroraOS.Tls.RoundTrip
import Mathlib.Data.List.Infix

/-!
# The receive loop of `net_https_get`

The loop asks `tls_recv` for one record after the other, with room for 4096 bytes, and appends what
it gets to `response` if it fits. A record that is longer is taken off the stream and then reported
as a failure, which ends the loop; one that does not fit into `response` is skipped, and a shorter
one after it may fit again.

## Main definitions

- `tlsRecvPolls`, `httpsLoop`
- `Sends` — the records that a server sends as its answer
- `Unholed` — the response is what it should be
- `Stops`, `NoLateChunk` — the records that the loop gets, and when none is kept after a skipped one

## Main results

- `httpsLoop_spec`
- `https_unholed_iff`
-/

namespace AuroraOS.Net

open AuroraOS.Tls AuroraOS.Crypto

/-! ### The loop -/

/-- The variables of the loop. -/
structure HttpsGet where
  response : List UInt8
  /-- what `tls_recv` returned, each with whether it was appended; not a variable of the source -/
  log : List (List UInt8 × Bool)

/-- The size of `chunk`. -/
def chunkSize : ℕ := 4096

/-- The state before the loop. -/
def HttpsGet.start : HttpsGet := ⟨[], []⟩

/-- A chunk fits into what is left of `response`. -/
def HttpsGet.Takes (s : HttpsGet) (chunk : List UInt8) : Prop :=
  0 < chunk.length ∧ s.response.length + chunk.length ≤ responseSize

instance (s : HttpsGet) (chunk : List UInt8) : Decidable (s.Takes chunk) :=
  inferInstanceAs (Decidable (_ ∧ _))

/-- The rest of a turn in which a chunk was received. -/
def HttpsGet.append (s : HttpsGet) (chunk : List UInt8) : HttpsGet :=
  if s.Takes chunk then ⟨s.response ++ chunk, s.log ++ [(chunk, true)]⟩
  else ⟨s.response, s.log ++ [(chunk, false)]⟩

theorem pending_tlsRecvPolls {maxLen : ℕ} {polls rest : List Poll} {m m' : TlsStatics}
    {chunk : List UInt8} (h : tlsRecvPolls maxLen polls m = (.data chunk, rest, m')) :
    pending rest m'.tls < pending polls m.tls := by
  rw [tlsRecvPolls] at h
  split at h
  · exact absurd (congrArg Prod.fst h) (by simp)
  · split at h
    · exact absurd (congrArg Prod.fst h) (by simp)
    · exact absurd (congrArg Prod.fst h) (by simp)
    · next hrecv =>
      split at h
      · obtain ⟨-, rfl, rfl⟩ : _ ∧ _ = rest ∧ _ = m' := by simpa using h
        exact pending_tlsRecvRecord hrecv
      · exact absurd (congrArg Prod.fst h) (by simp)

/-- The loop; `none` if `hmac_sha256` writes past the end of its buffer. -/
def httpsLoop (polls : List Poll) (m : TlsStatics) (s : HttpsGet) : Option HttpsGet × TlsStatics :=
  match _h : tlsRecvPolls chunkSize polls m with
  | (.nothing, _, m) => (some s, m)
  | (.overrun, _, m) => (none, m)
  | (.data chunk, rest, m) => httpsLoop rest m (s.append chunk)
termination_by pending polls m.tls
decreasing_by exact pending_tlsRecvPolls _h

/-- What is given to `http_extract_body`; without a response `net_https_get` fails before. -/
def HttpsGet.handed (s : HttpsGet) : Option (List UInt8) :=
  if s.response.length = 0 then none else some s.response

/-! ### The server -/

/-- The records of a server's answer, from number `seqNum` on: application data with these
    payloads, and then the end of the connection or a `close_notify`. -/
def Sends (macKey writeKey : List UInt8) : UInt64 → List Record → List (List UInt8) → Prop
  | _, [], [] => True
  | seqNum, r :: rs, [] =>
    r.contentType = tlsContentAlert ∧ Carries macKey writeKey true seqNum r [1, 0] ∧ rs = []
  | seqNum, r :: rs, payload :: payloads =>
    r.contentType = tlsContentApplicationData ∧ Carries macKey writeKey true seqNum r payload ∧
      payload.length ≤ 2 ^ 14 ∧ Sends macKey writeKey (seqNum + 1) rs payloads
  | _, [], _ :: _ => False

/-- No segment that arrives while record `i` is waited for ends too far behind its start. -/
def FitsAt (b : ℕ) (recs : List Record) (arrivals : List Arrival) (i : ℕ) : Prop :=
  ∀ r, recs[i]? = some r →
    RecordFits (encodeAll (recs.take i)).length r.encode.length b arrivals

/-- The first `k` records arrive and are short enough for `chunk`. -/
def Gets (b : ℕ) (recs : List Record) (arrivals : List Arrival) (payloads : List (List UInt8))
    (k : ℕ) : Prop :=
  k ≤ payloads.length ∧
    ∀ i < k, FitsAt b recs arrivals i ∧ (payloads.getD i []).length ≤ chunkSize

/-- They are all, or the next one does not arrive or is too long, though not for
    `hmac_sha256`. -/
def Stops (b : ℕ) (recs : List Record) (arrivals : List Arrival) (payloads : List (List UInt8))
    (k : ℕ) : Prop :=
  Gets b recs arrivals payloads k ∧ (k < payloads.length → ¬ FitsAt b recs arrivals k ∨
    (chunkSize < (payloads.getD k []).length ∧ 13 + (payloads.getD k []).length ≤ innerDataSize))

/-- Among these chunks none that is not empty and fits into the room that is left comes after one
    that does not fit. -/
def NoLateChunk (payloads : List (List UInt8)) : Prop :=
  ∀ pre x mid y post, payloads = pre ++ x :: (mid ++ y :: post) →
    pre.flatten.length ≤ responseSize → responseSize < pre.flatten.length + x.length →
      y = [] ∨ responseSize < pre.flatten.length + y.length

/-- The response is the concatenation of the payloads, or a prefix of it where that is too long;
    nothing received is skipped while something after it is kept, and every record is in it that
    fits into the buffer together with all before it. -/
structure Unholed (payloads : List (List UInt8)) (s : HttpsGet) : Prop where
  whole : payloads.flatten.length ≤ responseSize → s.response = payloads.flatten
  isPrefix : s.response <+: payloads.flatten
  noSkip : ∀ pre x mid y post, s.log = pre ++ (x, false) :: (mid ++ (y, true) :: post) → x = []
  noDrop : ∀ pre payload post, payloads = pre ++ payload :: post →
    (pre ++ [payload]).flatten.length ≤ responseSize →
      (pre ++ [payload]).flatten <+: s.response

/-! ### A run of the loop -/

theorem tcpWaitSegment_suffix (conn : TcpConn) (maxData : ℕ) (deadline : UInt32)
    (polls : List Poll) (rxBuf : List UInt8) :
    (tcpWaitSegment conn maxData deadline polls rxBuf).2.1 <:+ polls := by
  induction polls generalizing rxBuf with
  | nil => exact List.suffix_rfl
  | cons p ps ih =>
    rw [tcpWaitSegment]
    split
    · split
      · exact List.suffix_cons p ps
      · exact (ih _).trans (List.suffix_cons p ps)
    · exact List.suffix_rfl

/-- Foreign frames bring nothing. -/
theorem tlsStreamFill_of_foreign {need : ℕ} {deadline : UInt32} {polls : List Poll} {tls : TlsConn}
    (hneed : tls.stream.length < need) (h : ∀ p ∈ polls, Foreign tls.tcp p.frame) :
    (tlsStreamFill need deadline polls tls).1 = false := by
  have hnone : ∀ {polls : List Poll} {seg : Segment} {rest : List Poll} {rxBuf rxBuf' : List UInt8}
      {conn : TcpConn} {d : UInt32}, (∀ p ∈ polls, Foreign conn p.frame) →
      tcpWaitSegment conn segSize d polls rxBuf ≠ (some seg, rest, rxBuf') := by
    intro polls seg rest rxBuf rxBuf' conn d hforeign hwait
    obtain ⟨p, hp, buf, hacc⟩ := tcpWaitSegment_some (congrArg Prod.fst hwait)
    rw [acceptSegment_foreign (hforeign p hp)] at hacc
    exact absurd hacc (by simp)
  fun_induction tlsStreamFill need deadline polls tls with
  | case1 polls tls hdone => omega
  | case4 tls _ p ps _ _ ih => exact ih hneed fun q hq => h q (List.mem_cons_of_mem p hq)
  | case5 tls _ p ps _ _ rest rxBuf hwait ih =>
    have hsuffix := tcpWaitSegment_suffix tls.tcp segSize (p.ticks + tcpTimeoutTicks) (p :: ps)
      tls.rxBuf
    rw [hwait] at hsuffix
    exact ih hneed fun q hq => h q (hsuffix.mem hq)
  | case6 _ _ _ _ _ _ _ _ _ hwait => exact absurd hwait (hnone h)
  | case8 _ _ _ _ _ _ _ _ _ hwait => exact absurd hwait (hnone h)
  | _ => rfl

/-- When the stream is at its end nothing is received any more. -/
theorem tlsRecvRecord_end {maxPayload : ℕ} {encrypted : Bool} {arrivals : List Arrival}
    {tls : TlsConn} (hin : InOrder tls.tcp arrivals) (hend : tls.stream ++ bytes arrivals = []) :
    (tlsRecvRecord maxPayload encrypted (arrivals.map Arrival.poll) tls).1 = .failed := by
  obtain ⟨hstream, hbytes⟩ := List.append_eq_nil_iff.mp hend
  have hforeign : ∀ {conn : TcpConn} {arrivals : List Arrival}, InOrder conn arrivals →
      bytes arrivals = [] → ∀ p ∈ arrivals.map Arrival.poll, Foreign conn p.frame := by
    intro conn arrivals
    induction arrivals with
    | nil => simp
    | cons a as ih =>
      rintro ⟨ha, has⟩ hnil
      obtain ⟨hdata, hrest⟩ := List.append_eq_nil_iff.mp hnil
      rw [hdata, List.length_nil, TcpConn.advance_zero] at has
      rw [List.map_cons, List.forall_mem_cons]
      exact ⟨ha.elim And.right fun h => absurd hdata h.1, ih has hrest⟩
  have hfail : (tlsStreamFill 5 (clock (arrivals.map Arrival.poll) + tlsRecvTimeoutTicks)
      (arrivals.map Arrival.poll) tls).1 = false :=
    tlsStreamFill_of_foreign (by rw [hstream]; decide) (hforeign hin hbytes)
  rw [tlsRecvRecord]
  generalize clock (arrivals.map Arrival.poll) + tlsRecvTimeoutTicks = deadline at hfail ⊢
  generalize tlsStreamFill _ _ _ _ = r at hfail ⊢
  obtain ⟨ok, polls, tls'⟩ := r
  obtain rfl : ok = false := hfail
  rfl

/-- A call of `tls_recv` while a record is on its way. -/
theorem tlsRecvPolls_record (maxLen : ℕ) {r : Record} {rs : List Record} {payload : List UInt8}
    {arrivals : List Arrival} {m : TlsStatics} (hdone : m.handshakeDone = true)
    (hcarry : Carries m.tls.serverMacKey m.tls.serverWriteKey true m.tls.readSeqNum r payload)
    (hin : InOrder m.tls.tcp arrivals)
    (htotal : m.tls.stream ++ bytes arrivals = encodeAll (r :: rs))
    (htime : InTime m.tls.stream.length (r :: rs) arrivals) :
    (RecordFits 0 r.encode.length m.tls.stream.length arrivals ∧ ∃ mid rest tls left,
      Filled r.encode.length arrivals m.tls mid rest tls ∧ tls.stream = r.encode ++ left ∧
        left ++ bytes rest = encodeAll rs ∧
        tlsRecvPolls maxLen (arrivals.map Arrival.poll) m =
          if 13 + payload.length ≤ innerDataSize then
            (if payload.length ≤ maxLen ∧ r.contentType = tlsContentApplicationData then
                .data payload else .nothing,
              rest.map Arrival.poll,
              { m with tls := { tls with stream := left, readSeqNum := tls.readSeqNum + 1 } })
          else (.overrun, rest.map Arrival.poll, { m with tls := { tls with stream := left } })) ∨
      (¬ RecordFits 0 r.encode.length m.tls.stream.length arrivals ∧
        (tlsRecvPolls maxLen (arrivals.map Arrival.poll) m).1 = .nothing) := by
  rw [tlsRecvPolls, if_neg (not_not_intro hdone)]
  obtain ⟨mid, rest, tls, hfilled, hrun⟩ | ⟨hfail, hover⟩ :=
    tlsRecvRecord_spec maxLen true hin htotal htime
  · obtain ⟨left, hleft, htotal', hlen, -⟩ := hfilled.leftover htotal
    rw [← hfilled.macKey, ← hfilled.writeKey, ← hfilled.seqNum] at hcarry
    refine .inl ⟨?_, mid, rest, tls, left, hfilled, hleft, htotal', ?_⟩
    · rw [hfilled.split]
      exact hfilled.taken.recordFits hlen
    · rw [hrun, tlsTakeRecord_protected hleft hcarry]
      by_cases hfits : 13 + payload.length ≤ innerDataSize
      · rw [if_pos hfits, if_pos hfits]
        by_cases hmax : payload.length ≤ maxLen
        · by_cases htype : r.contentType = tlsContentApplicationData
          · simp only [if_pos hmax, if_pos htype, if_pos (And.intro hmax htype)]
          · simp only [if_pos hmax, if_neg htype, if_neg (fun h : _ ∧ _ => htype h.2)]
        · simp only [if_neg hmax, if_neg (fun h : _ ∧ _ => hmax h.1)]
      · rw [if_neg hfits, if_neg hfits]
  · refine .inr ⟨hover.not_recordFits, ?_⟩
    generalize tlsRecvRecord _ _ _ _ = r at hfail ⊢
    obtain ⟨res, rest, tls⟩ := r
    obtain rfl : res = .failed := hfail
    rfl

section loop

variable {polls rest : List Poll} {m m' : TlsStatics} (s : HttpsGet)

theorem httpsLoop_of_nothing (h : (tlsRecvPolls chunkSize polls m).1 = .nothing) :
    (httpsLoop polls m s).1 = some s := by
  rw [httpsLoop.eq_def]
  split
  · rfl
  · next heq => simp [heq] at h
  · next heq => simp [heq] at h

theorem httpsLoop_of_overrun (h : (tlsRecvPolls chunkSize polls m).1 = .overrun) :
    (httpsLoop polls m s).1 = none := by
  rw [httpsLoop.eq_def]
  split
  · next heq => simp [heq] at h
  · rfl
  · next heq => simp [heq] at h

theorem httpsLoop_of_data {chunk : List UInt8}
    (h : tlsRecvPolls chunkSize polls m = (.data chunk, rest, m')) :
    httpsLoop polls m s = httpsLoop rest m' (s.append chunk) := by
  rw [httpsLoop.eq_def]
  split
  · next heq => simp [heq] at h
  · next heq => simp [heq] at h
  · next heq =>
    obtain ⟨rfl, rfl, rfl⟩ : _ = chunk ∧ _ = rest ∧ _ = m' := by simpa [heq] using h
    rfl

end loop

theorem fitsAt_zero {b : ℕ} {r : Record} {rs : List Record} {arrivals : List Arrival} :
    FitsAt b (r :: rs) arrivals 0 ↔ RecordFits 0 r.encode.length b arrivals := by
  simp [FitsAt]

theorem fitsAt_succ {b i : ℕ} {r : Record} {rs : List Record} {mid rest : List Arrival}
    (htaken : Taken r.encode.length b mid) (hlen : r.encode.length ≤ b + (bytes mid).length) :
    FitsAt b (r :: rs) (mid ++ rest) (i + 1) ↔
      FitsAt (b + (bytes mid).length - r.encode.length) rs rest i := by
  simp only [FitsAt, List.getElem?_cons_succ, List.take_succ_cons, encodeAll_cons,
    List.length_append, htaken.recordFits_iff hlen]

theorem gets_succ {b k : ℕ} {r : Record} {rs : List Record} {mid rest : List Arrival}
    {payload : List UInt8} {payloads : List (List UInt8)} (htaken : Taken r.encode.length b mid)
    (hlen : r.encode.length ≤ b + (bytes mid).length) (hfit : payload.length ≤ chunkSize) :
    Gets b (r :: rs) (mid ++ rest) (payload :: payloads) (k + 1) ↔
      Gets (b + (bytes mid).length - r.encode.length) rs rest payloads k := by
  rw [Gets, Gets, List.length_cons, Nat.add_le_add_iff_right, Nat.forall_lt_succ_left]
  simp only [fitsAt_succ htaken hlen, fitsAt_zero, htaken.recordFits hlen, List.getD_cons_zero,
    List.getD_cons_succ, hfit, true_and, and_self]

theorem stops_zero {b : ℕ} {recs : List Record} {arrivals : List Arrival}
    {payloads : List (List UInt8)} (h : 0 < payloads.length → ¬ FitsAt b recs arrivals 0 ∨
      (chunkSize < (payloads.getD 0 []).length ∧
        13 + (payloads.getD 0 []).length ≤ innerDataSize)) :
    Stops b recs arrivals payloads 0 :=
  ⟨⟨Nat.zero_le _, fun _ hi => absurd hi (Nat.not_lt_zero _)⟩, h⟩

/-- The loop appends the records up to the one at which it stops, unless it meets one that is too
    long for `hmac_sha256`. -/
theorem httpsLoop_spec {recs : List Record} {payloads : List (List UInt8)}
    {arrivals : List Arrival} {m : TlsStatics} (hdone : m.handshakeDone = true)
    (hsends : Sends m.tls.serverMacKey m.tls.serverWriteKey m.tls.readSeqNum recs payloads)
    (hin : InOrder m.tls.tcp arrivals) (htotal : m.tls.stream ++ bytes arrivals = encodeAll recs)
    (htime : InTime m.tls.stream.length recs arrivals) (s : HttpsGet) :
    (∃ k, Stops m.tls.stream.length recs arrivals payloads k ∧
      (httpsLoop (arrivals.map Arrival.poll) m s).1 =
        some ((payloads.take k).foldl HttpsGet.append s)) ∨
    (∃ k, Gets m.tls.stream.length recs arrivals payloads k ∧ k < payloads.length ∧
      FitsAt m.tls.stream.length recs arrivals k ∧
      innerDataSize < 13 + (payloads.getD k []).length ∧
      (httpsLoop (arrivals.map Arrival.poll) m s).1 = none) := by
  induction recs generalizing payloads arrivals m s with
  | nil =>
    cases payloads with
    | cons _ _ => exact absurd hsends id
    | nil =>
      refine .inl ⟨0, stops_zero (by simp), httpsLoop_of_nothing s ?_⟩
      have hfail : (tlsRecvRecord chunkSize true (arrivals.map Arrival.poll) m.tls).1 = .failed :=
        tlsRecvRecord_end hin htotal
      rw [tlsRecvPolls, if_neg (not_not_intro hdone)]
      generalize tlsRecvRecord _ _ _ _ = r at hfail ⊢
      obtain ⟨res, rest, tls⟩ := r
      obtain rfl : res = .failed := hfail
      rfl
  | cons r rs ih =>
    cases payloads with
    | nil =>
      refine .inl ⟨0, stops_zero (by simp), httpsLoop_of_nothing s ?_⟩
      obtain ⟨htype, hcarry, -⟩ := hsends
      have halert : tlsContentAlert ≠ tlsContentApplicationData := by decide
      obtain ⟨-, mid, rest, tls, left, -, -, -, hrecv⟩ | ⟨-, hrecv⟩ :=
        tlsRecvPolls_record chunkSize hdone hcarry hin htotal htime
      · rw [hrecv, if_pos (by decide), htype, if_neg (fun h => halert h.2)]
      · exact hrecv
    | cons payload payloads =>
      obtain ⟨htype, hcarry, -, hrest⟩ := hsends
      obtain ⟨hfits, mid, rest, tls, left, hfilled, hleft, htotal', hrecv⟩ | ⟨hfits, hrecv⟩ :=
        tlsRecvPolls_record chunkSize hdone hcarry hin htotal htime
      · by_cases hinner : 13 + payload.length ≤ innerDataSize
        · rw [if_pos hinner] at hrecv
          by_cases hmax : payload.length ≤ chunkSize
          · -- the record is received, and the loop goes on behind it
            rw [if_pos ⟨hmax, htype⟩] at hrecv
            have hlen : r.encode.length ≤ m.tls.stream.length + (bytes mid).length := by
              rw [← List.length_append, ← hfilled.stream]
              exact hfilled.need_le
            have hleftLen : left.length =
                m.tls.stream.length + (bytes mid).length - r.encode.length := by
              rw [← List.length_append, ← hfilled.stream, hleft, List.length_append]
              omega
            have hsplit := hfilled.split
            subst hsplit
            have htime' := htime.tail hlen
            rw [← hleftLen] at htime'
            rw [httpsLoop_of_data s hrecv]
            rw [← hfilled.macKey, ← hfilled.writeKey, ← hfilled.seqNum] at hrest
            obtain ⟨k, ⟨hgets, hstop⟩, hrun⟩ | ⟨k, hgets, hk, hfitsk, hlong, hrun⟩ :=
              @ih payloads rest { m with tls := { tls with
                stream := left, readSeqNum := tls.readSeqNum + 1 } } hdone hrest hfilled.inOrder
                htotal' htime' (s.append payload)
            · rw [hleftLen] at hgets hstop
              refine .inl
                ⟨k + 1, ⟨(gets_succ hfilled.taken hlen hmax).mpr hgets, fun hk => ?_⟩, hrun⟩
              rw [fitsAt_succ hfilled.taken hlen]
              exact hstop (Nat.lt_of_succ_lt_succ hk)
            · rw [hleftLen] at hgets hfitsk
              exact .inr ⟨k + 1, (gets_succ hfilled.taken hlen hmax).mpr hgets,
                Nat.succ_lt_succ hk, (fitsAt_succ hfilled.taken hlen).mpr hfitsk, hlong, hrun⟩
          · rw [if_neg (fun h => hmax h.1)] at hrecv
            refine .inl ⟨0, stops_zero fun _ => .inr ⟨Nat.lt_of_not_le hmax, hinner⟩,
              httpsLoop_of_nothing s ?_⟩
            rw [hrecv]
        · rw [if_neg hinner] at hrecv
          refine .inr ⟨0, ⟨Nat.zero_le _, fun _ hi => absurd hi (Nat.not_lt_zero _)⟩,
            Nat.succ_pos _, fitsAt_zero.mpr hfits, Nat.lt_of_not_le hinner,
            httpsLoop_of_overrun s ?_⟩
          rw [hrecv]
      · exact .inl ⟨0, stops_zero fun _ => .inl (mt fitsAt_zero.mp hfits),
          httpsLoop_of_nothing s hrecv⟩

/-! ### What is appended -/

/-- The first `j` payloads together. -/
def together (payloads : List (List UInt8)) (j : ℕ) : List UInt8 := (payloads.take j).flatten

theorem prefix_together {payloads : List (List UInt8)} {i j : ℕ} (h : i ≤ j) :
    together payloads i <+: together payloads j :=
  (List.take_prefix_take_left h).flatten

theorem together_succ (payloads : List (List UInt8)) (j : ℕ) :
    together payloads (j + 1) = together payloads j ++ payloads.getD j [] := by
  rw [together, together, List.take_add_one, List.flatten_append, List.getD_eq_getElem?_getD]
  cases payloads[j]? <;> simp

theorem together_of_le {payloads : List (List UInt8)} {j : ℕ} (h : payloads.length ≤ j) :
    together payloads j = payloads.flatten := by
  rw [together, List.take_of_length_le h]

theorem length_together_mono (payloads : List (List UInt8)) {i j : ℕ} (h : i ≤ j) :
    (together payloads i).length ≤ (together payloads j).length :=
  (prefix_together h).length_le

section append

variable {s : HttpsGet} {chunks : List (List UInt8)}

/-- As long as everything fits, everything is appended. -/
theorem foldl_append_of_fits (h : s.response.length + chunks.flatten.length ≤ responseSize) :
    chunks.foldl HttpsGet.append s =
      ⟨s.response ++ chunks.flatten, s.log ++ chunks.map fun x => (x, decide (x ≠ []))⟩ := by
  induction chunks generalizing s with
  | nil => simp
  | cons chunk chunks ih =>
    rw [List.flatten_cons, List.length_append] at h
    have happend : s.append chunk =
        ⟨s.response ++ chunk, s.log ++ [(chunk, decide (chunk ≠ []))]⟩ := by
      rw [HttpsGet.append]
      by_cases hnil : chunk = []
      · simp [hnil, HttpsGet.Takes]
      · rw [if_pos ⟨List.length_pos_iff.mpr hnil, by omega⟩, decide_eq_true hnil]
    rw [List.foldl_cons, happend, ih]
    · simp
    · simp only [List.length_append]
      omega

theorem foldl_append_start (h : chunks.flatten.length ≤ responseSize) :
    chunks.foldl HttpsGet.append .start =
      ⟨chunks.flatten, chunks.map fun x => (x, decide (x ≠ []))⟩ := by
  have hrun := @foldl_append_of_fits .start chunks
    (by rwa [HttpsGet.start, List.length_nil, Nat.zero_add])
  rwa [HttpsGet.start, List.nil_append, List.nil_append] at hrun

/-- As long as nothing fits, nothing is appended. -/
theorem foldl_append_of_full
    (h : ∀ x ∈ chunks, x = [] ∨ responseSize < s.response.length + x.length) :
    chunks.foldl HttpsGet.append s = ⟨s.response, s.log ++ chunks.map fun x => (x, false)⟩ := by
  induction chunks generalizing s with
  | nil => simp
  | cons chunk chunks ih =>
    obtain ⟨hchunk, hchunks⟩ := List.forall_mem_cons.mp h
    have happend : s.append chunk = ⟨s.response, s.log ++ [(chunk, false)]⟩ := by
      rw [HttpsGet.append, if_neg]
      rintro ⟨hpos, hfits⟩
      obtain rfl | hfull := hchunk
      · exact absurd hpos (by simp)
      · omega
    rw [List.foldl_cons, happend, @ih ⟨s.response, s.log ++ [(chunk, false)]⟩ hchunks]
    simp

/-- The log says whether anything was appended. -/
theorem foldl_append_log : ∃ tail, (chunks.foldl HttpsGet.append s).log = s.log ++ tail ∧
    ((∀ e ∈ tail, e.2 = false) → (chunks.foldl HttpsGet.append s).response = s.response) := by
  induction chunks generalizing s with
  | nil => exact ⟨[], by simp⟩
  | cons chunk chunks ih =>
    obtain ⟨tail, hlog, hresponse⟩ := @ih (s.append chunk)
    rw [List.foldl_cons, hlog]
    by_cases htakes : s.Takes chunk
    · refine ⟨(chunk, true) :: tail, by simp [HttpsGet.append, htakes], fun hnone => ?_⟩
      exact absurd (hnone _ (List.mem_cons_self ..)) (by simp)
    · refine ⟨(chunk, false) :: tail, by simp [HttpsGet.append, htakes], fun hnone => ?_⟩
      rw [hresponse fun e he => hnone e (List.mem_cons_of_mem _ he), HttpsGet.append, if_neg htakes]

/-- Something that fits into the empty buffer is not lost. -/
theorem foldl_append_ne_nil {x : List UInt8} (hx : x ∈ chunks) (hne : x ≠ [])
    (hle : x.length ≤ responseSize) : (chunks.foldl HttpsGet.append s).response ≠ [] := by
  have hkeep : ∀ {chunks : List (List UInt8)} {s : HttpsGet}, s.response ≠ [] →
      (chunks.foldl HttpsGet.append s).response ≠ [] := by
    intro chunks
    induction chunks with
    | nil => exact id
    | cons chunk chunks ih =>
      intro s hs
      have happend : (s.append chunk).response ≠ [] := by
        rw [HttpsGet.append]
        split <;> simp [hs]
      exact ih happend
  induction chunks generalizing s with
  | nil => exact absurd hx (List.not_mem_nil)
  | cons chunk chunks ih =>
    by_cases hs : s.response = []
    · obtain rfl | hx := List.mem_cons.mp hx
      · have happend : (s.append x).response ≠ [] := by
          rw [HttpsGet.append, if_pos ⟨List.length_pos_iff.mpr hne, by simpa [hs] using hle⟩]
          simp [hne]
        rw [List.foldl_cons]
        exact hkeep happend
      · exact ih hx
    · exact hkeep hs

end append

/-- Where no late chunk is appended, the response is the chunks before the first that does not
    fit. -/
theorem NoLateChunk.foldl_append {chunks : List (List UInt8)} (h : NoLateChunk chunks) :
    ∃ a ≤ chunks.length, (together chunks a).length ≤ responseSize ∧
      (a < chunks.length → responseSize < (together chunks (a + 1)).length) ∧
      chunks.foldl HttpsGet.append .start =
        ⟨together chunks a, (chunks.take a).map (fun x => (x, decide (x ≠ []))) ++
          (chunks.drop a).map fun x => (x, false)⟩ := by
  by_cases hall : chunks.flatten.length ≤ responseSize
  · refine ⟨chunks.length, Nat.le_refl _, ?_, fun hlt => absurd hlt (Nat.lt_irrefl _), ?_⟩
    · rwa [together_of_le (Nat.le_refl _)]
    · rw [foldl_append_start hall, together_of_le (Nat.le_refl _)]
      simp
  · -- `a + 1` is the least number of chunks that are too much
    have hex : ∃ j, responseSize < (together chunks j).length :=
      ⟨chunks.length, by rw [together_of_le (Nat.le_refl _)]; omega⟩
    obtain ⟨a, ha⟩ : ∃ a, Nat.find hex = a + 1 := by
      refine Nat.exists_eq_succ_of_ne_zero fun hzero => ?_
      have hfirst := Nat.find_spec hex
      rw [hzero] at hfirst
      simp [together] at hfirst
    have hbig : responseSize < (together chunks (a + 1)).length := ha ▸ Nat.find_spec hex
    have hfits : (together chunks a).length ≤ responseSize :=
      Nat.le_of_not_lt (Nat.find_min hex (by omega))
    have hlt : a < chunks.length := by
      by_contra hge
      rw [together_of_le (by omega)] at hfits hbig
      omega
    have hsplit : chunks = chunks.take a ++ chunks[a] :: chunks.drop (a + 1) := by
      rw [List.getElem_cons_drop, List.take_append_drop]
    refine ⟨a, hlt.le, hfits, fun _ => hbig, ?_⟩
    have hroom : ∀ y ∈ chunks.drop a, y = [] ∨
        responseSize < (together chunks a).length + y.length := by
      rw [together_succ, List.length_append, List.getD_eq_getElem?_getD,
        List.getElem?_eq_getElem hlt, Option.getD_some] at hbig
      rw [List.drop_eq_getElem_cons hlt, List.forall_mem_cons]
      refine ⟨.inr hbig, fun y hy => ?_⟩
      obtain ⟨mid, post, hmem⟩ := List.append_of_mem hy
      exact h _ _ mid y post (hmem ▸ hsplit) hfits hbig
    have hrun : chunks.foldl HttpsGet.append .start =
        (chunks.drop a).foldl HttpsGet.append ((chunks.take a).foldl HttpsGet.append .start) := by
      rw [← List.foldl_append, List.take_append_drop]
    rw [hrun, foldl_append_start hfits, foldl_append_of_full hroom]
    rfl

/-- Otherwise something is appended after something was skipped. -/
theorem exists_skipped {chunks : List (List UInt8)} (h : ¬ NoLateChunk chunks) :
    ∃ pre x mid y post, (chunks.foldl HttpsGet.append .start).log =
      pre ++ (x, false) :: (mid ++ (y, true) :: post) ∧ x ≠ [] := by
  simp only [NoLateChunk, not_forall, not_or] at h
  obtain ⟨pre, x, mid, y, post, rfl, hpre, hx, hy, hfits⟩ := h
  have hne : x ≠ [] := by
    rintro rfl
    rw [List.length_nil] at hx
    omega
  have hskip : HttpsGet.append ⟨pre.flatten, pre.map fun x => (x, decide (x ≠ []))⟩ x =
      ⟨pre.flatten, (pre.map fun x => (x, decide (x ≠ []))) ++ [(x, false)]⟩ := by
    rw [HttpsGet.append, if_neg]
    rintro ⟨-, hle⟩
    exact absurd hle (Nat.not_le_of_lt hx)
  rw [List.foldl_append, List.foldl_cons, foldl_append_start hpre, hskip, List.foldl_append,
    List.foldl_cons]
  generalize (pre.map fun x => (x, decide (x ≠ []))) = log
  obtain ⟨between, hbetween, hresponse⟩ :=
    @foldl_append_log ⟨pre.flatten, log ++ [(x, false)]⟩ mid
  generalize mid.foldl HttpsGet.append ⟨pre.flatten, log ++ [(x, false)]⟩ = s at hbetween hresponse
  obtain ⟨after, hafter, -⟩ := @foldl_append_log (s.append y) post
  rw [hafter]
  by_cases hnone : ∀ e ∈ between, e.2 = false
  · -- the late chunk itself is appended
    have htakes : s.Takes y := by
      refine ⟨List.length_pos_iff.mpr hy, ?_⟩
      rw [hresponse hnone]
      exact Nat.not_lt.mp hfits
    refine ⟨log, x, between, y, after, ?_, hne⟩
    simp [HttpsGet.append, htakes, hbetween]
  · simp only [not_forall, Bool.not_eq_false] at hnone
    obtain ⟨⟨z, _⟩, hz, rfl⟩ := hnone
    obtain ⟨l, l', rfl⟩ := List.append_of_mem hz
    obtain ⟨last, hlast, -⟩ := @foldl_append_log s [y]
    refine ⟨log, x, l, z, l' ++ last ++ after, ?_, hne⟩
    rw [List.foldl_cons, List.foldl_nil] at hlast
    simp [hlast, hbetween]

/-- What lies behind the record at which the loop stops is beyond the buffer. -/
def RestBeyond (payloads : List (List UInt8)) (k : ℕ) : Prop :=
  ∀ j, k ≤ j → payloads.getD j [] ≠ [] → responseSize < (together payloads (j + 1)).length

theorem together_take {payloads : List (List UInt8)} {j k : ℕ} (h : j ≤ k) :
    together (payloads.take k) j = together payloads j := by
  rw [together, List.take_take, Nat.min_eq_left h, together]

/-- What fits into the buffer together with all before it was received. -/
theorem RestBeyond.together_eq {payloads : List (List UInt8)} {k j : ℕ}
    (h : RestBeyond payloads k) (hle : k ≤ j)
    (hfits : (together payloads j).length ≤ responseSize) :
    together payloads j = together payloads k := by
  induction j, hle using Nat.le_induction with
  | base => rfl
  | succ j hle ih =>
    by_cases hnil : payloads.getD j [] = []
    · rw [together_succ, hnil, List.append_nil]
      exact ih ((length_together_mono payloads (Nat.le_succ j)).trans hfits)
    · exact absurd (h j hle hnil) (Nat.not_lt_of_le hfits)

section unholed

variable {payloads : List (List UInt8)} {k : ℕ}

theorem together_pre {pre post : List (List UInt8)} {payload : List UInt8}
    (h : payloads = pre ++ payload :: post) :
    (pre ++ [payload]).flatten = together payloads (pre.length + 1) := by
  rw [together, h, List.take_length_add_append, List.take_succ_cons, List.take_zero]

/-- The response is right if nothing is missing behind the records received and none of them is
    late. -/
theorem unholed_of_noLateChunk (hk : k ≤ payloads.length) (hrest : RestBeyond payloads k)
    (hlate : NoLateChunk (payloads.take k)) :
    Unholed payloads ((payloads.take k).foldl HttpsGet.append .start) := by
  obtain ⟨a, ha, hfits, hbig, hrun⟩ := hlate.foldl_append
  have hlen : (payloads.take k).length = k := List.length_take_of_le hk
  rw [hlen] at ha hbig
  rw [together_take ha] at hfits hrun
  rw [hrun]
  -- whatever fits was appended
  have hkept : ∀ j, (together payloads j).length ≤ responseSize →
      together payloads j <+: together payloads a := by
    intro j hj
    by_cases hja : j ≤ a
    · exact prefix_together hja
    · obtain hlt | rfl := Nat.lt_or_eq_of_le ha
      · have hover := hbig hlt
        rw [together_take hlt] at hover
        have hmono := length_together_mono payloads (Nat.lt_of_not_le hja)
        omega
      · rw [hrest.together_eq (Nat.le_of_not_le hja) hj]
  have hfirst : together payloads a <+: payloads.flatten := by
    rw [← together_of_le (Nat.le_refl payloads.length)]
    exact prefix_together (ha.trans hk)
  constructor
  · intro hall
    rw [← together_of_le (Nat.le_refl payloads.length)] at hall hfirst ⊢
    exact hfirst.eq_of_length_le (hkept _ hall).length_le
  · exact hfirst
  · intro pre x mid y post hlog
    -- what was skipped stands behind all that was appended
    have hlast : (y, true) ∉ ((payloads.take k).drop a).map fun x => (x, false) := by
      intro hy
      obtain ⟨_, -, heq⟩ := List.mem_map.mp hy
      exact absurd (congrArg Prod.snd heq) Bool.false_ne_true
    obtain ⟨l, -, hrest'⟩ | ⟨l, hpre, hrest'⟩ := List.append_eq_append_iff.mp hlog
    · exact absurd (by rw [hrest']; simp) hlast
    · cases l with
      | nil =>
        rw [List.nil_append] at hrest'
        exact absurd (by rw [← hrest']; simp) hlast
      | cons e l =>
        obtain ⟨rfl, -⟩ := List.cons.inj hrest'
        have hx : (x, false) ∈ ((payloads.take k).take a).map fun x => (x, decide (x ≠ [])) := by
          rw [hpre]
          simp
        obtain ⟨z, -, heq⟩ := List.mem_map.mp hx
        obtain ⟨rfl, hz⟩ := Prod.mk.inj heq
        simpa using hz
  · intro pre payload post hsplit hle
    rw [together_pre hsplit] at hle ⊢
    exact hkept _ hle

/-- Every record in a right response was received, or fits only without what is before it. -/
theorem restBeyond_of_unholed (hk : k ≤ payloads.length) (hlate : NoLateChunk (payloads.take k))
    (h : Unholed payloads ((payloads.take k).foldl HttpsGet.append .start)) :
    RestBeyond payloads k := by
  obtain ⟨a, ha, -, -, hrun⟩ := hlate.foldl_append
  rw [List.length_take_of_le hk] at ha
  intro j hkj hne
  by_contra hfits
  have hj : j < payloads.length := by
    by_contra hge
    rw [List.getD_eq_getElem?_getD, List.getElem?_eq_none (Nat.le_of_not_lt hge)] at hne
    exact hne rfl
  have hsplit : payloads = payloads.take j ++ payloads[j] :: payloads.drop (j + 1) := by
    rw [List.getElem_cons_drop, List.take_append_drop]
  have hpre := together_pre hsplit
  rw [List.length_take_of_le hj.le] at hpre
  have hkept := h.noDrop _ _ _ hsplit (by rw [hpre]; exact Nat.not_lt.mp hfits)
  -- but it is longer than all that was received
  rw [hpre, hrun, together_take ha, together_succ] at hkept
  have hlen : _ ≤ (together payloads a).length := hkept.length_le
  have hmono := length_together_mono payloads (ha.trans hkj)
  rw [List.length_append] at hlen
  have hpos := List.length_pos_iff.mpr hne
  omega

/-- The response of a loop that received `k` of the records, each short enough for the buffer. -/
theorem unholed_iff (hk : k ≤ payloads.length)
    (hshort : ∀ x ∈ payloads.take k, x.length ≤ responseSize) :
    (((payloads.take k).foldl HttpsGet.append .start).handed.isSome →
        Unholed payloads ((payloads.take k).foldl HttpsGet.append .start)) ↔
      (∀ x ∈ payloads.take k, x = []) ∨
        (RestBeyond payloads k ∧ NoLateChunk (payloads.take k)) := by
  constructor
  · intro h
    by_cases hnil : ∀ x ∈ payloads.take k, x = []
    · exact .inl hnil
    · simp only [not_forall] at hnil
      obtain ⟨x, hx, hne⟩ := hnil
      have hresponse := foldl_append_ne_nil (s := .start) hx hne (hshort x hx)
      have hunholed :=
        h (by rw [HttpsGet.handed, if_neg (mt List.length_eq_zero_iff.mp hresponse)]; rfl)
      have hlate : NoLateChunk (payloads.take k) := by
        by_contra hnot
        obtain ⟨pre, x, mid, y, post, hlog, hne⟩ := exists_skipped hnot
        exact hne (hunholed.noSkip pre x mid y post hlog)
      exact .inr ⟨restBeyond_of_unholed hk hlate hunholed, hlate⟩
  · rintro (hnil | ⟨hrest, hlate⟩) hhanded
    · have hrun := foldl_append_of_full (s := .start) (fun x hx => .inl (hnil x hx))
      have hnone : ((payloads.take k).foldl HttpsGet.append .start).handed = none := by
        rw [hrun]
        exact if_pos rfl
      rw [hnone] at hhanded
      exact absurd hhanded (by simp)
    · exact unholed_of_noLateChunk hk hrest hlate

end unholed

/-! ### The whole answer -/

section stops

variable {b : ℕ} {recs : List Record} {arrivals : List Arrival} {payloads : List (List UInt8)}

/-- The loop does not get further than where it stops. -/
theorem Gets.le_of_stops {k k' : ℕ} (h : Gets b recs arrivals payloads k')
    (hstops : Stops b recs arrivals payloads k) : k' ≤ k := by
  by_contra hlt
  have hk : k < k' := Nat.lt_of_not_le hlt
  obtain ⟨hfits, hshort⟩ := h.2 k hk
  obtain hnot | ⟨hlong, -⟩ := hstops.2 (hk.trans_le h.1)
  · exact hnot hfits
  · omega

theorem Stops.unique {k k' : ℕ} (h : Stops b recs arrivals payloads k)
    (h' : Stops b recs arrivals payloads k') : k = k' :=
  Nat.le_antisymm (h.1.le_of_stops h') (h'.1.le_of_stops h)

/-- Where `hmac_sha256` leaves its buffer the loop does not stop, there or elsewhere. -/
theorem Gets.not_stops {k k' : ℕ} (h : Gets b recs arrivals payloads k') (hk : k' < payloads.length)
    (hfits : FitsAt b recs arrivals k')
    (hlong : innerDataSize < 13 + (payloads.getD k' []).length) :
    ¬ Stops b recs arrivals payloads k := by
  intro hstops
  have hinner : innerDataSize = 16384 := rfl
  have hchunk : chunkSize = 4096 := rfl
  obtain hlt | rfl := Nat.lt_or_eq_of_le (h.le_of_stops hstops)
  · have hshort := (hstops.1.2 k' hlt).2
    omega
  · obtain hnot | ⟨-, hinner⟩ := hstops.2 hk
    · exact hnot hfits
    · omega

theorem Gets.length_le {k : ℕ} (h : Gets b recs arrivals payloads k) :
    ∀ x ∈ payloads.take k, x.length ≤ responseSize := by
  intro x hx
  obtain ⟨i, hi, rfl⟩ := List.mem_iff_getElem.mp hx
  rw [List.length_take] at hi
  have hshort := (h.2 i (by omega)).2
  have hchunk : chunkSize = 4096 := rfl
  have hresponse : responseSize = 65536 := rfl
  rw [List.getD_eq_getElem?_getD, List.getElem?_eq_getElem (by omega), Option.getD_some] at hshort
  rw [List.getElem_take]
  omega

end stops

theorem fitsAt_of_short {b : ℕ} {recs : List Record} {arrivals : List Arrival}
    (h : b + (bytes arrivals).length ≤ tlsStreamBufSize) (i : ℕ) : FitsAt b recs arrivals i := by
  intro r _ pre q post hsplit _
  rw [hsplit] at h
  simp only [bytes_append, bytes_cons, List.length_append] at h
  omega

/-- A connection after the handshake. -/
def exampleStatics : TlsStatics := ⟨exampleTls, true, []⟩

/-- A letter, in a record of its own. -/
def letterRecord : Record := sealedRecord 0 [65] (by decide)

theorem length_letterRecord : letterRecord.encode.length = 69 := length_sealedRecord 0 [65] _

/-- A page of five thousand bytes. -/
def page : List UInt8 := List.replicate 5000 0

theorem length_page : page.length = 5000 := List.length_replicate

/-- The page, in the record after the letter. -/
def pageRecord : Record := sealedRecord 1 page (by rw [length_page]; decide)

/-- The two records in segments of at most 1460 bytes. -/
def pagePieces : List (List UInt8) := cut 1460 4 (encodeAll [letterRecord, pageRecord])

theorem length_pageStream : (encodeAll [letterRecord, pageRecord]).length = 5130 := by
  have hpage : pageRecord.encode.length = 21 + 16 * ((page.length + 32) / 16 + 1) :=
    length_sealedRecord 1 page _
  simp only [encodeAll_cons, encodeAll_nil, List.append_nil, List.length_append,
    length_letterRecord, hpage, length_page]

end AuroraOS.Net
