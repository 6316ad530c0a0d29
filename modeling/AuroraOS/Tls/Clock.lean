import AuroraOS.Tls.Reassembly

/-!
# The clock of a receive

The clock and the deadlines are 32-bit numbers. A record that arrives within the timeout is received
unless the deadline of one of the calls of `tcp_wait_segment` wraps around: the clock is then never
below it, and nothing is polled any more until `tls_recv_record` gives up.

## Main definitions

- `Prompt` — everything arrives within the timeout
- `NoWrap` — no deadline wraps around

## Main results

- `tlsStreamFill_prompt`
- `tlsRecvRecord_prompt`
-/

namespace AuroraOS.Tls

open AuroraOS.Net

/-- The polls come in the order of time, less than the timeout after the clock stood at `start`. The
    differences are those of the time, also where the clock wraps around in between. -/
structure Prompt (start : UInt32) (arrivals : List Arrival) : Prop where
  ordered : arrivals.Pairwise fun p q => p.ticks - start ≤ q.ticks - start
  within : ∀ p ∈ arrivals, p.ticks - start < tlsRecvTimeoutTicks

/-- With `b` bytes there already: the deadline of every call of `tcp_wait_segment` that is made
    while fewer than `need` bytes are there lies ahead. A call begins with the first poll, and with
    each poll after one that brought data. -/
def NoWrap (need b : ℕ) (arrivals : List Arrival) : Prop :=
  ∀ pre p post, arrivals = pre ++ p :: post → (∀ a ∈ pre.getLast?, a.data ≠ []) →
    b + (bytes pre).length < need → p.ticks < p.ticks + tcpTimeoutTicks

section ticks

variable {start a b : UInt32}

theorem lt_add_ticks_iff : a < a + tcpTimeoutTicks ↔ a.toNat + 500 < 2 ^ 32 := by
  have hticks : tcpTimeoutTicks.toNat = 500 := rfl
  have hlt := a.toNat_lt
  rw [UInt32.lt_iff_toNat_lt, UInt32.toNat_add, hticks]
  omega

/-- Below a deadline that does not wrap around the clock does not either. -/
theorem toNat_of_within (hstart : start < start + tlsRecvTimeoutTicks)
    (h : a - start < tlsRecvTimeoutTicks) : a.toNat = start.toNat + (a - start).toNat := by
  have hticks : tlsRecvTimeoutTicks.toNat = 500 := rfl
  have hstart' := lt_add_ticks_iff.mp hstart
  have hlt := a.toNat_lt
  rw [UInt32.lt_iff_toNat_lt, UInt32.toNat_sub, hticks] at h
  rw [UInt32.toNat_sub]
  omega

theorem lt_deadline_of_within (hstart : start < start + tlsRecvTimeoutTicks)
    (h : a - start < tlsRecvTimeoutTicks) : a < start + tlsRecvTimeoutTicks := by
  have hticks : tlsRecvTimeoutTicks.toNat = 500 := rfl
  have hstart' := lt_add_ticks_iff.mp hstart
  have ha := toNat_of_within hstart h
  rw [UInt32.lt_iff_toNat_lt, hticks] at h
  rw [UInt32.lt_iff_toNat_lt, UInt32.toNat_add, hticks]
  omega

/-- From a deadline that does not wrap around to the deadlines of earlier calls. -/
theorem lt_add_of_within (hstart : start < start + tlsRecvTimeoutTicks)
    (ha : a - start < tlsRecvTimeoutTicks) (hb : b - start < tlsRecvTimeoutTicks)
    (hwrap : a < a + tcpTimeoutTicks) : b < a + tcpTimeoutTicks := by
  have hticks : tcpTimeoutTicks.toNat = 500 := rfl
  have hticks' : tlsRecvTimeoutTicks.toNat = 500 := rfl
  have ha' := toNat_of_within hstart ha
  have hb' := toNat_of_within hstart hb
  rw [UInt32.lt_iff_toNat_lt, hticks'] at hb
  have hroom := lt_add_ticks_iff.mp hwrap
  rw [UInt32.lt_iff_toNat_lt, UInt32.toNat_add, hticks]
  omega

/-- Once a deadline wraps around, all later ones do. -/
theorem wraps_of_within (hstart : start < start + tlsRecvTimeoutTicks)
    (ha : a - start < tlsRecvTimeoutTicks) (hb : b - start < tlsRecvTimeoutTicks)
    (hle : a - start ≤ b - start) (hwrap : ¬ a < a + tcpTimeoutTicks) :
    b + tcpTimeoutTicks ≤ b := by
  have ha' := toNat_of_within hstart ha
  have hb' := toNat_of_within hstart hb
  rw [UInt32.le_iff_toNat_le] at hle
  rw [lt_add_ticks_iff] at hwrap
  rw [← UInt32.not_lt, lt_add_ticks_iff]
  omega

end ticks

section calls

variable {need b : ℕ} {arrivals pre post : List Arrival} {a q : Arrival}

theorem noWrap_of_le (h : need ≤ b) : NoWrap need b arrivals :=
  fun _ _ _ _ _ hlt => absurd hlt (by omega)

theorem data_of_bytes (h : bytes pre = []) : ∀ p ∈ pre, p.data = [] :=
  List.flatMap_eq_nil_iff.mp h

/-- A call that ends with the segment `q`, and the calls after it. -/
theorem noWrap_iff (hpre : bytes pre = []) (hdata : q.data ≠ []) (hlt : b < need)
    (hhead : (pre ++ q :: post).head? = some a) :
    NoWrap need b (pre ++ q :: post) ↔
      a.ticks < a.ticks + tcpTimeoutTicks ∧ NoWrap need (b + q.data.length) post := by
  constructor
  · intro h
    constructor
    · obtain ⟨as, has⟩ := List.head?_eq_some_iff.mp hhead
      exact h [] a as has (by simp) hlt
    · intro pre' p post' hsplit hlast hlt'
      refine h (pre ++ q :: pre') p post' (by rw [hsplit]; simp) ?_ ?_
      · cases hpre' : pre'.getLast? with
        | none =>
          obtain rfl := List.getLast?_eq_none_iff.mp hpre'
          simpa using hdata
        | some l => simpa [List.getLast?_cons, hpre'] using hlast l hpre'
      · rw [bytes_append, hpre, List.nil_append, bytes_cons, List.length_append]
        omega
  · rintro ⟨ha, hpost⟩ pre' p post' hsplit hlast hlt'
    obtain rfl | hne := eq_or_ne pre' []
    · obtain rfl : a = p := by simpa [hsplit] using hhead.symm
      exact ha
    · -- the poll before `p` brought data, so it is `q` or comes after it
      obtain ⟨c, hc⟩ := Option.isSome_iff_exists.mp (List.getLast?_isSome.mpr hne)
      have hmem := List.mem_of_getLast? hc
      obtain ⟨l, hl, hrest⟩ : ∃ l, pre' = pre ++ q :: l ∧ post = l ++ p :: post' := by
        obtain ⟨l, hl, hrest⟩ | ⟨l, hl, hrest⟩ := List.append_eq_append_iff.mp hsplit
        · cases l with
          | nil =>
            rw [hl, List.append_nil] at hmem
            exact absurd (data_of_bytes hpre c hmem) (hlast c hc)
          | cons q' l =>
            obtain ⟨rfl, hpost'⟩ := List.cons.inj hrest
            exact ⟨l, hl, hpost'⟩
        · have hmem' : c ∈ pre := hl ▸ List.mem_append_left _ hmem
          exact absurd (data_of_bytes hpre c hmem') (hlast c hc)
      refine hpost l p post' hrest (fun c hc => hlast c ?_) ?_
      · rw [hl, List.getLast?_append, List.getLast?_cons, hc]
        rfl
      · rw [hl, bytes_append, hpre, List.nil_append, bytes_cons, List.length_append] at hlt'
        omega

end calls

/-- When all deadlines wrap around, nothing is polled. -/
theorem tlsStreamFill_wrapped {need : ℕ} {deadline : UInt32} {polls : List Poll} {tls : TlsConn}
    (hneed : ¬ need ≤ tls.stream.length) (h : ∀ p ∈ polls, p.ticks + tcpTimeoutTicks ≤ p.ticks) :
    (tlsStreamFill need deadline polls tls).1 = false := by
  induction polls with
  | nil => rw [tlsStreamFill.eq_def, if_neg hneed]
  | cons p ps ih =>
    obtain ⟨hwrap, hrest⟩ := List.forall_mem_cons.mp h
    by_cases hticks : deadline ≤ p.ticks
    · rw [tlsStreamFill_late hneed hticks]
    · rw [tlsStreamFill_of_wrap hneed hticks hwrap]
      exact ih hrest

section prompt

variable {start : UInt32} {arrivals : List Arrival} {tls : TlsConn}

theorem Prompt.drop {pre post : List Arrival} (h : Prompt start (pre ++ post)) :
    Prompt start post :=
  ⟨(List.pairwise_append.mp h.ordered).2.1, fun p hp => h.within p (List.mem_append_right _ hp)⟩

/-- When everything that is sent fits into the buffer and arrives within the timeout, a fill gets it
    unless a deadline wraps around. -/
theorem tlsStreamFill_prompt {need : ℕ} (hin : InOrder tls.tcp arrivals)
    (hneed : need ≤ tls.stream.length + (bytes arrivals).length)
    (hroom : tls.stream.length + (bytes arrivals).length ≤ tlsStreamBufSize)
    (hstart : start < start + tlsRecvTimeoutTicks) (hprompt : Prompt start arrivals) :
    (NoWrap need tls.stream.length arrivals ∧ ∃ mid rest tls',
      tlsStreamFill need (start + tlsRecvTimeoutTicks) (arrivals.map Arrival.poll) tls =
        (true, rest.map Arrival.poll, tls') ∧ Filled need arrivals tls mid rest tls') ∨
    (¬ NoWrap need tls.stream.length arrivals ∧
      (tlsStreamFill need (start + tlsRecvTimeoutTicks) (arrivals.map Arrival.poll) tls).1 =
        false) := by
  induction hn : arrivals.length using Nat.strong_induction_on generalizing arrivals tls with
  | _ n ih =>
    by_cases hdone : need ≤ tls.stream.length
    · exact .inl ⟨noWrap_of_le hdone, [], arrivals, tls, tlsStreamFill_of_le hdone _ _,
        .refl hdone hin⟩
    · have hlt : tls.stream.length < need := Nat.lt_of_not_le hdone
      have hne : bytes arrivals ≠ [] := fun hnil => by
        rw [hnil] at hneed
        exact hdone (by simpa using hneed)
      cases arrivals with
      | nil => exact absurd rfl hne
      | cons a as =>
        have ha := hprompt.within a List.mem_cons_self
        have hticks : a.poll.ticks < start + tlsRecvTimeoutTicks := lt_deadline_of_within hstart ha
        by_cases hwrap : a.ticks < a.ticks + tcpTimeoutTicks
        · have hwaitTime : ∀ pre q post, a :: as = pre ++ q :: post → bytes pre = [] →
              q.ticks < a.poll.ticks + tcpTimeoutTicks := fun pre q post hsplit _ =>
            lt_add_of_within hstart ha (hprompt.within q (by rw [hsplit]; simp)) hwrap
          obtain ⟨pre, q, post, flags, rxBuf, hsplit, hpre, hdata, hpost, hrun⟩ :=
            tlsStreamFill_turn hin hlt hne hticks hwaitTime
          have hbytes : bytes (a :: as) = q.data ++ bytes post := by
            rw [hsplit, bytes_append, hpre, List.nil_append, bytes_cons]
          have hcount : (a :: as).length = pre.length + (post.length + 1) := by
            rw [hsplit, List.length_append, List.length_cons]
          have hlen : (bytes (a :: as)).length = q.data.length + (bytes post).length := by
            rw [hbytes, List.length_append]
          have hfit : tls.stream.length + q.data.length ≤ tlsStreamBufSize := by omega
          rw [hrun, if_pos hfit, hsplit, noWrap_iff hpre hdata hlt (a := a) (by rw [← hsplit]; rfl),
            and_iff_right hwrap]
          have hprompt' : Prompt start ((pre ++ [q]) ++ post) := by
            rwa [hsplit, List.append_cons] at hprompt
          obtain ⟨hno, mid, rest, tls', hrun', hfilled⟩ | ⟨hno, hfail⟩ :=
            @ih post.length (by omega) post { tls.acknowledge ⟨flags, q.data⟩ rxBuf with
              stream := tls.stream ++ q.data } hpost
              (by simp only [List.length_append]; omega) (by simp only [List.length_append]; omega)
              hprompt'.drop rfl
          · rw [List.length_append] at hno
            exact .inl ⟨hno, _, _, _, hrun', hfilled.cons hpre hlt hfit⟩
          · rw [List.length_append] at hno
            exact .inr ⟨hno, hfail⟩
        · -- the clock does not move back: all later deadlines wrap around too
          refine .inr ⟨fun hno => hwrap (hno [] a as rfl (by simp) hlt), ?_⟩
          refine tlsStreamFill_wrapped hdone fun p hp => ?_
          obtain ⟨b, hb, rfl⟩ := List.mem_map.mp hp
          have hle : a.ticks - start ≤ b.ticks - start := by
            obtain rfl | hb := List.mem_cons.mp hb
            · exact UInt32.le_refl _
            · exact (List.pairwise_cons.mp hprompt.ordered).1 b hb
          exact wraps_of_within hstart ha (hprompt.within b hb) hle hwrap

/-- A header that does not arrive. -/
theorem tlsRecvRecord_of_header {maxPayload : ℕ} {encrypted : Bool} {polls : List Poll}
    (h : (tlsStreamFill 5 (clock polls + tlsRecvTimeoutTicks) polls tls).1 = false) :
    (tlsRecvRecord maxPayload encrypted polls tls).1 = .failed := by
  rw [tlsRecvRecord]
  split
  · rfl
  · next hfill =>
    rw [hfill] at h
    cases h

/-- A fragment that does not arrive behind its header. -/
theorem tlsRecvRecord_of_fragment {maxPayload : ℕ} {encrypted : Bool} {polls polls' : List Poll}
    {tls' : TlsConn}
    (hfill : tlsStreamFill 5 (clock polls + tlsRecvTimeoutTicks) polls tls = (true, polls', tls'))
    (h : (tlsStreamFill (5 + be16 tls'.stream 3) (clock polls + tlsRecvTimeoutTicks) polls'
      tls').1 = false) :
    (tlsRecvRecord maxPayload encrypted polls tls).1 = .failed := by
  rw [tlsRecvRecord, hfill]
  dsimp only
  split
  · rfl
  · next hrest =>
    rw [hrest] at h
    cases h

/-- A record that arrives within the timeout is received if and only if no deadline wraps around. -/
theorem tlsRecvRecord_prompt (maxPayload : ℕ) (encrypted : Bool) {r : Record} {rs : List Record}
    (hstream : tls.stream = []) (hin : InOrder tls.tcp arrivals)
    (htotal : bytes arrivals = encodeAll (r :: rs))
    (hroom : (bytes arrivals).length ≤ tlsStreamBufSize)
    (hprompt : Prompt (clock (arrivals.map Arrival.poll)) arrivals) :
    (NoWrap r.encode.length 0 arrivals ∧ ∃ mid rest tls',
      Filled r.encode.length arrivals tls mid rest tls' ∧
        tlsRecvRecord maxPayload encrypted (arrivals.map Arrival.poll) tls =
          ((tlsTakeRecord maxPayload encrypted r.fragment.length tls').1, rest.map Arrival.poll,
            (tlsTakeRecord maxPayload encrypted r.fragment.length tls').2)) ∨
    (¬ NoWrap r.encode.length 0 arrivals ∧
      (tlsRecvRecord maxPayload encrypted (arrivals.map Arrival.poll) tls).1 = .failed) := by
  have hlen : tls.stream.length = 0 := by rw [hstream, List.length_nil]
  have hfive : 5 ≤ r.encode.length := by
    rw [length_encode]
    omega
  have hneed : r.encode.length ≤ tls.stream.length + (bytes arrivals).length := by
    rw [htotal, encodeAll_cons, List.length_append]
    omega
  by_cases hstart : clock (arrivals.map Arrival.poll) <
      clock (arrivals.map Arrival.poll) + tlsRecvTimeoutTicks
  · generalize hclock : clock (arrivals.map Arrival.poll) = start at hstart hprompt
    have hspec := tlsStreamFill_prompt hin hneed (by omega) hstart hprompt
    have htrans := tlsStreamFill_trans hfive (start + tlsRecvTimeoutTicks)
      (arrivals.map Arrival.poll) tls
    rw [hlen] at hspec
    obtain ⟨-, mid₁, rest₁, tls₁, hfill₁, hfilled₁⟩ | ⟨-, hfail⟩ :=
      tlsStreamFill_prompt hin (hfive.trans hneed) (by omega) hstart hprompt
    · have htotal₁ : tls₁.stream ++ bytes rest₁ = encodeAll (r :: rs) := by
        rw [hfilled₁.total, hstream, List.nil_append, htotal]
      have hword := be16_stream htotal₁ hfilled₁.need_le
      rw [hfill₁] at htrans
      dsimp only at htrans
      obtain ⟨hno, mid, rest, tls', hrun, hfilled⟩ | ⟨hno, hfail⟩ := hspec
      · refine .inl ⟨hno, mid, rest, tls', hfilled, ?_⟩
        rw [tlsRecvRecord, hclock]
        simp only [hfill₁, hword, ← length_encode, ← htrans, hrun]
      · refine .inr ⟨hno, tlsRecvRecord_of_fragment (hclock ▸ hfill₁) ?_⟩
        rw [hclock, hword, ← length_encode, ← htrans]
        exact hfail
    · refine .inr ⟨?_, tlsRecvRecord_of_header (hclock ▸ hfail)⟩
      obtain ⟨-, mid, rest, tls', hrun, -⟩ | ⟨hno, -⟩ := hspec
      · generalize tlsStreamFill 5 _ _ tls = res at hfail htrans
        obtain ⟨ok, polls, tls₁⟩ := res
        obtain rfl : ok = false := hfail
        rw [hrun] at htrans
        exact absurd (congrArg Prod.fst htrans) (by simp)
      · exact hno
  · cases arrivals with
    | nil => exact absurd htotal (by simp [Record.encode])
    | cons a as =>
      refine .inr ⟨fun hno => hstart (hno [] a as rfl (by simp) ?_), ?_⟩
      · rw [bytes_nil, List.length_nil]
        omega
      · refine tlsRecvRecord_of_header ?_
        rw [List.map_cons] at hstart ⊢
        rw [tlsStreamFill_late (by rw [hlen]; decide) (UInt32.not_lt.mp hstart)]

end prompt

end AuroraOS.Tls
