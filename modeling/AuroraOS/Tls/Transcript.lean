import AuroraOS.Tls.Framing

/-!
# What the transcript holds

The transcript has 8192 bytes and the flight buffer 16384. A message for which the transcript has no
room is left out and the handshake goes on.

## Main definitions

- `transcriptAfter` — several messages are appended
- `finishedTranscript` — what the client's Finished is computed over

## Main results

- `flightLoop_handled`
- `finishedTranscript_complete_iff`
-/

namespace AuroraOS.Tls

set_option maxRecDepth 4096

open AuroraOS.Net AuroraOS.Crypto

/-- The size of `transcript`. -/
def transcriptSize : ℕ := 8192

/-- The transcript after these parts have been appended. -/
def transcriptAfter (transcript : List UInt8) (parts : List (List UInt8)) : List UInt8 :=
  parts.foldl (fun transcript part =>
    if transcript.length + part.length > transcriptSize then transcript else transcript ++ part)
    transcript

/-- The transcript at the end of the server's flight with the ClientKeyExchange. -/
def finishedTranscript (st : Flight) (ckeBody : List UInt8) : List UInt8 :=
  (st.transcriptAppend (handshakeMessage tlsHandshakeClientKeyExchange ckeBody)).transcript

section Parts

variable {transcript part : List UInt8} {parts : List (List UInt8)}

theorem transcript_transcriptAppend (st : Flight) (part : List UInt8) :
    (st.transcriptAppend part).transcript = transcriptAfter st.transcript [part] := by
  rw [Flight.transcriptAppend, transcriptAfter, List.foldl_cons, List.foldl_nil, transcriptSize]
  split <;> rfl

theorem transcriptAfter_append (transcript : List UInt8) (parts parts' : List (List UInt8)) :
    transcriptAfter transcript (parts ++ parts') =
      transcriptAfter (transcriptAfter transcript parts) parts' :=
  List.foldl_append

theorem length_transcriptAfter_le (h : transcript.length ≤ transcriptSize) :
    (transcriptAfter transcript parts).length ≤ transcriptSize := by
  induction parts generalizing transcript with
  | nil => exact h
  | cons part parts ih =>
    rw [transcriptAfter, List.foldl_cons]
    refine ih ?_
    split
    · exact h
    · next hroom =>
      rw [List.length_append]
      exact Nat.le_of_not_lt hroom

/-- The transcript is complete exactly when there is room for all of it. -/
theorem transcriptAfter_eq_iff (h : transcript.length ≤ transcriptSize) :
    transcriptAfter transcript parts = transcript ++ parts.flatten ↔
      transcript.length + parts.flatten.length ≤ transcriptSize := by
  constructor
  · intro hall
    rw [← List.length_append, ← hall]
    exact length_transcriptAfter_le h
  · intro hroom
    induction parts generalizing transcript with
    | nil => exact (List.append_nil _).symm
    | cons part parts ih =>
      rw [List.flatten_cons, List.length_append] at hroom
      rw [transcriptAfter, List.foldl_cons, if_neg (by omega), ← transcriptAfter,
        ih (by rw [List.length_append]; omega) (by rw [List.length_append]; omega),
          List.flatten_cons,
        List.append_assoc]

end Parts

section Handled

variable {prims : Primitives} {clientRandom : List UInt8} {st st' : Flight}

theorem handleMessages_transcript {msgs : List (List UInt8)} {behind : List UInt8}
    (hmsgs : ∀ m ∈ msgs, IsMessage m)
    (h : handleMessages prims clientRandom (views (msgs.flatten ++ behind) msgs) st = .ok st') :
    st'.transcript = transcriptAfter st.transcript msgs := by
  induction msgs generalizing st with
  | nil =>
    cases h
    rfl
  | cons m ms ih =>
    obtain ⟨hm, hms⟩ := List.forall_mem_cons.mp hmsgs
    rw [views, List.flatten_cons, List.append_assoc, List.drop_left] at h
    obtain ⟨mid, hmid, hrest⟩ := handleMessages_cons h
    have htranscript := (handleMessage_learns hmid).transcript
    rw [hm.messageLen_append, ← hm, List.take_left, transcript_transcriptAppend] at htranscript
    rw [ih hms hrest, htranscript, ← transcriptAfter_append, List.singleton_append]

variable {polls polls' : List Poll} {tls tls' : TlsConn} {fb fb' : FlightBuf}

/-- A record that is accepted either is none of the handshake, or completes some messages. -/
theorem onRecord_handled {contentType : UInt8} {payload data : List UInt8} (hholds : Holds fb data)
    (hdata : Incomplete data)
    (h : onRecord prims clientRandom contentType payload fb st = (.ok st', fb')) :
    ∃ msgs rest, data ++ (if contentType = tlsContentHandshake then payload else []) =
        msgs.flatten ++ rest ∧ (∀ m ∈ msgs, IsMessage m) ∧ Incomplete rest ∧ Holds fb' rest ∧
      st'.transcript = transcriptAfter st.transcript msgs := by
  by_cases halert : contentType = tlsContentAlert
  · rw [onRecord, if_pos halert] at h
    simp at h
  by_cases hother : contentType = tlsContentHandshake
  · subst hother
    by_cases hfull : fb.len + payload.length ≤ flightSize
    · obtain ⟨msgs, rest, hsplit, hmsgs, hrest⟩ := exists_messages (data ++ payload)
      have happend := hholds.append payload
      have hmem : (fb.append payload).buf =
          msgs.flatten ++ (rest ++ (fb.append payload).buf.drop (fb.append payload).len) := by
        rw [← List.append_assoc, ← hsplit, ← happend.take_eq, List.take_append_drop]
      rw [onRecord_messages_eq st hholds hfull hsplit hmsgs hrest] at h
      cases hrun : handleMessages prims clientRandom (views (fb.append payload).buf msgs) st with
      | error e =>
        rw [hrun] at h
        simp at h
      | ok mid =>
        rw [hrun] at h
        obtain ⟨rfl, rfl⟩ : mid = st' ∧ (fb.append payload).shift msgs.flatten.length = fb' := by
          simpa using h
        rw [hmem] at hrun
        have hleft := happend.shift msgs.flatten.length
        rw [hsplit, List.drop_left] at hleft
        refine ⟨msgs, rest, ?_, hmsgs, hrest, hleft, handleMessages_transcript hmsgs hrun⟩
        rw [if_pos rfl, hsplit]
    · rw [onRecord, if_neg halert, if_neg (not_not_intro rfl), if_pos (Nat.lt_of_not_le hfull)] at h
      simp at h
  · rw [onRecord, if_neg halert, if_pos hother] at h
    obtain ⟨rfl, rfl⟩ : st = st' ∧ fb = fb' := by simpa using h
    exact ⟨[], data, by simp [hother], List.forall_mem_nil _, hdata, hholds, rfl⟩

/-- What the loop over the records has received and appended to the transcript. -/
theorem flightLoop_handled {data : List UInt8} (hholds : Holds fb data) (hdata : Incomplete data)
    (h : flightLoop prims clientRandom polls tls fb st = (.ok st', polls', tls', fb')) :
    ∃ records msgs rest, Received polls tls records polls' tls' ∧
      data ++ handshakeBytes records = msgs.flatten ++ rest ∧ (∀ m ∈ msgs, IsMessage m) ∧
      Incomplete rest ∧ st'.transcript = transcriptAfter st.transcript msgs := by
  fun_induction flightLoop prims clientRandom polls tls fb st generalizing data with
  | case1 polls tls fb st hdone =>
    obtain ⟨rfl, rfl, rfl, rfl⟩ : st = st' ∧ polls = polls' ∧ tls = tls' ∧ fb = fb' := by
      simpa using h
    exact ⟨[], [], data, .nil, by simp [handshakeBytes], List.forall_mem_nil _, hdata, rfl⟩
  | case2 => simp at h
  | case3 => simp at h
  | case4 => simp at h
  | case5 polls tls fb st _ contentType payload polls₁ tls₁ hrecv mid fb₁ hon ih =>
    obtain ⟨first, rest, hsplit, hfirst, hrest, hleft, htranscript⟩ :=
      onRecord_handled hholds hdata hon
    obtain ⟨records, later, rest', hreceived, hbytes, hlater, hrest', htranscript'⟩ :=
      ih hleft hrest h
    refine ⟨(contentType, payload) :: records, first ++ later, rest', .cons hrecv hreceived, ?_,
      List.forall_mem_append.mpr ⟨hfirst, hlater⟩, hrest', ?_⟩
    · rw [handshakeBytes_cons, ← List.append_assoc, hsplit, List.append_assoc, hbytes,
        List.flatten_append, List.append_assoc]
    · rw [htranscript', htranscript, ← transcriptAfter_append]

end Handled

section Finished

variable {prims : Primitives} {clientRandom hello ckeBody buf : List UInt8}
  {polls polls' : List Poll} {tls tls' : TlsConn} {fb : FlightBuf} {st : Flight}
  {records : List (UInt8 × List UInt8)} {msgs : List (List UInt8)} {rest : List UInt8}

/-- Everything is appended, or left out, in its order. -/
theorem finishedTranscript_eq
    (hflight : flightLoop prims clientRandom polls tls ⟨buf, 0⟩ (Flight.start hello) =
      (.ok st, polls', tls', fb))
    (hrecords : Received polls tls records polls' tls')
    (hbytes : handshakeBytes records = msgs.flatten ++ rest) (hmsgs : ∀ m ∈ msgs, IsMessage m)
    (hrest : Incomplete rest) :
    finishedTranscript st ckeBody = transcriptAfter []
      ([hello] ++ msgs ++ [handshakeMessage tlsHandshakeClientKeyExchange ckeBody]) := by
  obtain ⟨records', msgs', rest', hrecords', hbytes', hmsgs', hrest', htranscript⟩ :=
    flightLoop_handled (.empty buf) incomplete_nil hflight
  obtain rfl := hrecords.unique hrecords'
  rw [List.nil_append, hbytes] at hbytes'
  obtain ⟨rfl, -⟩ := parse_unique hmsgs hmsgs' hrest hrest' hbytes'
  have hstart : (Flight.start hello).transcript = transcriptAfter [] [hello] :=
    transcript_transcriptAppend _ hello
  rw [finishedTranscript, transcript_transcriptAppend, htranscript, hstart, transcriptAfter_append,
    transcriptAfter_append]

end Finished

/-- The client's Finished is computed over the ClientHello, all complete messages of the server and
    the ClientKeyExchange exactly when these have at most 8192 bytes together. -/
theorem finishedTranscript_complete_iff {prims : Primitives}
    {clientRandom hello ckeBody buf : List UInt8} {polls polls' : List Poll} {tls tls' : TlsConn}
    {fb : FlightBuf} {st : Flight} {records : List (UInt8 × List UInt8)} {msgs : List (List UInt8)}
    {rest : List UInt8}
    (hflight : flightLoop prims clientRandom polls tls ⟨buf, 0⟩ (Flight.start hello) =
      (.ok st, polls', tls', fb))
    (hrecords : Received polls tls records polls' tls')
    (hbytes : handshakeBytes records = msgs.flatten ++ rest) (hmsgs : ∀ m ∈ msgs, IsMessage m)
    (hrest : Incomplete rest) :
    finishedTranscript st ckeBody = hello ++ msgs.flatten ++
        handshakeMessage tlsHandshakeClientKeyExchange ckeBody ↔
      hello.length + msgs.flatten.length +
        (handshakeMessage tlsHandshakeClientKeyExchange ckeBody).length ≤ transcriptSize := by
  have hiff := @transcriptAfter_eq_iff []
    ([hello] ++ msgs ++ [handshakeMessage tlsHandshakeClientKeyExchange ckeBody]) (Nat.zero_le _)
  rw [finishedTranscript_eq hflight hrecords hbytes hmsgs hrest]
  simpa [Nat.add_assoc] using hiff

section Runs

/-- A client that connects to the host `a`. -/
def hostInput : ConnectInput := exampleInput []

/-- Certificates of one byte, and a curve with one point. -/
def pointPrimitives : Primitives :=
  { bytePrimitives with
    eccGenerateKeypair := fun _ => some (List.replicate 32 1, List.replicate 65 4)
    eccComputeSharedSecret := fun _ _ => some (List.replicate 32 2) }

/-- The Certificate message of the server `a`, with further certificates. -/
def chainCertificate (chain : List UInt8) : List UInt8 :=
  [11, 0, UInt8.ofNat ((chain.length + 7) / 256), UInt8.ofNat (chain.length + 7), 0,
    UInt8.ofNat ((chain.length + 4) / 256), UInt8.ofNat (chain.length + 4), 0, 0, 1, 0x61] ++ chain

/-- The flight of the server `a`. -/
def chainFlight (chain : List UInt8) : List (List UInt8) :=
  [ecdheHello, chainCertificate chain, byteKeyExchange 0x61, serverHelloDone]

/-- The body of the ClientKeyExchange. -/
def pointBody : List UInt8 := 65 :: List.replicate 65 4

/-- The local variables after this flight. -/
def chainState (transcript : List UInt8) : Flight where
  serverRandom := List.replicate 32 9
  transcript := transcript
  serverCert := some ⟨[0x61], [0x61], [3]⟩
  gotServerHello := true
  gotServerKeyExchange := true
  gotServerHelloDone := true
  chosenCipherSuite := tlsCipherEcdhe
  serverEcdhePubkey := List.replicate 65 5

section Accepted

variable {chain : List UInt8}

theorem isMessage_chainCertificate (h : chain.length + 7 < 65536) :
    IsMessage (chainCertificate chain) := by
  have hbytes : messageLen (chainCertificate chain) =
      256 * ((chain.length + 7) / 256 % 256) + (chain.length + 7) % 256 := by
    simp [messageLen, chainCertificate, byteAt, be16]
  rw [IsMessage, hbytes, chainCertificate, List.length_append]
  simp only [List.length_cons, List.length_nil]
  omega

theorem isMessage_chainFlight (h : chain.length + 7 < 65536) :
    ∀ m ∈ chainFlight chain, IsMessage m := by
  simp only [chainFlight, List.forall_mem_cons]
  exact ⟨by decide, isMessage_chainCertificate h, by decide, by decide, List.forall_mem_nil _⟩

theorem transcriptAppend_eq (st : Flight) (data : List UInt8) :
    st.transcriptAppend data =
      { st with transcript := transcriptAfter st.transcript [data] } := by
  rw [← transcript_transcriptAppend, Flight.transcriptAppend]
  split <;> rfl

theorem handleMessage_chainCertificate (h : chain.length + 7 < 65536)
    (clientRandom behind : List UInt8)
    (st : Flight) :
    ∃ transcript, handleMessage pointPrimitives clientRandom (chainCertificate chain ++ behind) st =
      .ok { st with transcript := transcript, serverCert := some ⟨[0x61], [0x61], [3]⟩ } := by
  have hmsg := isMessage_chainCertificate h
  have hlen : messageLen (chainCertificate chain ++ behind) = chain.length + 7 := by
    have hsize : (chainCertificate chain).length = chain.length + 11 := by
      rw [chainCertificate, List.length_append, Nat.add_comm]
      rfl
    rw [hmsg.messageLen_append]
    rw [IsMessage, hsize] at hmsg
    omega
  have hcert : ∀ st : Flight, handleCertificate pointPrimitives
      ((chainCertificate chain ++ behind).drop 4) (chain.length + 7) st =
        .ok { st with serverCert := some ⟨[0x61], [0x61], [3]⟩ } := by
    intro st
    have hone : 65536 * (byteAt ((chainCertificate chain ++ behind).drop 4) 3).toNat +
        be16 ((chainCertificate chain ++ behind).drop 4) 4 = 1 := rfl
    rw [handleCertificate, if_neg (by omega)]
    simp only [hone]
    rw [if_neg (by omega)]
    rfl
  have htype : byteAt (chainCertificate chain ++ behind) 0 = tlsHandshakeCertificate := rfl
  simp only [handleMessage, hlen, htype]
  rw [if_neg (by decide), if_neg (by decide), if_pos trivial, hcert, transcriptAppend_eq]
  exact ⟨_, rfl⟩

theorem handleMessages_chainFlight (h : chain.length + 7 < 65536) (clientRandom behind : List UInt8)
    (st : Flight) :
    ∃ transcript, handleMessages pointPrimitives clientRandom
      (views ((chainFlight chain).flatten ++ behind) (chainFlight chain)) st =
        .ok (chainState transcript) := by
  have hviews : views ((chainFlight chain).flatten ++ behind) (chainFlight chain) =
      [ecdheHello ++
        (chainCertificate chain ++ (byteKeyExchange 0x61 ++ (serverHelloDone ++ behind))),
        chainCertificate chain ++ (byteKeyExchange 0x61 ++ (serverHelloDone ++ behind)),
        byteKeyExchange 0x61 ++ (serverHelloDone ++ behind), serverHelloDone ++ behind] := by
    simp only [chainFlight, List.flatten_cons, List.flatten_nil, List.append_assoc, views,
      List.drop_left, List.nil_append]
  have hhello : ∀ (behind : List UInt8) (st : Flight), ∃ transcript,
      handleMessage pointPrimitives clientRandom (ecdheHello ++ behind) st = .ok { st with
        transcript := transcript, serverRandom := List.replicate 32 9
        chosenCipherSuite := tlsCipherEcdhe, gotServerHello := true } := by
    intro behind st
    simp only [handleMessage, transcriptAppend_eq]
    exact ⟨_, rfl⟩
  have hske : ∀ (behind : List UInt8) (st : Flight),
      st.serverCert = some ⟨[0x61], [0x61], [3]⟩ → ∃ transcript,
      handleMessage pointPrimitives clientRandom (byteKeyExchange 0x61 ++ behind) st = .ok { st with
        transcript := transcript, serverEcdhePubkey := List.replicate 65 5
        gotServerKeyExchange := true } := by
    intro behind st hcert
    obtain ⟨random, transcript, cert, a, b, c, suite, key⟩ := st
    obtain rfl : cert = _ := hcert
    simp only [handleMessage, transcriptAppend_eq]
    exact ⟨_, rfl⟩
  have hend : ∀ (behind : List UInt8) (st : Flight), ∃ transcript,
      handleMessage pointPrimitives clientRandom (serverHelloDone ++ behind) st =
        .ok { st with transcript := transcript, gotServerHelloDone := true } := by
    intro behind st
    simp only [handleMessage, transcriptAppend_eq]
    exact ⟨_, rfl⟩
  obtain ⟨t₁, h₁⟩ := hhello (chainCertificate chain ++ (byteKeyExchange 0x61 ++ (serverHelloDone ++
    behind))) st
  obtain ⟨t₂, h₂⟩ := handleMessage_chainCertificate h clientRandom
    (byteKeyExchange 0x61 ++ (serverHelloDone ++ behind)) { st with
      transcript := t₁, serverRandom := List.replicate 32 9
      chosenCipherSuite := tlsCipherEcdhe, gotServerHello := true }
  obtain ⟨t₃, h₃⟩ := hske (serverHelloDone ++ behind) { st with
      transcript := t₂, serverRandom := List.replicate 32 9
      chosenCipherSuite := tlsCipherEcdhe, gotServerHello := true
      serverCert := some ⟨[0x61], [0x61], [3]⟩ } rfl
  obtain ⟨t₄, h₄⟩ := hend behind { st with
      transcript := t₃, serverRandom := List.replicate 32 9
      chosenCipherSuite := tlsCipherEcdhe, gotServerHello := true
      serverCert := some ⟨[0x61], [0x61], [3]⟩, serverEcdhePubkey := List.replicate 65 5
      gotServerKeyExchange := true }
  refine ⟨t₄, ?_⟩
  rw [hviews, handleMessages, List.foldlM_cons, h₁]
  change List.foldlM _ _ _ = _
  rw [List.foldlM_cons, h₂]
  change List.foldlM _ _ _ = _
  rw [List.foldlM_cons, h₃]
  change List.foldlM _ _ _ = _
  rw [List.foldlM_cons, h₄]
  rfl

/-- The server's flight in one record is accepted. -/
theorem chainFlight_accepted {hlen : (chainFlight chain).flatten.length ≤ tlsMaxRecordCiphertext}
    (hroom : (chainFlight chain).flatten.length ≤ flightSize) (h : chain.length + 7 < 65536) :
    ∃ transcript fb, flightLoop pointPrimitives hostInput.clientRandom []
        (holding [handshakeRecord (chainFlight chain).flatten hlen]) ⟨[], 0⟩ exampleFlight =
          (.ok (chainState transcript), [], holding [], fb) := by
  have hbuf : (FlightBuf.append ⟨[], 0⟩ (chainFlight chain).flatten).buf =
      (chainFlight chain).flatten ++ [] := by
    rw [FlightBuf.append, List.take_nil, List.nil_append, List.drop_nil]
  obtain ⟨transcript, hrun⟩ := handleMessages_chainFlight h hostInput.clientRandom [] exampleFlight
  rw [← hbuf] at hrun
  refine ⟨transcript, (FlightBuf.append ⟨[], 0⟩ (chainFlight chain).flatten).shift
    (chainFlight chain).flatten.length, ?_⟩
  have hstart : ¬ exampleFlight.gotServerHelloDone = true := start_not_done _
  rw [flightLoop_holding hstart hroom rfl (isMessage_chainFlight h) hrun, flightLoop_done rfl]

theorem handshakeBytes_chainFlight {payload : List UInt8}
    {hlen : payload.length ≤ tlsMaxRecordCiphertext} :
    handshakeBytes ([handshakeRecord payload hlen].map fun r => (r.contentType, r.fragment)) =
      payload ++ [] := rfl

end Accepted

theorem finishedTranscript_complete_short :
    ∃ st, finishedTranscript st pointBody = clientHello hostInput.clientRandom hostInput.hostname ++
      (chainFlight []).flatten ++ handshakeMessage tlsHandshakeClientKeyExchange pointBody := by
  have hmsgs := @isMessage_chainFlight [] (by decide)
  have hsize : (chainFlight []).flatten.length ≤ flightSize := by decide
  obtain ⟨transcript, fb, hflight⟩ := @chainFlight_accepted [] (by decide) hsize (by decide)
  exact ⟨_, (finishedTranscript_complete_iff hflight
    (received_holding (List.forall_mem_singleton.mpr hsize)) handshakeBytes_chainFlight hmsgs
    incomplete_nil).mpr (by decide)⟩

/-- A server with a chain of 8 KB is accepted, and its Certificate is not in the transcript. -/
theorem long_chain_left_out :
    ¬ ∀ (prims : Primitives) (inp : ConnectInput) (polls polls' : List Poll) (tls tls' : TlsConn)
      (buf : List UInt8) (fb : FlightBuf) (st : Flight) (records : List (UInt8 × List UInt8))
      (msgs : List (List UInt8)) (rest : List UInt8) (cert : X509Cert)
      (preMaster ckeBody : List UInt8), flightLoop prims inp.clientRandom polls tls ⟨buf, 0⟩
        (Flight.start (clientHello inp.clientRandom inp.hostname)) = (.ok st, polls', tls', fb) →
      Received polls tls records polls' tls' → handshakeBytes records = msgs.flatten ++ rest →
      (∀ m ∈ msgs, IsMessage m) → Incomplete rest → checkFlight inp.hostname st = .ok cert →
      keyExchange prims inp cert st = .ok (preMaster, ckeBody) →
      finishedTranscript st ckeBody = clientHello inp.clientRandom inp.hostname ++ msgs.flatten ++
        handshakeMessage tlsHandshakeClientKeyExchange ckeBody := by
  intro h
  let chain : List UInt8 := List.replicate 8192 0
  have hchain : chain.length = 8192 := List.length_replicate
  have hflat : (chainFlight chain).flatten.length = 8326 := by
    rw [chainFlight]
    simp only [List.flatten_cons, List.flatten_nil, List.length_append, chainCertificate, hchain]
    rfl
  have hsize : (chainFlight chain).flatten.length ≤ flightSize := by
    rw [hflat]
    decide
  have hmsgs := @isMessage_chainFlight chain (by rw [hchain]; decide)
  have hrecord : (chainFlight chain).flatten.length ≤ tlsMaxRecordCiphertext := by
    rw [hflat]
    decide
  obtain ⟨transcript, fb, hflight⟩ :=
    @chainFlight_accepted chain hrecord hsize (by rw [hchain]; decide)
  have hreceived := @received_holding [handshakeRecord (chainFlight chain).flatten hrecord]
    (List.forall_mem_singleton.mpr hsize)
  have hall :=
    h pointPrimitives hostInput [] [] _ _ [] fb (chainState transcript) _ (chainFlight chain)
    [] ⟨[0x61], [0x61], [3]⟩ (List.replicate 32 2) pointBody hflight hreceived
    handshakeBytes_chainFlight hmsgs incomplete_nil rfl rfl
  have hle : (finishedTranscript (chainState transcript) pointBody).length ≤ transcriptSize := by
    rw [finishedTranscript_eq hflight hreceived handshakeBytes_chainFlight hmsgs incomplete_nil]
    exact length_transcriptAfter_le (Nat.zero_le _)
  rw [hall, List.length_append, List.length_append, hflat] at hle
  exact absurd hle (by decide)

end Runs

end AuroraOS.Tls
