import AuroraOS.Tls.Handshake

/-!
# What the server's signature covers

The server's messages are handled in whatever order they come. The signature of a ServerKeyExchange
is verified when the message is handled, with the certificate and the random value received so far;
a later Certificate or ServerHello replaces them, and the hostname check and the key derivation use
what came last.

## Main definitions

- `handleMessages` — a sequence of messages, one after the other
- `Authenticated` — the key was signed by the certificate that is checked, over the random value
  that is used
- `SignedInEffect` — nothing was replaced after the last ServerKeyExchange

## Main results

- `authenticated_iff`, `flightLoop_authenticated_iff`
-/

namespace AuroraOS.Tls

open AuroraOS.Net AuroraOS.Crypto

variable (prims : Primitives) (clientRandom : List UInt8)

/-- The handling of messages one after the other; each is the memory from its first byte on. -/
def handleMessages (msgs : List (List UInt8)) (st : Flight) : Except String Flight :=
  msgs.foldlM (fun st msg => handleMessage prims clientRandom msg st) st

section Contents

variable (msg : List UInt8)

def IsServerKeyExchange : Prop := byteAt msg 0 = tlsHandshakeServerKeyExchange

instance : Decidable (IsServerKeyExchange msg) :=
  inferInstanceAs (Decidable (byteAt msg 0 = tlsHandshakeServerKeyExchange))

/-- The message is a ServerHelloDone. -/
def IsServerHelloDone : Prop := byteAt msg 0 = tlsHandshakeServerHelloDone

instance : Decidable (IsServerHelloDone msg) :=
  inferInstanceAs (Decidable (byteAt msg 0 = tlsHandshakeServerHelloDone))

/-- The random value of a ServerHello. -/
def helloRandom : List UInt8 := ((msg.drop 4).drop 2).take 32

/-- The certificate of a Certificate message. -/
def messageCert : Option X509Cert :=
  prims.x509ParseCertificate ((msg.drop 4).drop 6)
    (65536 * (byteAt (msg.drop 4) 3).toNat + be16 (msg.drop 4) 4)

/-- The public key of a ServerKeyExchange. -/
def ecdheKey : List UInt8 := ((msg.drop 4).drop 4).take 65

/-- Its signature. -/
def ecdheSignature : List UInt8 := ((msg.drop 4).drop 73).take (be16 (msg.drop 4) 71)

end Contents

/-- The random value after some messages. -/
def lastRandom (msgs : List (List UInt8)) : List UInt8 :=
  msgs.foldl (fun random msg =>
    if byteAt msg 0 = tlsHandshakeServerHello then helloRandom msg else random)
      (List.replicate 32 0)

/-- The certificate after some messages. -/
def lastCert (msgs : List (List UInt8)) : Option X509Cert :=
  msgs.foldl (fun cert msg =>
    if byteAt msg 0 = tlsHandshakeCertificate then messageCert prims msg else cert) none

/-- The key for the shared secret comes from a ServerKeyExchange whose signature was verified with
    the key of the certificate `cert` and over the random value of the flight. -/
def Authenticated (hello : List UInt8) (msgs : List (List UInt8)) (st : Flight) (cert : X509Cert) :
    Prop :=
  ∃ before ske after st' signer, msgs = before ++ ske :: after ∧
    IsServerKeyExchange ske ∧ (∀ msg ∈ after, ¬ IsServerKeyExchange msg) ∧
    st.serverEcdhePubkey = ecdheKey ske ∧
    handleMessages prims clientRandom before (Flight.start hello) = .ok st' ∧
    st'.serverCert = some signer ∧ signer.modulus = cert.modulus ∧ signer.exponent = cert.exponent ∧
    st'.serverRandom = st.serverRandom ∧
    prims.rsaVerifyPkcs1Sha256 cert.modulus cert.exponent (ecdheSignature ske)
      (sha256 (signedContent clientRandom st.serverRandom (ske.drop 4))) = true

/-- The public key of a certificate. -/
def X509Cert.publicKey (cert : X509Cert) : List UInt8 × List UInt8 := (cert.modulus, cert.exponent)

/-- The last Certificate before the last ServerKeyExchange has the key of the last one of all, and
    the last ServerHello before it the random value of the last one of all. -/
def SignedInEffect (msgs : List (List UInt8)) : Prop :=
  ∃ before ske after, msgs = before ++ ske :: after ∧
    IsServerKeyExchange ske ∧ (∀ msg ∈ after, ¬ IsServerKeyExchange msg) ∧
    (lastCert prims before).map X509Cert.publicKey = (lastCert prims msgs).map X509Cert.publicKey ∧
    lastRandom before = lastRandom msgs

variable {prims clientRandom} {msg : List UInt8} {msgs : List (List UInt8)} {st st' : Flight}

section Steps

variable {body : List UInt8} {msgLen : ℕ}

theorem handleServerHello_ok (h : handleServerHello body msgLen st = .ok st') :
    st'.serverRandom = (body.drop 2).take 32 ∧ st'.serverCert = st.serverCert ∧
      st'.serverEcdhePubkey = st.serverEcdhePubkey ∧ st'.transcript = st.transcript ∧
      st'.gotServerHelloDone = st.gotServerHelloDone := by
  rw [handleServerHello] at h
  split at h
  · cases h
  simp only at h
  split at h
  · cases h
  split at h
  · cases h
  cases h
  exact ⟨rfl, rfl, rfl, rfl, rfl⟩

theorem handleCertificate_ok (h : handleCertificate prims body msgLen st = .ok st') :
    st'.serverCert = prims.x509ParseCertificate (body.drop 6)
        (65536 * (byteAt body 3).toNat + be16 body 4) ∧
      st'.serverRandom = st.serverRandom ∧ st'.serverEcdhePubkey = st.serverEcdhePubkey ∧
      st'.transcript = st.transcript ∧ st'.gotServerHelloDone = st.gotServerHelloDone := by
  rw [handleCertificate] at h
  split at h
  · cases h
  simp only at h
  split at h
  · cases h
  split at h
  · cases h
  · next hparse =>
    cases h
    exact ⟨hparse.symm, rfl, rfl, rfl, rfl⟩

/-- A ServerKeyExchange is accepted if its signature is verified with the certificate and the random
    value received so far. -/
theorem handleServerKeyExchange_ok
    (h : handleServerKeyExchange prims clientRandom body msgLen st = .ok st') :
    st'.serverEcdhePubkey = (body.drop 4).take 65 ∧ st'.serverRandom = st.serverRandom ∧
      st'.serverCert = st.serverCert ∧ st'.transcript = st.transcript ∧
      st'.gotServerHelloDone = st.gotServerHelloDone ∧
      ∃ cert, st.serverCert = some cert ∧ prims.rsaVerifyPkcs1Sha256 cert.modulus cert.exponent
        ((body.drop 73).take (be16 body 71))
        (sha256 (signedContent clientRandom st.serverRandom body)) = true := by
  rw [handleServerKeyExchange] at h
  split at h
  · cases h
  split at h
  · cases h
  split at h
  · cases h
  simp only at h
  split at h
  · cases h
  split at h
  · cases h
  split at h
  · cases h
  split at h
  · cases h
  · next cert hcert =>
    split at h
    · next hverify =>
      cases h
      exact ⟨rfl, rfl, rfl, rfl, rfl, cert, hcert, hverify⟩
    · cases h

theorem transcriptAppend_keeps (st : Flight) (data : List UInt8) :
    (st.transcriptAppend data).serverRandom = st.serverRandom ∧
      (st.transcriptAppend data).serverCert = st.serverCert ∧
      (st.transcriptAppend data).serverEcdhePubkey = st.serverEcdhePubkey ∧
      (st.transcriptAppend data).gotServerHelloDone = st.gotServerHelloDone := by
  rw [Flight.transcriptAppend]
  split <;> exact ⟨rfl, rfl, rfl, rfl⟩

/-- What one message changes. -/
structure Learns (prims : Primitives) (msg : List UInt8) (st st' : Flight) : Prop where
  random : st'.serverRandom =
    if byteAt msg 0 = tlsHandshakeServerHello then helloRandom msg else st.serverRandom
  cert : st'.serverCert =
    if byteAt msg 0 = tlsHandshakeCertificate then messageCert prims msg else st.serverCert
  key : st'.serverEcdhePubkey =
    if byteAt msg 0 = tlsHandshakeServerKeyExchange then ecdheKey msg else st.serverEcdhePubkey
  transcript : st'.transcript = (st.transcriptAppend (msg.take (4 + messageLen msg))).transcript
  done : st'.gotServerHelloDone = (st.gotServerHelloDone || decide (IsServerHelloDone msg))

theorem handleMessage_learns (h : handleMessage prims clientRandom msg st = .ok st') :
    Learns prims msg st st' := by
  obtain ⟨hrandom, hcert, hkey, hdone⟩ := transcriptAppend_keeps st (msg.take (4 + messageLen msg))
  generalize hst : st.transcriptAppend (msg.take (4 + messageLen msg)) = appended
    at h hrandom hcert hkey hdone
  have hne : tlsHandshakeServerHello ≠ tlsHandshakeCertificate ∧
      tlsHandshakeServerHello ≠ tlsHandshakeServerKeyExchange ∧
      tlsHandshakeServerKeyExchange ≠ tlsHandshakeCertificate ∧
      tlsHandshakeServerHello ≠ tlsHandshakeServerHelloDone ∧
      tlsHandshakeServerKeyExchange ≠ tlsHandshakeServerHelloDone ∧
      tlsHandshakeCertificate ≠ tlsHandshakeServerHelloDone := by decide
  have hnot : ∀ {msgType : UInt8}, byteAt msg 0 = msgType → msgType ≠ tlsHandshakeServerHelloDone →
      appended.gotServerHelloDone = (st.gotServerHelloDone || decide (IsServerHelloDone msg)) := by
    intro msgType htype hother
    have hmsg : ¬ IsServerHelloDone msg := by
      rw [IsServerHelloDone, htype]
      exact hother
    rw [hdone, decide_eq_false hmsg, Bool.or_false]
  simp only [handleMessage, hst] at h
  split at h
  · next htype =>
    obtain ⟨hr, hc, hk, ht, hd⟩ := handleServerHello_ok h
    refine ⟨?_, ?_, ?_, by rw [ht, hst], by rw [hd]; exact hnot htype hne.2.2.2.1⟩ <;> rw [htype]
    · rw [if_pos rfl, hr, helloRandom]
    · rw [if_neg hne.1, hc, hcert]
    · rw [if_neg hne.2.1, hk, hkey]
  split at h
  · next htype =>
    obtain ⟨hk, hr, hc, ht, hd, -⟩ := handleServerKeyExchange_ok h
    refine ⟨?_, ?_, ?_, by rw [ht, hst], by rw [hd]; exact hnot htype hne.2.2.2.2.1⟩ <;> rw [htype]
    · rw [if_neg hne.2.1.symm, hr, hrandom]
    · rw [if_neg hne.2.2.1, hc, hcert]
    · rw [if_pos rfl, hk, ecdheKey]
  split at h
  · next htype =>
    obtain ⟨hc, hr, hk, ht, hd⟩ := handleCertificate_ok h
    refine ⟨?_, ?_, ?_, by rw [ht, hst], by rw [hd]; exact hnot htype hne.2.2.2.2.2⟩ <;> rw [htype]
    · rw [if_neg hne.1.symm, hr, hrandom]
    · rw [if_pos rfl, hc, messageCert]
    · rw [if_neg hne.2.2.1.symm, hk, hkey]
  next hhello hske hcertificate =>
  have hkeeps : ∀ {st' : Flight}, st'.serverRandom = appended.serverRandom →
      st'.serverCert = appended.serverCert → st'.serverEcdhePubkey = appended.serverEcdhePubkey →
      st'.transcript = appended.transcript →
      st'.gotServerHelloDone = (st.gotServerHelloDone || decide (IsServerHelloDone msg)) →
      Learns prims msg st st' := by
    intro st' hr hc hk ht hd
    exact ⟨by rw [if_neg hhello, hr, hrandom], by rw [if_neg hcertificate, hc, hcert],
      by rw [if_neg hske, hk, hkey], by rw [ht, hst], hd⟩
  split at h
  · next htype =>
    cases h
    exact hkeeps rfl rfl rfl rfl
      (by rw [decide_eq_true (show IsServerHelloDone msg from htype), Bool.or_true])
  · next htype =>
    cases h
    exact hkeeps rfl rfl rfl rfl
      (by rw [hdone, decide_eq_false (show ¬ IsServerHelloDone msg from htype), Bool.or_false])

/-- A ServerKeyExchange that is accepted was signed with the certificate received so far. -/
theorem handleMessage_verified (h : handleMessage prims clientRandom msg st = .ok st')
    (hske : IsServerKeyExchange msg) :
    ∃ cert, st.serverCert = some cert ∧
      prims.rsaVerifyPkcs1Sha256 cert.modulus cert.exponent (ecdheSignature msg)
        (sha256 (signedContent clientRandom st.serverRandom (msg.drop 4))) = true := by
  have htype : byteAt msg 0 = tlsHandshakeServerKeyExchange := hske
  have hhello : ¬ byteAt msg 0 = tlsHandshakeServerHello := by
    rw [htype]
    decide
  simp only [handleMessage] at h
  rw [if_neg hhello, if_pos htype] at h
  obtain ⟨-, -, -, -, -, cert, hcert, hverify⟩ := handleServerKeyExchange_ok h
  obtain ⟨hrandom, hkept, -, -⟩ := transcriptAppend_keeps st (msg.take (4 + messageLen msg))
  rw [hkept] at hcert
  rw [hrandom] at hverify
  exact ⟨cert, hcert, hverify⟩

end Steps

section Runs

theorem handleMessages_cons {msg : List UInt8}
    (h : handleMessages prims clientRandom (msg :: msgs) st = .ok st') :
    ∃ mid, handleMessage prims clientRandom msg st = .ok mid ∧
      handleMessages prims clientRandom msgs mid = .ok st' := by
  rw [handleMessages, List.foldlM_cons] at h
  cases hmsg : handleMessage prims clientRandom msg st with
  | error e =>
    rw [hmsg] at h
    cases h
  | ok mid =>
    rw [hmsg] at h
    exact ⟨mid, rfl, h⟩

theorem handleMessages_append {before after : List (List UInt8)}
    (h : handleMessages prims clientRandom (before ++ after) st = .ok st') :
    ∃ mid, handleMessages prims clientRandom before st = .ok mid ∧
      handleMessages prims clientRandom after mid = .ok st' := by
  induction before generalizing st with
  | nil => exact ⟨st, rfl, h⟩
  | cons msg before ih =>
    obtain ⟨first, hfirst, hrest⟩ := handleMessages_cons h
    obtain ⟨mid, hmid, hafter⟩ := ih hrest
    refine ⟨mid, ?_, hafter⟩
    rw [handleMessages, List.foldlM_cons, hfirst]
    exact hmid

theorem handleMessages_random (h : handleMessages prims clientRandom msgs st = .ok st') :
    st'.serverRandom = msgs.foldl (fun random msg =>
      if byteAt msg 0 = tlsHandshakeServerHello then helloRandom msg else random)
        st.serverRandom := by
  induction msgs generalizing st with
  | nil =>
    cases h
    rfl
  | cons msg msgs ih =>
    obtain ⟨mid, hmid, hrest⟩ := handleMessages_cons h
    rw [ih hrest, (handleMessage_learns hmid).random, List.foldl_cons]

theorem handleMessages_cert (h : handleMessages prims clientRandom msgs st = .ok st') :
    st'.serverCert = msgs.foldl (fun cert msg =>
      if byteAt msg 0 = tlsHandshakeCertificate then messageCert prims msg else cert)
        st.serverCert := by
  induction msgs generalizing st with
  | nil =>
    cases h
    rfl
  | cons msg msgs ih =>
    obtain ⟨mid, hmid, hrest⟩ := handleMessages_cons h
    rw [ih hrest, (handleMessage_learns hmid).cert, List.foldl_cons]

theorem handleMessages_key (h : handleMessages prims clientRandom msgs st = .ok st')
    (hnone : ∀ msg ∈ msgs, ¬ IsServerKeyExchange msg) :
    st'.serverEcdhePubkey = st.serverEcdhePubkey := by
  induction msgs generalizing st with
  | nil =>
    cases h
    rfl
  | cons msg msgs ih =>
    obtain ⟨mid, hmid, hrest⟩ := handleMessages_cons h
    obtain ⟨hmsg, hmsgs⟩ := List.forall_mem_cons.mp hnone
    rw [ih hrest hmsgs, (handleMessage_learns hmid).key, if_neg (show ¬ byteAt msg 0 = _ from hmsg)]

theorem start_eq (hello : List UInt8) : (Flight.start hello).serverRandom = List.replicate 32 0 ∧
    (Flight.start hello).serverCert = none := by
  obtain ⟨hrandom, hcert, -⟩ := transcriptAppend_keeps
    ⟨List.replicate 32 0, [], none, false, false, false, 0, []⟩ hello
  exact ⟨hrandom, hcert⟩

variable {hello : List UInt8}

/-- What is known after a sequence of messages from the server. -/
theorem handleMessages_start
    (h : handleMessages prims clientRandom msgs (Flight.start hello) = .ok st) :
    st.serverRandom = lastRandom msgs ∧ st.serverCert = lastCert prims msgs := by
  obtain ⟨hrandom, hcert⟩ := start_eq hello
  rw [handleMessages_random h, handleMessages_cert h, hrandom, hcert]
  exact ⟨rfl, rfl⟩

end Runs

section Records

variable {buf : List UInt8} {len fp fp' : ℕ}

theorem walkFlight_messages (h : walkFlight prims clientRandom buf len fp st = .ok (fp', st')) :
    ∃ msgs, handleMessages prims clientRandom msgs st = .ok st' := by
  fun_induction walkFlight prims clientRandom buf len fp st with
  | case1 fp st _ msg _ =>
    cases h
    exact ⟨[], rfl⟩
  | case2 => cases h
  | case3 fp st _ msg _ mid hmid ih =>
    obtain ⟨msgs, hmsgs⟩ := ih h
    refine ⟨msg :: msgs, ?_⟩
    rw [handleMessages, List.foldlM_cons, hmid]
    exact hmsgs
  | case4 =>
    cases h
    exact ⟨[], rfl⟩

theorem handleMessages_trans {msgs' : List (List UInt8)} {mid : Flight}
    (h : handleMessages prims clientRandom msgs st = .ok mid)
    (h' : handleMessages prims clientRandom msgs' mid = .ok st') :
    handleMessages prims clientRandom (msgs ++ msgs') st = .ok st' := by
  rw [handleMessages, List.foldlM_append]
  rw [handleMessages] at h
  rw [h]
  exact h'

theorem onRecord_messages {contentType : UInt8} {payload : List UInt8} {fb fb' : FlightBuf}
    (h : onRecord prims clientRandom contentType payload fb st = (.ok st', fb')) :
    ∃ msgs, handleMessages prims clientRandom msgs st = .ok st' := by
  rw [onRecord] at h
  split at h
  · simp at h
  split at h
  · cases h
    exact ⟨[], rfl⟩
  split at h
  · simp at h
  simp only at h
  split at h
  · simp at h
  · next hwalk =>
    cases h
    exact walkFlight_messages hwalk

/-- What the loop over the records learns, it learns from messages that are handled one after the
    other, however they are cut into records. -/
theorem flightLoop_messages {polls : List Poll} {tls : TlsConn} {fb : FlightBuf}
    (h : (flightLoop prims clientRandom polls tls fb st).1 = .ok st') :
    ∃ msgs, handleMessages prims clientRandom msgs st = .ok st' := by
  fun_induction flightLoop prims clientRandom polls tls fb st with
  | case1 =>
    cases h
    exact ⟨[], rfl⟩
  | case2 => cases h
  | case3 => cases h
  | case4 => cases h
  | case5 polls tls fb st _ contentType payload polls' tls' _ mid fb' hrecord ih =>
    obtain ⟨first, hfirst⟩ := onRecord_messages hrecord
    obtain ⟨later, hlater⟩ := ih h
    exact ⟨first ++ later, handleMessages_trans hfirst hlater⟩

end Records

theorem checkFlight_cert {hostname : List UInt8} {cert : X509Cert}
    (h : checkFlight hostname st = .ok cert) : st.serverCert = some cert := by
  rw [checkFlight] at h
  split at h
  · next hcert =>
    split at h
    · cases h
    split at h
    · cases h
    · cases h
      exact hcert
  · cases h

/-- What is known at the last ServerKeyExchange. -/
theorem handleMessages_verified {hello : List UInt8} {before after : List (List UInt8)}
    {ske : List UInt8} (hske : IsServerKeyExchange ske)
    (hafter : ∀ msg ∈ after, ¬ IsServerKeyExchange msg)
    (h : handleMessages prims clientRandom (before ++ ske :: after) (Flight.start hello) = .ok st) :
    ∃ st' signer, handleMessages prims clientRandom before (Flight.start hello) = .ok st' ∧
      st'.serverCert = some signer ∧ st.serverEcdhePubkey = ecdheKey ske ∧
      prims.rsaVerifyPkcs1Sha256 signer.modulus signer.exponent (ecdheSignature ske)
        (sha256 (signedContent clientRandom st'.serverRandom (ske.drop 4))) = true := by
  obtain ⟨st', hbefore, hrest⟩ := handleMessages_append h
  obtain ⟨mid, hmsg, hlater⟩ := handleMessages_cons hrest
  obtain ⟨signer, hsigner, hverify⟩ := handleMessage_verified hmsg hske
  have hkey := handleMessages_key hlater hafter
  rw [(handleMessage_learns hmsg).key, if_pos (show byteAt ske 0 = _ from hske)] at hkey
  exact ⟨st', signer, hbefore, hsigner, hkey, hverify⟩

section Authenticated

variable {hello hostname : List UInt8} {cert : X509Cert}

theorem Authenticated.signedInEffect
    (hflight : handleMessages prims clientRandom msgs (Flight.start hello) = .ok st)
    (hcheck : checkFlight hostname st = .ok cert)
    (h : Authenticated prims clientRandom hello msgs st cert) : SignedInEffect prims msgs := by
  obtain ⟨hrandom, hcert⟩ := handleMessages_start hflight
  rw [checkFlight_cert hcheck] at hcert
  obtain ⟨before, ske, after, st', signer, hmsgs, hske, hafter, -, hbefore, hsigner, hmod,
    hexp, hsame, -⟩ := h
  obtain ⟨hrandom', hcert'⟩ := handleMessages_start hbefore
  refine ⟨before, ske, after, hmsgs, hske, hafter, ?_, ?_⟩
  · rw [← hcert', ← hcert, hsigner, Option.map_some, Option.map_some,
      X509Cert.publicKey, hmod, hexp, X509Cert.publicKey]
  · rw [← hrandom', hsame, hrandom]

theorem SignedInEffect.authenticated
    (hflight : handleMessages prims clientRandom msgs (Flight.start hello) = .ok st)
    (hcheck : checkFlight hostname st = .ok cert) (h : SignedInEffect prims msgs) :
    Authenticated prims clientRandom hello msgs st cert := by
  obtain ⟨hrandom, hcert⟩ := handleMessages_start hflight
  rw [checkFlight_cert hcheck] at hcert
  obtain ⟨before, ske, after, hmsgs, hske, hafter, hkey, hsame⟩ := h
  rw [hmsgs] at hflight
  obtain ⟨st', signer, hbefore, hsigner, hpub, hverify⟩ :=
    handleMessages_verified hske hafter hflight
  obtain ⟨hrandom', hcert'⟩ := handleMessages_start hbefore
  have hrandoms : st'.serverRandom = st.serverRandom := by rw [hrandom', hsame, hrandom]
  have hkeys : signer.publicKey = cert.publicKey := by
    rw [← hcert', hsigner, ← hcert] at hkey
    exact Option.some.inj hkey
  obtain ⟨hmod, hexp⟩ := Prod.mk.inj hkeys
  rw [hrandoms, hmod, hexp] at hverify
  exact ⟨before, ske, after, st', signer, hmsgs, hske, hafter, hpub, hbefore, hsigner, hmod, hexp,
    hrandoms, hverify⟩

end Authenticated

/-- A server that gets past the hostname check is authenticated if and only if neither the key of
    the certificate nor the random value was replaced after the last ServerKeyExchange. -/
theorem authenticated_iff {hello hostname : List UInt8} {cert : X509Cert}
    (hflight : handleMessages prims clientRandom msgs (Flight.start hello) = .ok st)
    (hcheck : checkFlight hostname st = .ok cert) :
    Authenticated prims clientRandom hello msgs st cert ↔ SignedInEffect prims msgs :=
  ⟨Authenticated.signedInEffect hflight hcheck, SignedInEffect.authenticated hflight hcheck⟩

/-- The same for what the loop over the records hands to the hostname check: the messages are those
    that it found in the stream. -/
theorem flightLoop_authenticated_iff {hello hostname : List UInt8} {cert : X509Cert}
    {polls : List Poll} {tls : TlsConn} {fb : FlightBuf}
    (hflight : (flightLoop prims clientRandom polls tls fb (Flight.start hello)).1 = .ok st)
    (hcheck : checkFlight hostname st = .ok cert) :
    ∃ msgs, handleMessages prims clientRandom msgs (Flight.start hello) = .ok st ∧
      (Authenticated prims clientRandom hello msgs st cert ↔ SignedInEffect prims msgs) := by
  obtain ⟨msgs, hmsgs⟩ := flightLoop_messages hflight
  exact ⟨msgs, hmsgs, Authenticated.signedInEffect hmsgs hcheck,
    SignedInEffect.authenticated hmsgs hcheck⟩

/-- Certificates of one byte, which is the name and the modulus; the owner signs with that byte. -/
def bytePrimitives : Primitives where
  x509ParseCertificate := fun der _ => some ⟨der.take 1, der.take 1, [3]⟩
  rsaVerifyPkcs1Sha256 := fun modulus _ signature _ => signature == modulus
  rsaEncryptPkcs1 := fun _ _ _ _ => none
  eccGenerateKeypair := fun _ => none
  eccComputeSharedSecret := fun _ _ => none

/-- A ServerHello that chooses the ECDHE suite. -/
def ecdheHello : List UInt8 :=
  handshakeMessage tlsHandshakeServerHello ([3, 3] ++ List.replicate 32 9 ++ [0, 0xC0, 0x27])

/-- The Certificate of the server with this name. -/
def byteCertificate (name : UInt8) : List UInt8 :=
  handshakeMessage tlsHandshakeCertificate [0, 0, 4, 0, 0, 1, name]

/-- A ServerKeyExchange that it signs. -/
def byteKeyExchange (name : UInt8) : List UInt8 :=
  handshakeMessage tlsHandshakeServerKeyExchange
    ([3, 0, 23, 65] ++ List.replicate 65 5 ++ [4, 1, 0, 1, name])

/-- The flight of the server `a`. -/
def honestFlight : List (List UInt8) := [ecdheHello, byteCertificate 0x61, byteKeyExchange 0x61]

/-- The server `b` signs, and then sends the certificate of `a`. -/
def swappedFlight : List (List UInt8) :=
  [ecdheHello, byteCertificate 0x62, byteKeyExchange 0x62, byteCertificate 0x61]

/-- A run that is evaluated. -/
theorem exists_of_toOption {ε α β : Type} {r : Except ε α} {f : α → β} {b : β}
    (h : r.toOption.map f = some b) : ∃ a, r = .ok a ∧ f a = b := by
  cases r with
  | error e => cases h
  | ok a => exact ⟨a, rfl, Option.some.inj h⟩

/-- A flight that gets past the check for the host `a`. -/
theorem exists_of_check {msgs : List (List UInt8)}
    (h : ((handleMessages bytePrimitives [] msgs (Flight.start [])).toOption.map fun st =>
      ((checkFlight [0x61] st).toOption, st.chosenCipherSuite)) =
        some (some ⟨[0x61], [0x61], [3]⟩, tlsCipherEcdhe)) :
    ∃ st, handleMessages bytePrimitives [] msgs (Flight.start []) = .ok st ∧
      checkFlight [0x61] st = .ok ⟨[0x61], [0x61], [3]⟩ ∧ st.chosenCipherSuite =
        tlsCipherEcdhe := by
  obtain ⟨st, hrun, hst⟩ := exists_of_toOption h
  obtain ⟨hcheck, hsuite⟩ := Prod.mk.inj hst
  cases hend : checkFlight [0x61] st with
  | error e =>
    rw [hend] at hcheck
    cases hcheck
  | ok cert =>
    rw [hend] at hcheck
    cases hcheck
    exact ⟨st, hrun, hend, hsuite⟩

theorem honestFlight_signed : SignedInEffect bytePrimitives honestFlight :=
  ⟨[ecdheHello, byteCertificate 0x61], byteKeyExchange 0x61, [], rfl, by decide,
    List.forall_mem_nil _, by decide, by decide⟩

/-- The last ServerKeyExchange of the other flight comes before its last Certificate. -/
theorem swappedFlight_not_signed : ¬ SignedInEffect bytePrimitives swappedFlight := by
  rintro ⟨before, ske, after, hmsgs, hske, hafter, hkey, -⟩
  have hmsg : ∀ i : ℕ, swappedFlight[i]? = some ske → i = 2 := by
    intro i hi
    match i with
    | 0 => cases hi; exact absurd hske (by decide)
    | 1 => cases hi; exact absurd hske (by decide)
    | 2 => rfl
    | 3 => cases hi; exact absurd hske (by decide)
    | _ + 4 => cases hi
  have hlen : before.length = 2 := hmsg before.length (by
    rw [hmsgs, List.getElem?_append_right (Nat.le_refl _), Nat.sub_self]
    rfl)
  have hbefore : before = swappedFlight.take 2 := by
    rw [hmsgs, ← hlen, List.take_left]
  rw [hbefore] at hkey
  exact absurd hkey (by decide)

theorem authenticated_honest :
    ∃ st, handleMessages bytePrimitives [] honestFlight (Flight.start []) = .ok st ∧
      Authenticated bytePrimitives [] [] honestFlight st ⟨[0x61], [0x61], [3]⟩ := by
  obtain ⟨st, hrun, hcheck, -⟩ := @exists_of_check honestFlight (by decide)
  exact ⟨st, hrun, (authenticated_iff hrun hcheck).mpr honestFlight_signed⟩

/-- The server `b` passes for `a`. -/
theorem swapped_certificate_accepted :
    ¬ ∀ (prims : Primitives) (clientRandom hello hostname : List UInt8)
      (msgs : List (List UInt8)) (st : Flight) (cert : X509Cert),
      handleMessages prims clientRandom msgs (Flight.start hello) = .ok st →
      checkFlight hostname st = .ok cert → st.chosenCipherSuite = tlsCipherEcdhe →
      Authenticated prims clientRandom hello msgs st cert := by
  intro h
  obtain ⟨st, hrun, hcheck, hsuite⟩ := @exists_of_check swappedFlight (by decide)
  exact swappedFlight_not_signed
    ((h bytePrimitives [] [] [0x61] swappedFlight st _ hrun hcheck hsuite).signedInEffect
      hrun hcheck)

end AuroraOS.Tls
