import AuroraOS.Tls.Record

/-!
# The TLS handshake

`tls_connect`, `tls_recv` and `tls_close` of `kernel/tls.c`, with the static variables that survive
a connection. The certificate parser, RSA and the curve are parameters; of the sending side only
whether a record could be sent and what enters the transcript is kept.

## Main definitions

- `Primitives`, `ConnectInput`, `TlsStatics`
- `handleMessage`, `walkFlight`, `onRecord`, `flightLoop` — the server's flight
- `tlsConnect`, `tlsRecv`, `tlsClose`
-/

namespace AuroraOS.Tls

open AuroraOS.Net AuroraOS.Crypto

/-- `TLS_CONTENT_CHANGE_CIPHER_SPEC`. -/
def tlsContentChangeCipherSpec : UInt8 := 20

/-- `TLS_CONTENT_ALERT`. -/
def tlsContentAlert : UInt8 := 21

/-- `TLS_CONTENT_HANDSHAKE`. -/
def tlsContentHandshake : UInt8 := 22

/-- `TLS_CONTENT_APPLICATION_DATA`. -/
def tlsContentApplicationData : UInt8 := 23

/-- `TLS_HANDSHAKE_CLIENT_HELLO`. -/
def tlsHandshakeClientHello : UInt8 := 1

/-- `TLS_HANDSHAKE_SERVER_HELLO`. -/
def tlsHandshakeServerHello : UInt8 := 2

/-- `TLS_HANDSHAKE_CERTIFICATE`. -/
def tlsHandshakeCertificate : UInt8 := 11

/-- `TLS_HANDSHAKE_SERVER_KEY_EXCHANGE`. -/
def tlsHandshakeServerKeyExchange : UInt8 := 12

/-- `TLS_HANDSHAKE_SERVER_HELLO_DONE`. -/
def tlsHandshakeServerHelloDone : UInt8 := 14

/-- `TLS_HANDSHAKE_CLIENT_KEY_EXCHANGE`. -/
def tlsHandshakeClientKeyExchange : UInt8 := 16

/-- `TLS_HANDSHAKE_FINISHED`. -/
def tlsHandshakeFinished : UInt8 := 20

/-- `TLS_CIPHER_ECDHE_RSA_AES128_CBC_SHA256`. -/
def tlsCipherEcdhe : ℕ := 0xC027

/-- `TLS_CIPHER_RSA_AES128_CBC_SHA256`. -/
def tlsCipherRsa : ℕ := 0x003C

/-- `tls_alert_name`. -/
def tlsAlertName (description : UInt8) : String :=
  match description.toNat with
  | 0 => "close_notify"
  | 10 => "unexpected_message"
  | 20 => "bad_record_mac"
  | 21 => "decryption_failed"
  | 22 => "record_overflow"
  | 30 => "decompression_failure"
  | 40 => "handshake_failure"
  | 41 => "no_certificate"
  | 42 => "bad_certificate"
  | 43 => "unsupported_certificate"
  | 44 => "certificate_revoked"
  | 45 => "certificate_expired"
  | 46 => "certificate_unknown"
  | 47 => "illegal_parameter"
  | 48 => "unknown_ca"
  | 49 => "access_denied"
  | 50 => "decode_error"
  | 51 => "decrypt_error"
  | 60 => "export_restriction"
  | 70 => "protocol_version"
  | 71 => "insufficient_security"
  | 80 => "internal_error"
  | 90 => "user_canceled"
  | 100 => "no_renegotiation"
  | 110 => "unsupported_extension"
  | _ => "unknown"

/-- The error text for an alert. -/
def alertError (payload : List UInt8) : String :=
  "Server sent alert: " ++
    if payload.length ≥ 2 then tlsAlertName (byteAt payload 1) else "malformed alert"

/-- `struct x509_cert`; the name up to its final zero. -/
structure X509Cert where
  subjectCn : List UInt8
  modulus : List UInt8
  exponent : List UInt8
deriving DecidableEq

/-- The functions of other files that `tls_connect` calls. -/
structure Primitives where
  /-- the memory from `der` on and `der_len` -/
  x509ParseCertificate : List UInt8 → ℕ → Option X509Cert
  /-- modulus, exponent, signature and hash -/
  rsaVerifyPkcs1Sha256 : List UInt8 → List UInt8 → List UInt8 → List UInt8 → Bool
  /-- modulus, exponent, message and the clock that seeds the padding -/
  rsaEncryptPkcs1 : List UInt8 → List UInt8 → List UInt8 → UInt32 → Option (List UInt8)
  /-- the private key and the public point of a seed -/
  eccGenerateKeypair : List UInt8 → Option (List UInt8 × List UInt8)
  /-- private key and peer's point -/
  eccComputeSharedSecret : List UInt8 → List UInt8 → Option (List UInt8)

/-- The chunks of `tls_prf`, from `A(i)` on. -/
def prfChunks (secret labelSeed : List UInt8) : ℕ → List UInt8 → List UInt8
  | 0, _ => []
  | n + 1, a => hmac secret (a ++ labelSeed) ++ prfChunks secret labelSeed n (hmac secret a)

/-- `tls_prf`. -/
def tlsPrf (secret : List UInt8) (label : String) (seed : List UInt8) (outLen : ℕ) : List UInt8 :=
  let labelSeed := label.toUTF8.toList ++ seed
  (prfChunks secret labelSeed ((outLen + 31) / 32) (hmac secret labelSeed)).take outLen

/-- What `tls_connect` learns from the server's messages: `server_random`, `transcript`, the
    certificate (with `got_certificate`) and its other local variables. -/
structure Flight where
  serverRandom : List UInt8
  transcript : List UInt8
  serverCert : Option X509Cert
  gotServerHello : Bool
  gotServerKeyExchange : Bool
  gotServerHelloDone : Bool
  chosenCipherSuite : ℕ
  serverEcdhePubkey : List UInt8

/-- `transcript_append`. -/
def Flight.transcriptAppend (st : Flight) (data : List UInt8) : Flight :=
  if st.transcript.length + data.length > 8192 then st
  else { st with transcript := st.transcript ++ data }

/-- The handling of a ServerHello; `body` is the memory from its body on. -/
def handleServerHello (body : List UInt8) (msgLen : ℕ) (st : Flight) : Except String Flight :=
  if msgLen < 2 + 32 + 1 then .error "Malformed ServerHello."
  else
    let st := { st with serverRandom := (body.drop 2).take 32 }
    let csPos := 35 + (byteAt body 34).toNat
    if csPos + 2 > msgLen then .error "Malformed ServerHello."
    else
      let suite := be16 body csPos
      if suite ≠ tlsCipherEcdhe ∧ suite ≠ tlsCipherRsa then
        .error "Server chose a cipher suite this client didn't offer."
      else .ok { st with chosenCipherSuite := suite, gotServerHello := true }

/-- `signed_content`. -/
def signedContent (clientRandom serverRandom body : List UInt8) : List UInt8 :=
  clientRandom ++ serverRandom ++ body.take (4 + 65)

/-- The handling of a ServerKeyExchange. -/
def handleServerKeyExchange (prims : Primitives) (clientRandom body : List UInt8) (msgLen : ℕ)
    (st : Flight) : Except String Flight :=
  if msgLen < 1 + 2 + 1 then .error "Malformed ServerKeyExchange."
  else if byteAt body 0 ≠ 3 ∨ be16 body 1 ≠ 23 then
    .error "Server's ServerKeyExchange uses an unsupported curve (only P-256 is supported)."
  else if byteAt body 3 ≠ 65 ∨ 4 + 65 > msgLen then
    .error "Malformed ECDHE public key in ServerKeyExchange."
  else
    let st := { st with serverEcdhePubkey := (body.drop 4).take 65 }
    let sigAlgoPos := 4 + 65
    if sigAlgoPos + 4 > msgLen then .error "Malformed ServerKeyExchange signature header."
    else if byteAt body sigAlgoPos ≠ 4 ∨ byteAt body (sigAlgoPos + 1) ≠ 1 then
      .error "Server signed ServerKeyExchange with an unsupported hash/signature algorithm."
    else
      let sigLen := be16 body (sigAlgoPos + 2)
      let sigPos := sigAlgoPos + 4
      if sigPos + sigLen ≠ msgLen then .error "Malformed ServerKeyExchange signature length."
      else
        match st.serverCert with
        | none => .error "Server sent ServerKeyExchange before its Certificate."
        | some cert =>
          if prims.rsaVerifyPkcs1Sha256 cert.modulus cert.exponent ((body.drop sigPos).take sigLen)
              (sha256 (signedContent clientRandom st.serverRandom body)) then
            .ok { st with gotServerKeyExchange := true }
          else .error "ServerKeyExchange signature verification failed."

/-- The handling of a Certificate. -/
def handleCertificate (prims : Primitives) (body : List UInt8) (msgLen : ℕ) (st : Flight) :
    Except String Flight :=
  if msgLen < 3 + 3 then .error "Malformed Certificate message."
  else
    let certLen := 65536 * (byteAt body 3).toNat + be16 body 4
    if 6 + certLen > msgLen then .error "Malformed certificate length."
    else
      match prims.x509ParseCertificate (body.drop 6) certLen with
      | none => .error ("Could not parse the server's certificate (may use an unsupported key " ++
          "type - only RSA is supported).")
      | some cert => .ok { st with serverCert := some cert }

/-- `msg_len` of the message that starts here. -/
def messageLen (msg : List UInt8) : ℕ := 65536 * (byteAt msg 1).toNat + be16 msg 2

/-- The body of the loop over the messages; `msg` is the memory from a complete message on. -/
def handleMessage (prims : Primitives) (clientRandom msg : List UInt8) (st : Flight) :
    Except String Flight :=
  let msgLen := messageLen msg
  let st := st.transcriptAppend (msg.take (4 + msgLen))
  let body := msg.drop 4
  let msgType := byteAt msg 0
  if msgType = tlsHandshakeServerHello then handleServerHello body msgLen st
  else if msgType = tlsHandshakeServerKeyExchange then
    handleServerKeyExchange prims clientRandom body msgLen st
  else if msgType = tlsHandshakeCertificate then handleCertificate prims body msgLen st
  else if msgType = tlsHandshakeServerHelloDone then .ok { st with gotServerHelloDone := true }
  else .ok st

/-- The loop over the complete messages in the first `len` bytes of `flight`, from `fp` on. -/
def walkFlight (prims : Primitives) (clientRandom buf : List UInt8) (len fp : ℕ) (st : Flight) :
    Except String (ℕ × Flight) :=
  if fp + 4 ≤ len then
    let msg := buf.drop fp
    if fp + 4 + messageLen msg > len then .ok (fp, st)
    else
      match handleMessage prims clientRandom msg st with
      | .error e => .error e
      | .ok st => walkFlight prims clientRandom buf len (fp + 4 + messageLen msg) st
  else .ok (fp, st)
termination_by len - fp

/-- The array `flight` and `flight_len`. -/
structure FlightBuf where
  buf : List UInt8
  len : ℕ

/-- The size of `flight`, and of `record_payload`. -/
def flightSize : ℕ := 16384

/-- `memcpy` of a record to the end of the flight. -/
def FlightBuf.append (fb : FlightBuf) (payload : List UInt8) : FlightBuf :=
  ⟨fb.buf.take fb.len ++ payload ++ fb.buf.drop (fb.len + payload.length), fb.len + payload.length⟩

/-- `memmove` of what is left to the front. -/
def FlightBuf.shift (fb : FlightBuf) (fp : ℕ) : FlightBuf :=
  ⟨(fb.buf.take fb.len).drop fp ++ fb.buf.drop (fb.len - fp), fb.len - fp⟩

/-- The body of the loop over the records. -/
def onRecord (prims : Primitives) (clientRandom : List UInt8) (contentType : UInt8)
    (payload : List UInt8) (fb : FlightBuf) (st : Flight) : Except String Flight × FlightBuf :=
  if contentType = tlsContentAlert then (.error (alertError payload), fb)
  else if contentType ≠ tlsContentHandshake then (.ok st, fb)
  else if fb.len + payload.length > flightSize then
    (.error "Server handshake too large for this client.", fb)
  else
    let fb := fb.append payload
    match walkFlight prims clientRandom fb.buf fb.len 0 st with
    | .error e => (.error e, fb)
    | .ok (fp, st) => (.ok st, fb.shift fp)

/-- How `tls_connect` ends. -/
inductive ConnectResult where
  /-- it returns false with this `out_error` -/
  | failed (error : String)
  /-- `hmac_sha256` writes past the end of its buffer -/
  | overrun
  /-- it returns true -/
  | connected
deriving DecidableEq

/-- What a new connection is given: the host, what `tcp_connect` returned, the random values, the
    clock that seeds the padding, whether the network card takes the records, and what it
    receives. -/
structure ConnectInput where
  hostname : List UInt8
  tcp : Option TcpConn
  clientRandom : List UInt8
  preMasterRandom : List UInt8
  ecdheSeed : List UInt8
  paddingSeed : UInt32
  sent : ℕ → Bool
  polls : List Poll

/-- `tls_send_record` returns true for the record number `i` of the handshake. -/
def ConnectInput.sends (inp : ConnectInput) (i : ℕ) (payload : List UInt8) : Bool :=
  payload.length ≤ 1900 && inp.sent i

/-- A handshake message. -/
def handshakeMessage (msgType : UInt8) (body : List UInt8) : List UInt8 :=
  [msgType, UInt8.ofNat (body.length / 65536), UInt8.ofNat (body.length / 256),
    UInt8.ofNat body.length] ++ body

/-- The extensions of the ClientHello. -/
def helloExtensions (hostname : List UInt8) : List UInt8 :=
  let n := hostname.length
  [0x00, 0x00, UInt8.ofNat ((5 + n) / 256), UInt8.ofNat (5 + n), UInt8.ofNat ((n + 3) / 256),
    UInt8.ofNat (n + 3), 0x00, UInt8.ofNat (n / 256), UInt8.ofNat n] ++ hostname ++
  [0x00, 0x0A, 0x00, 0x04, 0x00, 0x02, 0x00, 0x17] ++ [0x00, 0x0B, 0x00, 0x02, 0x01, 0x00] ++
  [0x00, 0x0D, 0x00, 0x04, 0x00, 0x02, 0x04, 0x01]

/-- The ClientHello. -/
def clientHello (clientRandom hostname : List UInt8) : List UInt8 :=
  let ext := helloExtensions hostname
  handshakeMessage tlsHandshakeClientHello ([0x03, 0x03] ++ clientRandom ++
    [0x00, 0x00, 0x04, 0xC0, 0x27, 0x00, 0x3C, 0x01, 0x00, UInt8.ofNat (ext.length / 256),
      UInt8.ofNat ext.length] ++ ext)

/-- The checks after the flight: it is complete, and the certificate is that of the host. -/
def checkFlight (hostname : List UInt8) (st : Flight) : Except String X509Cert :=
  match st.gotServerHello, st.serverCert with
  | true, some cert =>
    if st.chosenCipherSuite = tlsCipherEcdhe ∧ st.gotServerKeyExchange = false then
      .error "Server chose ECDHE but never sent ServerKeyExchange."
    else if cert.subjectCn ≠ hostname then
      .error "Certificate subject name does not match the requested hostname."
    else .ok cert
  | _, _ => .error "Incomplete server handshake (missing ServerHello or Certificate)."

/-- The pre-master secret and the body of the ClientKeyExchange. -/
def keyExchange (prims : Primitives) (inp : ConnectInput) (cert : X509Cert) (st : Flight) :
    Except String (List UInt8 × List UInt8) :=
  if st.chosenCipherSuite = tlsCipherEcdhe then
    match prims.eccGenerateKeypair inp.ecdheSeed with
    | none => .error "Failed to generate an ECDHE key pair."
    | some (privateKey, publicPoint) =>
      match prims.eccComputeSharedSecret privateKey st.serverEcdhePubkey with
      | none => .error
          ("ECDHE shared secret computation failed (the server's point may not be a " ++
          "valid P-256 point).")
      | some secret => .ok (secret, 65 :: publicPoint)
  else
    let preMaster := [0x03, 0x03] ++ inp.preMasterRandom
    match prims.rsaEncryptPkcs1 cert.modulus cert.exponent preMaster inp.paddingSeed with
    | none => .error "RSA encryption of the pre-master secret failed."
    | some encrypted =>
      .ok (preMaster, [UInt8.ofNat (cert.modulus.length / 256), UInt8.ofNat cert.modulus.length] ++
        encrypted)

/-- `master_secret`. -/
def masterSecret (preMaster clientRandom serverRandom : List UInt8) : List UInt8 :=
  tlsPrf preMaster "master secret" (clientRandom ++ serverRandom) 48

/-- `key_block`. -/
def keyBlock (master clientRandom serverRandom : List UInt8) : List UInt8 :=
  tlsPrf master "key expansion" (serverRandom ++ clientRandom) (32 + 32 + 16 + 16)

/-- `tls.server_mac_key` and `tls.server_write_key` from the key block. -/
def TlsConn.withKeys (tls : TlsConn) (block : List UInt8) : TlsConn :=
  { tls with serverMacKey := (block.drop 32).take 32, serverWriteKey := (block.drop 80).take 16 }

/-- The variables that survive a connection: the static `tls` (with the stream and the receive
    buffer), `handshake_done` and the array `flight`. -/
structure TlsStatics where
  tls : TlsConn
  handshakeDone : Bool
  flight : List UInt8

/-- A connection record after `memset`. -/
def TlsConn.cleared (tls : TlsConn) (tcp : TcpConn) : TlsConn :=
  { tls with
    tcp := tcp
    serverMacKey := List.replicate 32 0
    serverWriteKey := List.replicate 16 0
    readSeqNum := 0 }

/-- The state at boot: everything is zero. -/
def TlsStatics.boot : TlsStatics where
  tls := ⟨⟨0, 0, 0, 0, 0⟩, List.replicate 32 0, List.replicate 16 0, 0, [],
    List.replicate rxBufSize 0⟩
  handshakeDone := false
  flight := List.replicate flightSize 0

set_option maxRecDepth 1024 in
/-- The loop of `tcp_close`. -/
def tcpCloseLoop (deadline : UInt32) (polls : List Poll) (tls : TlsConn) : TlsConn :=
  match polls with
  | [] => tls
  | p :: ps =>
    if deadline ≤ p.ticks then tls
    else if _hwrap : p.ticks + tcpTimeoutTicks ≤ p.ticks then tcpCloseLoop deadline ps tls
    else
      match _h : tcpWaitSegment tls.tcp 512 (p.ticks + tcpTimeoutTicks) (p :: ps) tls.rxBuf with
      | (none, rest, rxBuf) => tcpCloseLoop deadline rest { tls with rxBuf := rxBuf }
      | (some seg, rest, rxBuf) =>
        let tls := tls.acknowledge seg rxBuf
        if seg.flags &&& tcpFlagFin ≠ 0 then { tls with tcp := tls.tcp.advance 1 }
        else tcpCloseLoop deadline rest tls
termination_by polls.length
decreasing_by
  · exact Nat.lt_succ_self _
  all_goals exact length_lt_of_tcpWaitSegment _h (UInt32.not_le.mp _hwrap)

/-- `tcp_close`. -/
def tcpClose (polls : List Poll) (tls : TlsConn) : TlsConn :=
  tcpCloseLoop (clock polls + 100) polls tls

/-- The loop over the records of the server's flight: an early end or what was learnt, with the
    polls that are left and the state. -/
def flightLoop (prims : Primitives) (clientRandom : List UInt8) (polls : List Poll) (tls : TlsConn)
    (fb : FlightBuf) (st : Flight) :
    Except ConnectResult Flight × List Poll × TlsConn × FlightBuf :=
  if st.gotServerHelloDone then (.ok st, polls, tls, fb)
  else
    match _h : tlsRecvRecord flightSize false polls tls with
    | (.failed, polls, tls) =>
      (.error (.failed "Timed out waiting for the server's handshake response."), polls, tls, fb)
    | (.overrun, polls, tls) => (.error .overrun, polls, tls, fb)
    | (.record contentType payload, polls, tls) =>
      match onRecord prims clientRandom contentType payload fb st with
      | (.error e, fb) => (.error (.failed e), polls, tls, fb)
      | (.ok st, fb) => flightLoop prims clientRandom polls tls fb st
termination_by pending polls tls
decreasing_by exact pending_tlsRecvRecord _h

/-- `tls_connect` from the server's ChangeCipherSpec on. -/
def serverFinish (master transcript : List UInt8) (polls : List Poll) (tls : TlsConn) :
    ConnectResult × List Poll × TlsConn :=
  match tlsRecvRecord flightSize false polls tls with
  | (.failed, polls, tls) =>
    (.failed "Did not receive the server's ChangeCipherSpec (timed out).", polls, tls)
  | (.overrun, polls, tls) => (.overrun, polls, tls)
  | (.record contentType payload, polls, tls) =>
    if contentType = tlsContentAlert then (.failed (alertError payload), polls, tls)
    else if contentType ≠ tlsContentChangeCipherSpec then
      (.failed "Did not receive the server's ChangeCipherSpec (unexpected message).", polls, tls)
    else
      match tlsRecvRecord flightSize true polls tls with
      | (.failed, polls, tls) =>
        (.failed "Did not receive a valid server Finished message.", polls, tls)
      | (.overrun, polls, tls) => (.overrun, polls, tls)
      | (.record contentType payload, polls, tls) =>
        if contentType ≠ tlsContentHandshake ∨ payload.length ≠ 16 ∨
            byteAt payload 0 ≠ tlsHandshakeFinished then
          (.failed "Did not receive a valid server Finished message.", polls, tls)
        else
          let expected := tlsPrf master "server finished" (sha256 transcript) 12
          if macDiff expected (payload.drop 4) ≠ 0 then
            (.failed ("Server Finished verification failed (handshake integrity check did not " ++
              "match)."), polls, tls)
          else (.connected, polls, tls)

/-- `tls_connect` after the server's flight. -/
def clientFinish (prims : Primitives) (inp : ConnectInput) (st : Flight) (polls : List Poll)
    (tls : TlsConn) : ConnectResult × List Poll × TlsConn :=
  match checkFlight inp.hostname st with
  | .error e => (.failed e, polls, tls)
  | .ok cert =>
    match keyExchange prims inp cert st with
    | .error e => (.failed e, polls, tls)
    | .ok (preMaster, ckeBody) =>
      let ckeMsg := handshakeMessage tlsHandshakeClientKeyExchange ckeBody
      let st := st.transcriptAppend ckeMsg
      if ¬ inp.sends 1 ckeMsg then (.failed "Failed to send ClientKeyExchange.", polls, tls)
      else
        let master := masterSecret preMaster inp.clientRandom st.serverRandom
        let tls := tls.withKeys (keyBlock master inp.clientRandom st.serverRandom)
        if ¬ inp.sends 2 [0x01] then (.failed "Failed to send ChangeCipherSpec.", polls, tls)
        else
          let finished := handshakeMessage tlsHandshakeFinished
            (tlsPrf master "client finished" (sha256 st.transcript) 12)
          let st := st.transcriptAppend finished
          if ¬ inp.sends 3 finished then (.failed "Failed to send Finished.", polls, tls)
          else serverFinish master st.transcript polls tls

/-- The local variables when the flight begins. -/
def Flight.start (hello : List UInt8) : Flight :=
  Flight.transcriptAppend ⟨List.replicate 32 0, [], none, false, false, false, 0, []⟩ hello

/-- `tls_connect` once the TCP connection exists: how it ends, the polls that are left, the
    connection and the flight. -/
def tlsHandshake (prims : Primitives) (inp : ConnectInput) (tls : TlsConn) (flight : List UInt8) :
    ConnectResult × List Poll × TlsConn × List UInt8 :=
  let hello := clientHello inp.clientRandom inp.hostname
  if ¬ inp.sends 0 hello then (.failed "Failed to send ClientHello.", inp.polls, tls, flight)
  else
    match flightLoop prims inp.clientRandom inp.polls tls ⟨flight, 0⟩ (Flight.start hello) with
    | (.error r, polls, tls, fb) => (r, polls, tls, fb.buf)
    | (.ok st, polls, tls, fb) =>
      let (r, polls, tls) := clientFinish prims inp st polls tls
      (r, polls, tls, fb.buf)

/-- `tls_connect`. A connection that fails is closed. -/
def tlsConnect (prims : Primitives) (inp : ConnectInput) (m : TlsStatics) :
    ConnectResult × TlsStatics :=
  match inp.tcp with
  | none => (.failed "TCP connection failed.", { m with
      tls := m.tls.cleared ⟨0, 0, 0, 0, 0⟩, handshakeDone := false })
  | some tcp =>
    match tlsHandshake prims inp (m.tls.cleared tcp) m.flight with
    | (.connected, _, tls, flight) => (.connected, ⟨tls, true, flight⟩)
    | (.overrun, _, tls, flight) => (.overrun, ⟨tls, false, flight⟩)
    | (.failed e, polls, tls, flight) => (.failed e, ⟨tcpClose polls tls, false, flight⟩)

/-- What `tls_recv` returns. -/
inductive RecvOutcome where
  | nothing
  | overrun
  | data (payload : List UInt8)
deriving DecidableEq

/-- `tls_recv`, with what is left of the polls. -/
def tlsRecvPolls (maxLen : ℕ) (polls : List Poll) (m : TlsStatics) :
    RecvOutcome × List Poll × TlsStatics :=
  if ¬ m.handshakeDone then (.nothing, polls, m)
  else
    match tlsRecvRecord maxLen true polls m.tls with
    | (.failed, rest, tls) => (.nothing, rest, { m with tls := tls })
    | (.overrun, rest, tls) => (.overrun, rest, { m with tls := tls })
    | (.record contentType payload, rest, tls) =>
      if contentType = tlsContentApplicationData then (.data payload, rest, { m with tls := tls })
      else (.nothing, rest, { m with tls := tls })

/-- `tls_recv`. -/
def tlsRecv (maxLen : ℕ) (polls : List Poll) (m : TlsStatics) : RecvOutcome × TlsStatics :=
  let r := tlsRecvPolls maxLen polls m
  (r.1, r.2.2)

/-- `tls_close`. -/
def tlsClose (polls : List Poll) (m : TlsStatics) : TlsStatics :=
  { m with tls := tcpClose polls m.tls }

end AuroraOS.Tls
