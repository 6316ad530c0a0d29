import AuroraOS.Tls.Independence
import AuroraOS.Tls.Authentication
import AuroraOS.Tls.Locality

/-!
# Handshake messages and how they are cut into records

The flight buffer holds what was received and not yet handled. Whatever the records are in which the
messages arrive, the messages that the loops handle are those that the received bytes begin with.

## Main definitions

- `IsMessage`, `Incomplete` — a complete message, and the beginning of one
- `views` — the memory from each of several messages on
- `Received`, `handshakeBytes` — the records of a run

## Main results

- `parse_unique`
- `onRecord_messages_eq`
- `flightLoop_framing`, `flightLoop_handled`
-/

namespace AuroraOS.Tls

set_option maxRecDepth 4096

open AuroraOS.Net AuroraOS.Crypto

/-- A handshake message with all its bytes. -/
def IsMessage (msg : List UInt8) : Prop := msg.length = 4 + messageLen msg

/-- No complete message is at the front. -/
def Incomplete (data : List UInt8) : Prop := data.length < 4 + messageLen data

instance (msg : List UInt8) : Decidable (IsMessage msg) := inferInstanceAs (Decidable (_ = _))

instance (data : List UInt8) : Decidable (Incomplete data) := inferInstanceAs (Decidable (_ < _))

/-- The memory from each of the messages on that are at the front of a memory. -/
def views (memory : List UInt8) : List (List UInt8) → List (List UInt8)
  | [] => []
  | msg :: msgs => memory :: views (memory.drop msg.length) msgs

section Messages

variable {msg data rest rest' : List UInt8} {msgs msgs' : List (List UInt8)}

theorem messageLen_append (h : 4 ≤ msg.length) (rest : List UInt8) :
    messageLen (msg ++ rest) = messageLen msg := by
  have hhead : (msg ++ rest).take 4 = msg.take 4 := List.take_append_of_le_length h
  simpa using messageLen_of_take hhead (show 0 + 4 ≤ 4 by decide)

theorem IsMessage.four_le (h : IsMessage msg) : 4 ≤ msg.length := by
  rw [IsMessage] at h
  omega

theorem IsMessage.messageLen_append (h : IsMessage msg) (rest : List UInt8) :
    messageLen (msg ++ rest) = messageLen msg :=
  Tls.messageLen_append h.four_le rest

theorem IsMessage.not_incomplete (h : IsMessage msg) (rest : List UInt8) :
    ¬ Incomplete (msg ++ rest) := by
  rw [Incomplete, h.messageLen_append, List.length_append, h]
  omega

theorem incomplete_nil : Incomplete [] := by decide

/-- Bytes begin with complete messages in one way only. -/
theorem parse_unique (hmsgs : ∀ m ∈ msgs, IsMessage m) (hmsgs' : ∀ m ∈ msgs', IsMessage m)
    (hrest : Incomplete rest) (hrest' : Incomplete rest')
    (h : msgs.flatten ++ rest = msgs'.flatten ++ rest') : msgs = msgs' ∧ rest = rest' := by
  induction msgs generalizing msgs' with
  | nil =>
    cases msgs' with
    | nil => exact ⟨rfl, h⟩
    | cons m ms =>
      have hm := (List.forall_mem_cons.mp hmsgs').1
      rw [List.flatten_nil, List.nil_append, List.flatten_cons, List.append_assoc] at h
      exact absurd (h ▸ hrest) (hm.not_incomplete _)
  | cons m ms ih =>
    obtain ⟨hm, hms⟩ := List.forall_mem_cons.mp hmsgs
    cases msgs' with
    | nil =>
      rw [List.flatten_nil, List.nil_append, List.flatten_cons, List.append_assoc] at h
      exact absurd (h.symm ▸ hrest') (hm.not_incomplete _)
    | cons m' ms' =>
      obtain ⟨hm', hms'⟩ := List.forall_mem_cons.mp hmsgs'
      rw [List.flatten_cons, List.append_assoc, List.flatten_cons, List.append_assoc] at h
      have hlen : m.length = m'.length := by
        rw [hm, hm', ← hm.messageLen_append (ms.flatten ++ rest), h, hm'.messageLen_append]
      obtain ⟨rfl, htail⟩ := List.append_inj h hlen
      obtain ⟨rfl, rfl⟩ := ih hms hms' htail
      exact ⟨rfl, rfl⟩

/-- What is left of messages behind the first ones is messages. -/
theorem flatten_split {done : List (List UInt8)} (hdone : ∀ m ∈ done, IsMessage m)
    (hmsgs : ∀ m ∈ msgs, IsMessage m) (h : done.flatten ++ rest = msgs.flatten) :
    ∃ later, msgs = done ++ later ∧ rest = later.flatten := by
  induction done generalizing msgs with
  | nil => exact ⟨msgs, rfl, h⟩
  | cons d ds ih =>
    obtain ⟨hd, hds⟩ := List.forall_mem_cons.mp hdone
    rw [List.flatten_cons, List.append_assoc] at h
    cases msgs with
    | nil =>
      have hlen := congrArg List.length h
      rw [List.length_append, hd] at hlen
      simp only [List.flatten_nil, List.length_nil] at hlen
      omega
    | cons m ms =>
      obtain ⟨hm, hms⟩ := List.forall_mem_cons.mp hmsgs
      rw [List.flatten_cons] at h
      have hlen : d.length = m.length := by
        rw [hd, hm, ← hd.messageLen_append (ds.flatten ++ rest), h, hm.messageLen_append]
      obtain ⟨rfl, htail⟩ := List.append_inj h hlen
      obtain ⟨later, rfl, rfl⟩ := ih hds hms htail
      exact ⟨later, rfl, rfl⟩

/-- All bytes are messages and the beginning of one. -/
theorem exists_messages (data : List UInt8) :
    ∃ (msgs : List (List UInt8)) (rest : List UInt8),
      data = msgs.flatten ++ rest ∧ (∀ m ∈ msgs, IsMessage m) ∧ Incomplete rest := by
  induction hn : data.length using Nat.strong_induction_on generalizing data with
  | _ n ih =>
    by_cases hdata : Incomplete data
    · exact ⟨[], data, rfl, List.forall_mem_nil _, hdata⟩
    · rw [Incomplete, Nat.not_lt] at hdata
      obtain ⟨msgs, rest, hsplit, hmsgs, hrest⟩ := ih (data.drop (4 + messageLen data)).length
        (by rw [List.length_drop]; omega) _ rfl
      have hfirst : IsMessage (data.take (4 + messageLen data)) := by
        have hlen : (data.take (4 + messageLen data)).length = 4 + messageLen data := by
          rw [List.length_take]
          omega
        have hword := Tls.messageLen_append
          (show 4 ≤ (data.take (4 + messageLen data)).length by omega)
            (data.drop (4 + messageLen data))
        rw [List.take_append_drop] at hword
        rw [IsMessage, hlen, ← hword]
      refine ⟨data.take (4 + messageLen data) :: msgs, rest, ?_,
        List.forall_mem_cons.mpr ⟨hfirst, hmsgs⟩, hrest⟩
      rw [List.flatten_cons, List.append_assoc, ← hsplit, List.take_append_drop]

end Messages

section Walk

variable {prims : Primitives} {clientRandom : List UInt8} {msgs : List (List UInt8)}

/-- The loop over the messages handles those at the front of what the buffer holds. -/
theorem walkFlight_messages_eq {buf data rest : List UInt8} {fp : ℕ} (st : Flight)
    (hbuf : ∃ behind, buf.drop fp = data ++ behind) (hdata : data = msgs.flatten ++ rest)
    (hmsgs : ∀ m ∈ msgs, IsMessage m) (hrest : Incomplete rest) :
    walkFlight prims clientRandom buf (fp + data.length) fp st =
      (handleMessages prims clientRandom (views (buf.drop fp) msgs) st).map
        fun st' => (fp + msgs.flatten.length, st') := by
  obtain ⟨behind, hbehind⟩ := hbuf
  induction msgs generalizing fp data st with
  | nil =>
    rw [List.flatten_nil, List.nil_append] at hdata
    subst hdata
    rw [walkFlight.eq_def]
    by_cases hfour : fp + 4 ≤ fp + data.length
    · rw [Incomplete, ← messageLen_append (by omega) behind, ← hbehind] at hrest
      rw [if_pos hfour]
      exact if_pos (by omega)
    · rw [if_neg hfour]
      rfl
  | cons m ms ih =>
    obtain ⟨hm, hms⟩ := List.forall_mem_cons.mp hmsgs
    have hsplit : data = m ++ (ms.flatten ++ rest) := by
      rw [hdata, List.flatten_cons, List.append_assoc]
    have hlen : messageLen (buf.drop fp) = messageLen m := by
      rw [hbehind, hsplit, List.append_assoc, hm.messageLen_append]
    have hsize : data.length = m.length + (ms.flatten ++ rest).length := by
      rw [hsplit, List.length_append]
    have hnext : fp + 4 + messageLen (buf.drop fp) = fp + m.length := by
      rw [hlen, hm]
      omega
    have hdrop : buf.drop (fp + m.length) = (ms.flatten ++ rest) ++ behind := by
      rw [← List.drop_drop, hbehind, hsplit, List.append_assoc, List.drop_left]
    rw [walkFlight_step st (by omega), hnext, views, handleMessages, List.foldlM_cons]
    cases handleMessage prims clientRandom (buf.drop fp) st with
    | error e => rfl
    | ok st' =>
      have hlater := @ih (ms.flatten ++ rest) (fp + m.length) st' rfl hms hdrop
      rw [Nat.add_assoc, ← hsize] at hlater
      simp only [hlater, List.drop_drop]
      rw [handleMessages, List.flatten_cons, List.length_append, Nat.add_assoc]
      rfl

/-- A record of handshake data, unless it is too much. -/
theorem onRecord_messages_eq {fb : FlightBuf} {data payload rest : List UInt8} (st : Flight)
    (hholds : Holds fb data) (hroom : fb.len + payload.length ≤ flightSize)
    (hdata : data ++ payload = msgs.flatten ++ rest) (hmsgs : ∀ m ∈ msgs, IsMessage m)
    (hrest : Incomplete rest) :
    onRecord prims clientRandom tlsContentHandshake payload fb st =
      match handleMessages prims clientRandom (views (fb.append payload).buf msgs) st with
      | .error e => (.error e, fb.append payload)
      | .ok st => (.ok st, (fb.append payload).shift msgs.flatten.length) := by
  have happend := hholds.append payload
  have hwalk := @walkFlight_messages_eq prims clientRandom msgs (fb.append payload).buf
    (data ++ payload) rest 0 st
    ⟨(fb.append payload).buf.drop (fb.append payload).len, by
      rw [List.drop_zero, ← happend.take_eq, List.take_append_drop]⟩ hdata hmsgs hrest
  rw [Nat.zero_add, ← happend.len_eq, List.drop_zero] at hwalk
  rw [onRecord, if_neg (by decide), if_neg (by decide), if_neg (Nat.not_lt_of_le hroom)]
  simp only [hwalk]
  cases handleMessages prims clientRandom (views (fb.append payload).buf msgs) st with
  | error e => rfl
  | ok st' => simp only [Except.map, Nat.zero_add]

end Walk

/-- Successive calls of `tls_recv_record` return these records. -/
inductive Received : List Poll → TlsConn → List (UInt8 × List UInt8) → List Poll → TlsConn → Prop
  | nil {polls : List Poll} {tls : TlsConn} : Received polls tls [] polls tls
  | cons {polls polls' polls'' : List Poll} {tls tls' tls'' : TlsConn} {contentType : UInt8}
      {payload : List UInt8} {records : List (UInt8 × List UInt8)} :
      tlsRecvRecord flightSize false polls tls = (.record contentType payload, polls', tls') →
      Received polls' tls' records polls'' tls'' →
      Received polls tls ((contentType, payload) :: records) polls'' tls''

/-- The handshake data in the records. -/
def handshakeBytes (records : List (UInt8 × List UInt8)) : List UInt8 :=
  records.flatMap fun r => if r.1 = tlsContentHandshake then r.2 else []

section Records

variable {polls polls' : List Poll} {tls tls' : TlsConn}
    {records records' : List (UInt8 × List UInt8)}

theorem Received.pending_le (h : Received polls tls records polls' tls') :
    pending polls' tls' ≤ pending polls tls := by
  induction h with
  | nil => exact Nat.le_refl _
  | cons hrecv _ ih => exact ih.trans (pending_tlsRecvRecord hrecv).le

/-- The state that is reached tells which records were received. -/
theorem Received.unique (h : Received polls tls records polls' tls')
    (h' : Received polls tls records' polls' tls') : records = records' := by
  induction h generalizing records' with
  | nil =>
    cases h' with
    | nil => rfl
    | cons hrecv hlater =>
      have := pending_tlsRecvRecord hrecv
      have := hlater.pending_le
      omega
  | cons hrecv hlater ih =>
    cases h' with
    | nil =>
      have := pending_tlsRecvRecord hrecv
      have := hlater.pending_le
      omega
    | cons hrecv' hlater' =>
      rw [hrecv] at hrecv'
      obtain ⟨⟨rfl, rfl⟩, rfl, rfl⟩ : (_ = _ ∧ _ = _) ∧ _ = _ ∧ _ = _ := by simpa using hrecv'
      rw [ih hlater']

theorem handshakeBytes_cons (contentType : UInt8) (payload : List UInt8)
    (records : List (UInt8 × List UInt8)) :
    handshakeBytes ((contentType, payload) :: records) =
      (if contentType = tlsContentHandshake then payload else []) ++ handshakeBytes records := rfl

end Records

/-- The certificate in a message, if there is one, is parsed within its own bytes. -/
def CertificateInside (prims : Primitives) (msg : List UInt8) : Prop :=
  ∀ der, certificateOf msg = some der → ParsedInside prims der

section Handled

variable {prims : Primitives} {clientRandom msg behind : List UInt8} {msgs : List (List UInt8)}
  {st st' : Flight}

/-- A message is handled in the same way whatever lies behind it. -/
theorem handleMessage_append (hmsg : IsMessage msg) (hcert : CertificateInside prims msg)
    (st : Flight) (behind : List UInt8) :
    handleMessage prims clientRandom (msg ++ behind) st = handleMessage prims clientRandom msg st :=
  (@handleMessage_of_take prims clientRandom msg (msg ++ behind) msg.length
    (by rw [List.take_left, List.take_length]) (le_of_eq hmsg.symm) (Nat.le_refl _) hcert st).symm

theorem handleMessages_views (hmsgs : ∀ m ∈ msgs, IsMessage m)
    (hcert : ∀ m ∈ msgs, CertificateInside prims m) (st : Flight) (behind : List UInt8) :
    handleMessages prims clientRandom (views (msgs.flatten ++ behind) msgs) st =
      handleMessages prims clientRandom msgs st := by
  induction msgs generalizing st with
  | nil => rfl
  | cons m ms ih =>
    obtain ⟨hm, hms⟩ := List.forall_mem_cons.mp hmsgs
    obtain ⟨hc, hcs⟩ := List.forall_mem_cons.mp hcert
    rw [views, List.flatten_cons, List.append_assoc, List.drop_left, handleMessages, handleMessages,
      List.foldlM_cons, List.foldlM_cons, handleMessage_append hm hc]
    cases handleMessage prims clientRandom m st with
    | error e => rfl
    | ok st' => exact ih hms hcs st'

/-- The flight goes on until its end comes. -/
theorem handleMessages_not_done (h : handleMessages prims clientRandom msgs st = .ok st')
    (hst : st.gotServerHelloDone = false) (hmsgs : ∀ m ∈ msgs, ¬ IsServerHelloDone m) :
    st'.gotServerHelloDone = false := by
  induction msgs generalizing st with
  | nil =>
    cases h
    exact hst
  | cons m ms ih =>
    obtain ⟨mid, hmid, hrest⟩ := handleMessages_cons h
    obtain ⟨hm, hms⟩ := List.forall_mem_cons.mp hmsgs
    refine ih hrest ?_ hms
    rw [(handleMessage_learns hmid).done, hst, decide_eq_false hm, Bool.or_self]

theorem handleMessages_done {last : List UInt8}
    (h : handleMessages prims clientRandom (msgs ++ [last]) st = .ok st')
    (hlast : IsServerHelloDone last) : st'.gotServerHelloDone = true := by
  obtain ⟨mid, -, hrest⟩ := handleMessages_append h
  obtain ⟨end_, hend, hnil⟩ := handleMessages_cons hrest
  cases hnil
  rw [(handleMessage_learns hend).done, decide_eq_true hlast, Bool.or_true]

end Handled

/-- What `tls_connect` says when the flight buffer is full. -/
def tooLarge : Except ConnectResult Flight :=
  .error (.failed "Server handshake too large for this client.")

/-- The result of the flight for messages that are handled one after the other. -/
def flightResult (r : Except String Flight) : Except ConnectResult Flight :=
  match r with
  | .error e => .error (.failed e)
  | .ok st => .ok st

section Loop

variable {prims : Primitives} {clientRandom : List UInt8} {polls polls' : List Poll}
  {tls tls' : TlsConn} {records : List (UInt8 × List UInt8)} {fb : FlightBuf} {st : Flight}
  {data : List UInt8}

/-- A turn of the loop that receives handshake data. -/
theorem flightLoop_turn {payload rest : List UInt8} {msgs : List (List UInt8)}
    (hdone : ¬ st.gotServerHelloDone = true)
    (hrecv : tlsRecvRecord flightSize false polls tls =
      (.record tlsContentHandshake payload, polls', tls'))
    (hholds : Holds fb data) (hroom : fb.len + payload.length ≤ flightSize)
    (hdata : data ++ payload = msgs.flatten ++ rest) (hmsgs : ∀ m ∈ msgs, IsMessage m)
    (hrest : Incomplete rest) :
    flightLoop prims clientRandom polls tls fb st =
      match handleMessages prims clientRandom (views (fb.append payload).buf msgs) st with
      | .error e => (.error (.failed e), polls', tls', fb.append payload)
      | .ok st =>
        flightLoop prims clientRandom polls' tls'
          ((fb.append payload).shift msgs.flatten.length) st := by
  rw [flightLoop_record hdone hrecv, onRecord_messages_eq st hholds hroom hdata hmsgs hrest]
  cases handleMessages prims clientRandom (views (fb.append payload).buf msgs) st with
  | error e => rfl
  | ok st' => rfl

theorem flightLoop_done (h : st.gotServerHelloDone = true) :
    flightLoop prims clientRandom polls tls fb st = (.ok st, polls, tls, fb) := by
  rw [flightLoop.eq_def, if_pos h]

/-- However the messages of a flight are cut into records, they are handled one after the other,
    unless there are too many bytes for the buffer. -/
theorem flightLoop_framing (hrecords : Received polls tls records polls' tls')
    (halert : ∀ r ∈ records, r.1 ≠ tlsContentAlert) (hholds : Holds fb data)
    (hdata : Incomplete data) (hst : st.gotServerHelloDone = false)
    {init : List (List UInt8)} {last : List UInt8}
    (hbytes : data ++ handshakeBytes records = (init ++ [last]).flatten)
    (hmsgs : ∀ m ∈ init ++ [last], IsMessage m) (hinit : ∀ m ∈ init, ¬ IsServerHelloDone m)
    (hlast : IsServerHelloDone last) (hcert : ∀ m ∈ init ++ [last], CertificateInside prims m) :
    ((flightLoop prims clientRandom polls tls fb st).1 = tooLarge ∧
        flightSize < (init ++ [last]).flatten.length) ∨
      (flightLoop prims clientRandom polls tls fb st).1 =
        flightResult (handleMessages prims clientRandom (init ++ [last]) st) := by
  induction hrecords generalizing fb data st init with
  | nil =>
    -- all messages would have been handled already
    have hnone := parse_unique hmsgs (List.forall_mem_nil _) incomplete_nil hdata
      (by simpa [handshakeBytes] using hbytes.symm)
    exact absurd hnone.1 (by simp)
  | @cons polls polls' polls'' tls tls' tls'' contentType payload records hrecv hlater ih =>
    obtain ⟨hfirst, hothers⟩ := List.forall_mem_cons.mp halert
    have hdone : ¬ st.gotServerHelloDone = true := by
      rw [hst]
      exact Bool.false_ne_true
    rw [handshakeBytes_cons] at hbytes
    by_cases hother : contentType = tlsContentHandshake
    · subst hother
      rw [if_pos rfl, ← List.append_assoc] at hbytes
      by_cases hfull : fb.len + payload.length ≤ flightSize
      · obtain ⟨done, rest, hsplit, hdoneMsgs, hrest⟩ := exists_messages (data ++ payload)
        rw [flightLoop_turn hdone hrecv hholds hfull hsplit hdoneMsgs hrest]
        rw [hsplit, List.append_assoc] at hbytes
        obtain ⟨later, hall, hleft⟩ := flatten_split hdoneMsgs hmsgs hbytes
        have hview : ∀ behind,
          handleMessages prims clientRandom (views (done.flatten ++ behind) done) st =
            handleMessages prims clientRandom done st :=
          handleMessages_views hdoneMsgs
            (fun m hm => hcert m (by rw [hall]; exact List.mem_append_left _ hm)) st
        have happend := hholds.append payload
        have hmem : (fb.append payload).buf =
            done.flatten ++ (rest ++ (fb.append payload).buf.drop (fb.append payload).len) := by
          rw [← List.append_assoc, ← hsplit, ← happend.take_eq, List.take_append_drop]
        rw [hmem, hview, hall]
        cases hrun : handleMessages prims clientRandom done st with
        | error e =>
          right
          rw [handleMessages, List.foldlM_append]
          rw [handleMessages] at hrun
          rw [hrun]
          rfl
        | ok mid =>
          simp only
          have hrunAll : handleMessages prims clientRandom (done ++ later) st =
              handleMessages prims clientRandom later mid := by
            rw [handleMessages, List.foldlM_append]
            rw [handleMessages] at hrun
            rw [hrun]
            rfl
          rw [hrunAll]
          rcases List.eq_nil_or_concat' later with rfl | ⟨init', last', rfl⟩
          · -- the last message was among them
            right
            rw [List.append_nil] at hall
            rw [← hall] at hrun
            rw [flightLoop_done (handleMessages_done hrun hlast)]
            rfl
          · rw [← List.append_assoc] at hall
            obtain ⟨rfl, hend⟩ := List.append_inj' hall rfl
            obtain rfl := List.singleton_inj.mp hend
            have hleftHolds := happend.shift done.flatten.length
            rw [hsplit, List.drop_left] at hleftHolds
            refine (ih hothers hleftHolds hrest
              (handleMessages_not_done hrun hst fun m hm =>
                hinit m (List.mem_append_left _ hm)) hleft
              (fun m hm => hmsgs m (by rw [List.append_assoc]; exact List.mem_append_right _ hm))
              (fun m hm => hinit m (List.mem_append_right _ hm))
              (fun m hm =>
                hcert m (by rw [List.append_assoc]; exact List.mem_append_right _ hm))).imp_left
              ?_
            rintro ⟨hlarge, hsize⟩
            refine ⟨hlarge, hsize.trans_le ?_⟩
            simp only [List.flatten_append, List.length_append]
            omega
      · left
        have honFull : onRecord prims clientRandom tlsContentHandshake payload fb st =
            (.error "Server handshake too large for this client.", fb) := by
          rw [onRecord, if_neg (by decide), if_neg (by decide), if_pos (Nat.lt_of_not_le hfull)]
        rw [flightLoop_record hdone hrecv, honFull, ← hbytes, List.length_append,
          List.length_append, ← hholds.len_eq]
        exact ⟨rfl, by omega⟩
    · rw [if_neg hother, List.nil_append] at hbytes
      have hskip : onRecord prims clientRandom contentType payload fb st = (.ok st, fb) := by
        rw [onRecord, if_neg hfirst, if_pos hother]
      rw [flightLoop_record hdone hrecv, hskip]
      exact ih hothers hholds hdata hst hbytes hmsgs hinit hcert

theorem Holds.empty (buf : List UInt8) : Holds ⟨buf, 0⟩ [] := ⟨rfl, rfl⟩

end Loop

section Parser

/-- `x509_parse_certificate`, with the name up to its final zero. -/
def x509Parser (memory : List UInt8) (derLen : ℕ) : Option X509Cert :=
  (X509.x509ParseCertificate (memory.getD · 0) (derLen + 1) derLen).value.map fun cert =>
    ⟨cert.subjectCn.takeWhile (· ≠ 0), cert.pubkey.modulus, cert.pubkey.exponent⟩

/-- A certificate in whose parse no sum wraps around is parsed within its own bytes. -/
theorem parsedInside_of_fits {prims : Primitives} (hprims : prims.x509ParseCertificate = x509Parser)
    {der : List UInt8} (hlen : der.length < 2 ^ 32)
    (hfit : ∀ e ∈ (X509.x509ParseCertificate (der.getD · 0) (der.length + 1) der.length).log,
      X509.CallFits (der.getD · 0) e) : ParsedInside prims der := by
  intro rest
  have hsame : X509.x509ParseCertificate ((der ++ rest).getD · 0) (der.length + 1) der.length =
      X509.x509ParseCertificate (der.getD · 0) (der.length + 1) der.length := by
    refine X509.x509ParseCertificate_same hlen (Nat.lt_succ_self _) hfit fun i hi => ?_
    simp only [List.getD_eq_getElem?_getD, List.getElem?_append_left hi]
  rw [hprims, x509Parser, x509Parser, hsame]

end Parser

/-- The server's flight does not depend on how its messages are cut into records, nor on what the
    flight buffer held before, if every certificate is parsed within its own bytes. -/
theorem flightLoop_any_framing {prims : Primitives} {clientRandom hello : List UInt8}
    {polls₁ polls₂ polls₁' polls₂' : List Poll} {tls₁ tls₂ tls₁' tls₂' : TlsConn}
    {records₁ records₂ : List (UInt8 × List UInt8)}
    (h₁ : Received polls₁ tls₁ records₁ polls₁' tls₁')
    (h₂ : Received polls₂ tls₂ records₂ polls₂' tls₂')
    (halert₁ : ∀ r ∈ records₁, r.1 ≠ tlsContentAlert)
    (halert₂ : ∀ r ∈ records₂, r.1 ≠ tlsContentAlert)
    {init : List (List UInt8)} {last : List UInt8}
    (hbytes₁ : handshakeBytes records₁ = (init ++ [last]).flatten)
    (hbytes₂ : handshakeBytes records₂ = (init ++ [last]).flatten)
    (hmsgs : ∀ m ∈ init ++ [last], IsMessage m) (hinit : ∀ m ∈ init, ¬ IsServerHelloDone m)
    (hlast : IsServerHelloDone last) (hcert : ∀ m ∈ init ++ [last], CertificateInside prims m)
    {buf₁ buf₂ : List UInt8}
    (hroom₁ : (flightLoop prims clientRandom polls₁ tls₁ ⟨buf₁, 0⟩ (Flight.start hello)).1 ≠
      tooLarge)
    (hroom₂ : (flightLoop prims clientRandom polls₂ tls₂ ⟨buf₂, 0⟩ (Flight.start hello)).1 ≠
      tooLarge) :
    (flightLoop prims clientRandom polls₁ tls₁ ⟨buf₁, 0⟩ (Flight.start hello)).1 =
        flightResult (handleMessages prims clientRandom (init ++ [last]) (Flight.start hello)) ∧
      (flightLoop prims clientRandom polls₁ tls₁ ⟨buf₁, 0⟩ (Flight.start hello)).1 =
        (flightLoop prims clientRandom polls₂ tls₂ ⟨buf₂, 0⟩ (Flight.start hello)).1 := by
  have hst : (Flight.start hello).gotServerHelloDone = false :=
    Bool.eq_false_iff.mpr (start_not_done hello)
  have hrun₁ := (flightLoop_framing h₁ halert₁ (.empty buf₁) incomplete_nil hst
    (by rwa [List.nil_append]) hmsgs hinit hlast hcert).resolve_left fun h => hroom₁ h.1
  have hrun₂ := (flightLoop_framing h₂ halert₂ (.empty buf₂) incomplete_nil hst
    (by rwa [List.nil_append]) hmsgs hinit hlast hcert).resolve_left fun h => hroom₂ h.1
  exact ⟨hrun₁, hrun₁.trans hrun₂.symm⟩

section Runs

/-- The functions of the handshake with the parser of the code; the others are not called. -/
def parserPrimitives : Primitives := { noPrimitives with x509ParseCertificate := x509Parser }

/-- A Certificate message with this certificate. -/
def certificateMessage (der : List UInt8) : List UInt8 :=
  let n := der.length
  handshakeMessage tlsHandshakeCertificate ([0, UInt8.ofNat ((n + 3) / 256), UInt8.ofNat (n + 3),
    0, UInt8.ofNat (n / 256), UInt8.ofNat n] ++ der)

def serverHelloDone : List UInt8 := handshakeMessage tlsHandshakeServerHelloDone []

/-- A client that has received these records. -/
def holding (records : List Record) : TlsConn := { exampleTls with stream := encodeAll records }

/-- A handshake record. -/
def handshakeRecord (payload : List UInt8) (h : payload.length ≤ tlsMaxRecordCiphertext) : Record :=
  ⟨tlsContentHandshake, 3, 3, payload, h⟩

/-- The records are received one after the other. -/
theorem received_holding {records : List Record}
    (h : ∀ r ∈ records, r.fragment.length ≤ flightSize) :
    Received [] (holding records) (records.map fun r => (r.contentType, r.fragment)) []
      (holding []) := by
  induction records with
  | nil => exact .nil
  | cons r rs ih =>
    obtain ⟨hr, hrs⟩ := List.forall_mem_cons.mp h
    exact .cons (tlsRecvRecord_complete (encodeAll_cons r rs) hr) (ih hrs)

/-- A flight that fits the buffer and is handled is not too large. -/
theorem flightLoop_fits {prims : Primitives} {tls tls' : TlsConn} {polls polls' : List Poll}
    {records : List (UInt8 × List UInt8)} (h : Received polls tls records polls' tls')
    (halert : ∀ r ∈ records, r.1 ≠ tlsContentAlert) {init : List (List UInt8)} {last : List UInt8}
    (hbytes : handshakeBytes records = (init ++ [last]).flatten)
    (hmsgs : ∀ m ∈ init ++ [last], IsMessage m) (hinit : ∀ m ∈ init, ¬ IsServerHelloDone m)
    (hlast : IsServerHelloDone last) (hcert : ∀ m ∈ init ++ [last], CertificateInside prims m)
    (hsize : (init ++ [last]).flatten.length ≤ flightSize) {clientRandom hello buf : List UInt8}
    (hok : (handleMessages prims clientRandom (init ++ [last]) (Flight.start hello)).isOk = true) :
    (flightLoop prims clientRandom polls tls ⟨buf, 0⟩ (Flight.start hello)).1 ≠ tooLarge := by
  rcases flightLoop_framing h halert (.empty buf) incomplete_nil
    (Bool.eq_false_iff.mpr (start_not_done hello)) hbytes hmsgs hinit hlast hcert with
    ⟨-, hlarge⟩ | hrun
  · omega
  · rw [hrun]
    cases hresult : handleMessages prims clientRandom (init ++ [last]) (Flight.start hello) with
    | error e =>
      rw [hresult] at hok
      cases hok
    | ok st => simp [flightResult, tooLarge]

/-- The flight of the short certificate. -/
def shortFlight : List (List UInt8) := [certificateMessage X509.shortDer] ++ [serverHelloDone]

/-- Its messages in one record. -/
def oneRecord : List Record := [handshakeRecord shortFlight.flatten (by decide)]

/-- The same bytes, cut in the first header. -/
def twoRecords : List Record :=
  [handshakeRecord (shortFlight.flatten.take 2) (by decide), handshakeRecord [] (by decide),
    handshakeRecord (shortFlight.flatten.drop 2) (by decide)]

theorem flightLoop_any_framing_short :
    (flightLoop parserPrimitives [] [] (holding oneRecord) ⟨[], 0⟩ (Flight.start [])).1 =
        flightResult (handleMessages parserPrimitives [] shortFlight (Flight.start [])) ∧
      (flightLoop parserPrimitives [] [] (holding oneRecord) ⟨[], 0⟩ (Flight.start [])).1 =
        (flightLoop parserPrimitives [] [] (holding twoRecords) ⟨[1, 2, 3], 0⟩
          (Flight.start [])).1 := by
  have hmsgs : ∀ m ∈ shortFlight, IsMessage m := by decide
  have hinit : ∀ m ∈ [certificateMessage X509.shortDer], ¬ IsServerHelloDone m := by decide
  have hlast : IsServerHelloDone serverHelloDone := by decide
  have hcert : ∀ m ∈ shortFlight, CertificateInside parserPrimitives m := by
    intro m hm der hder
    have hder' : der = X509.shortDer := by
      rcases List.mem_cons.mp hm with rfl | hm
      · exact Option.some.inj (hder.symm.trans (by decide))
      · have hnone : certificateOf serverHelloDone = none := by decide
        rw [List.mem_singleton.mp hm, hnone] at hder
        cases hder
    rw [hder']
    exact parsedInside_of_fits rfl (by decide) (by decide)
  have h₁ := @received_holding oneRecord (by decide)
  have h₂ := @received_holding twoRecords (by decide)
  have hok : (handleMessages parserPrimitives [] shortFlight (Flight.start [])).isOk = true := by
    decide
  exact flightLoop_any_framing h₁ h₂ (by decide) (by decide) (by decide)
    (by decide) hmsgs hinit hlast
    hcert (flightLoop_fits h₁ (by decide) (by decide) hmsgs hinit hlast hcert (by decide) hok)
    (flightLoop_fits h₂ (by decide) (by decide) hmsgs hinit hlast hcert (by decide) hok)

/-- The key of this certificate is said to have 2 ^ 32 - 37 bytes, and the last number in it has its
    only byte behind the certificate. -/
def openKeyDer : List UInt8 :=
  [0x30, 0x2B, 0x30, 0x29, 0x02, 0x01, 0x01, 0x30, 0x00, 0x30, 0x00, 0x30, 0x00,
    0x30, 0x0C, 0x31, 0x0A, 0x30, 0x08, 0x06, 0x03, 0x55, 0x04, 0x03, 0x0C, 0x01, 0x61,
    0x30, 0x10, 0x30, 0x00, 0x03, 0x84, 0xFF, 0xFF, 0xFF, 0xDB, 0x00,
    0x30, 0x06, 0x02, 0x01, 0x05, 0x02, 0x01]

/-- A flight with this certificate. -/
def openKeyFlight : List (List UInt8) := [certificateMessage openKeyDer] ++ [serverHelloDone]

/-- The exponent that a flight ends with. -/
def exponentOf (st : Flight) : Bool × Option (List UInt8) :=
  (st.gotServerHelloDone, st.serverCert.map X509Cert.exponent)

/-- A turn of the loop that receives a record with complete messages. -/
theorem flightLoop_holding {prims : Primitives} {clientRandom payload : List UInt8}
    {hlen : payload.length ≤ tlsMaxRecordCiphertext} {records : List Record} {buf : List UInt8}
    {st st' : Flight} {msgs : List (List UInt8)} (hdone : ¬ st.gotServerHelloDone = true)
    (hroom : payload.length ≤ flightSize) (hdata : payload = msgs.flatten)
    (hmsgs : ∀ m ∈ msgs, IsMessage m)
    (hrun : handleMessages prims clientRandom
      (views (FlightBuf.append ⟨buf, 0⟩ payload).buf msgs) st =
      .ok st') :
    flightLoop prims clientRandom []
      (holding (handshakeRecord payload hlen :: records)) ⟨buf, 0⟩ st =
      flightLoop prims clientRandom [] (holding records)
        ((FlightBuf.append ⟨buf, 0⟩ payload).shift msgs.flatten.length) st' := by
  have hrecv : tlsRecvRecord flightSize false []
      (holding (handshakeRecord payload hlen :: records)) =
        (.record tlsContentHandshake payload, [], holding records) :=
    @tlsRecvRecord_complete flightSize [] (holding (handshakeRecord payload hlen :: records))
      (handshakeRecord payload hlen) (encodeAll records) rfl hroom
  rw [flightLoop_turn hdone hrecv (.empty buf) (by rwa [Nat.zero_add])
    (by rw [List.nil_append, List.append_nil, hdata]) hmsgs incomplete_nil, hrun]

/-- In one record, the next message is behind the certificate. -/
theorem openKey_together : ∃ st, (flightLoop parserPrimitives [] []
    (holding [handshakeRecord openKeyFlight.flatten (by decide)]) ⟨List.replicate flightSize 0, 0⟩
      (Flight.start [])).1 = .ok st ∧ exponentOf st = (true, some [14]) := by
  obtain ⟨st, hrun, hst⟩ := @exists_of_toOption _ _ _
    (handleMessages parserPrimitives []
      (views (FlightBuf.append ⟨List.replicate flightSize 0, 0⟩ openKeyFlight.flatten).buf
        openKeyFlight)
      (Flight.start [])) exponentOf (true, some [14]) (by decide)
  refine ⟨st, ?_, hst⟩
  rw [flightLoop_holding (start_not_done []) (by decide) rfl (by decide) hrun,
    flightLoop_done (congrArg Prod.fst hst)]

/-- In a record of its own, the old contents of the buffer are. -/
theorem openKey_apart : ∃ st, (flightLoop parserPrimitives [] []
    (holding [handshakeRecord (certificateMessage openKeyDer) (by decide),
      handshakeRecord serverHelloDone (by decide)]) ⟨List.replicate flightSize 0, 0⟩
      (Flight.start [])).1 = .ok st ∧ exponentOf st = (true, some []) := by
  obtain ⟨mid, hmid, hcert⟩ := @exists_of_toOption _ _ _
    (handleMessages parserPrimitives []
      (views (FlightBuf.append ⟨List.replicate flightSize 0, 0⟩ (certificateMessage openKeyDer)).buf
        [certificateMessage openKeyDer]) (Flight.start [])) exponentOf (false, some [])
    (by decide)
  rw [flightLoop_holding (start_not_done []) (by decide) (List.flatten_singleton).symm
    (by decide) hmid]
  obtain ⟨hnot, hexponent⟩ := Prod.mk.inj hcert
  generalize hfb :
    (FlightBuf.append ⟨List.replicate flightSize 0, 0⟩ (certificateMessage openKeyDer)).shift
    [certificateMessage openKeyDer].flatten.length = fb
  have hempty : fb.len = 0 := by
    rw [← hfb]
    decide
  obtain ⟨buf, len⟩ := fb
  obtain rfl : len = 0 := hempty
  -- the end of the flight changes nothing else
  obtain ⟨st, hrun, hst⟩ : ∃ st, handleMessages parserPrimitives []
      (views (FlightBuf.append ⟨buf, 0⟩ serverHelloDone).buf [serverHelloDone]) mid = .ok st ∧
        exponentOf st = (true, some []) := by
    refine ⟨{ mid.transcriptAppend serverHelloDone with gotServerHelloDone := true }, rfl, ?_⟩
    obtain ⟨-, hkept, -, -⟩ := transcriptAppend_keeps mid serverHelloDone
    rw [exponentOf, hkept, hexponent]
  rw [flightLoop_holding (by rw [hnot]; exact Bool.false_ne_true) (by decide)
    (List.flatten_singleton).symm (by decide) hrun]
  exact ⟨st, by rw [flightLoop_done (congrArg Prod.fst hst)], hst⟩

/-- The key of a certificate depends on the records. -/
theorem openKey_framings_differ :
    ¬ ∀ (clientRandom hello : List UInt8) (polls₁ polls₂ polls₁' polls₂' : List Poll)
      (tls₁ tls₂ tls₁' tls₂' : TlsConn) (records₁ records₂ : List (UInt8 × List UInt8))
      (init : List (List UInt8)) (last buf : List UInt8),
      Received polls₁ tls₁ records₁ polls₁' tls₁' → Received polls₂ tls₂ records₂ polls₂' tls₂' →
      (∀ r ∈ records₁, r.1 = tlsContentHandshake) → (∀ r ∈ records₂, r.1 = tlsContentHandshake) →
      handshakeBytes records₁ = (init ++ [last]).flatten →
      handshakeBytes records₂ = (init ++ [last]).flatten →
      (∀ m ∈ init ++ [last], IsMessage m) → (∀ m ∈ init, ¬ IsServerHelloDone m) →
      IsServerHelloDone last →
      (flightLoop parserPrimitives clientRandom polls₁ tls₁ ⟨buf, 0⟩ (Flight.start hello)).1 ≠
        tooLarge →
      (flightLoop parserPrimitives clientRandom polls₂ tls₂ ⟨buf, 0⟩ (Flight.start hello)).1 ≠
        tooLarge →
      (flightLoop parserPrimitives clientRandom polls₁ tls₁ ⟨buf, 0⟩ (Flight.start hello)).1 =
        (flightLoop parserPrimitives clientRandom polls₂ tls₂ ⟨buf, 0⟩ (Flight.start hello)).1 := by
  intro h
  obtain ⟨st₁, hrun₁, hexponent₁⟩ := openKey_together
  obtain ⟨st₂, hrun₂, hexponent₂⟩ := openKey_apart
  have hsame := h [] [] [] [] [] [] _ _ _ _ _ _ [certificateMessage openKeyDer] serverHelloDone
    (List.replicate flightSize 0)
    (@received_holding [handshakeRecord openKeyFlight.flatten (by decide)] (by decide))
    (@received_holding [handshakeRecord (certificateMessage openKeyDer) (by decide),
      handshakeRecord serverHelloDone (by decide)] (by decide))
    (by decide) (by decide) (by decide) (by decide) (by decide) (by decide)
    (by decide) (by rw [hrun₁]; simp [tooLarge]) (by rw [hrun₂]; simp [tooLarge])
  rw [hrun₁, hrun₂] at hsame
  obtain rfl : st₁ = st₂ := by simpa using hsame
  rw [hexponent₁] at hexponent₂
  exact absurd hexponent₂ (by decide)

end Runs

end AuroraOS.Tls
