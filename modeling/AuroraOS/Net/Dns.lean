import AuroraOS.Lib.Ascii
import AuroraOS.Lib.CString
import AuroraOS.Lib.Scan
import AuroraOS.Net.Tcp

/-!
# The DNS client

The resolver of `kernel/net.c`: names in the wire format, and the walk over the records of a reply.
A read outside the received packet fails.

## Main definitions

- `dnsEncodeName`, `dnsSkipName`
- `dnsHandleReply` — what is made of a received frame
- `netResolveHostname`

## Main results

- `dnsEncodeName_exact_iff`
- `netResolveHostname_reply_iff`, `dnsHandleReply_total`
-/

namespace AuroraOS.Net

set_option maxRecDepth 4096

open Lib

section Names

/-- `dns_encode_name` from a character on, with what is written and the label in front of it; the
    length that is returned, 0 for a label of more than 63 bytes. -/
def dnsEncodeFrom : List UInt8 → List UInt8 → List UInt8 → ℕ × List UInt8
  | [], out, label =>
    if label.length > 63 then (0, out)
    else
      let out := out ++ UInt8.ofNat label.length :: label ++ [0]
      (out.length, out)
  | c :: hostname, out, label =>
    if c = ascii '.' then
      if label.length > 63 then (0, out)
      else dnsEncodeFrom hostname (out ++ UInt8.ofNat label.length :: label) []
    else dnsEncodeFrom hostname out (label ++ [c])

/-- `dns_encode_name`: the length and what is written. -/
def dnsEncodeName (hostname : List UInt8) : ℕ × List UInt8 := dnsEncodeFrom (cString hostname) [] []

/-- `dns_skip_name`. -/
def dnsSkipName (packet : List UInt8) : ℕ → ℕ → Option ℕ
  | 0, _ => none
  | fuel + 1, pos =>
    if pos < packet.length then do
      let lenByte ← packet[pos]?
      if lenByte &&& 0xc0 = 0xc0 then some (pos + 2)
      else if lenByte = 0 then some (pos + 1)
      else dnsSkipName packet fuel (pos + 1 + lenByte.toNat)
    else some pos

end Names

section Replies

/-- `DNS_TYPE_A`. -/
def dnsTypeA : ℕ := 1

/-- Where the DNS packet starts in a frame. -/
def dnsOffset : ℕ := ethHeaderSize + 20 + 8

/-- The size of `struct dns_header`. -/
def dnsHeaderSize : ℕ := 12

/-- What is made of a frame: it is not a reply to the query, or it ends the lookup with an error or
    an address. -/
inductive DnsOutcome where
  | ignored
  | failed (error : String)
  | resolved (ip : List UInt8)
deriving DecidableEq

/-- A 16-bit number in network byte order. -/
def word16 (packet : List UInt8) (i : ℕ) : Option ℕ := do
  let hi ← packet[i]?
  let lo ← packet[i + 1]?
  some (hi.toNat * 256 + lo.toNat)

/-- The loop over the answer records, with `n` of them left. -/
def dnsWalk (packet : List UInt8) (fuel : ℕ) : ℕ → ℕ → Option DnsOutcome
  | 0, _ => some (.failed "DNS response contained no usable A record.")
  | n + 1, pos =>
    if pos < packet.length then do
      let pos ← dnsSkipName packet fuel pos
      if pos + 10 > packet.length then
        some (.failed "DNS response contained no usable A record.")
      else do
        let rtype ← word16 packet pos
        let rdlength ← word16 packet (pos + 8)
        let rdataPos := pos + 10
        if rtype = dnsTypeA ∧ rdlength = 4 ∧ rdataPos + 4 ≤ packet.length then
          some (.resolved ((packet.drop rdataPos).take 4))
        else dnsWalk packet fuel n (rdataPos + rdlength)
    else some (.failed "DNS response contained no usable A record.")

/-- The body of the loop of `net_resolve_hostname` behind the check of the ports. -/
def dnsHandlePacket (queryId fuel : ℕ) (packet : List UInt8) : Option DnsOutcome :=
  if packet.length < dnsHeaderSize then some .ignored
  else do
    let id ← word16 packet 0
    if id ≠ queryId then some .ignored
    else do
      let flags ← word16 packet 2
      if flags / 0x8000 % 2 = 0 then some .ignored
      else do
        let rcode := flags % 16
        let ancount ← word16 packet 6
        if rcode ≠ 0 then
          if rcode = 3 then some (.failed "DNS: no such domain (NXDOMAIN).")
          else some (.failed "DNS query failed (server returned an error).")
        else if ancount = 0 then
          some (.failed "DNS: no address record found for this hostname.")
        else do
          let pos ← dnsSkipName packet fuel dnsHeaderSize
          dnsWalk packet fuel ancount (pos + 4)

/-- The body of the loop of `net_resolve_hostname`, with the received bytes. -/
def dnsHandleReply (srcPort queryId fuel : ℕ) (frame : List UInt8) : Option DnsOutcome :=
  if frame.length < ethHeaderSize + 20 + 8 then some .ignored
  else do
    let ethertype ← word16 frame 12
    if ethertype ≠ ethertypeIpv4 then some .ignored
    else do
      let protocol ← frame[ethHeaderSize + 9]?
      if protocol ≠ ipProtoUdp then some .ignored
      else do
        let destPort ← word16 frame (ethHeaderSize + 20 + 2)
        if destPort ≠ srcPort then some .ignored
        else dnsHandlePacket queryId fuel (frame.drop dnsOffset)

/-- The loop of `net_resolve_hostname`. -/
def dnsWaitReply (srcPort queryId : ℕ) (deadline : UInt32) (fuel : ℕ) :
    List Poll → Option DnsOutcome
  | [] => some (.failed "DNS query timed out.")
  | p :: polls =>
    if p.ticks < deadline then do
      let outcome ← dnsHandleReply srcPort queryId fuel (p.frame.take rxBufSize)
      if outcome = .ignored then dnsWaitReply srcPort queryId deadline fuel polls
      else some outcome
    else some (.failed "DNS query timed out.")

/-- `DNS_TIMEOUT_TICKS`. -/
def dnsTimeoutTicks : UInt32 := 300

/-- The size of `query`. -/
def dnsQuerySize : ℕ := 512

/-- What `net_resolve_hostname` sees of the rest of the system before it waits: the lease, whether
    the address of the server's network card was found and the query sent, and the clock. -/
structure DnsEnv where
  haveLease : Bool
  macFound : Bool
  queryTicks : UInt32
  portTicks : UInt32
  sent : List UInt8 → ℕ → Bool
  waitTicks : UInt32

/-- `query_id`. -/
def DnsEnv.queryId (env : DnsEnv) : ℕ := env.queryTicks.toNat % 65536

/-- `src_port`. -/
def DnsEnv.srcPort (env : DnsEnv) : ℕ := 49152 + env.portTicks.toNat % 16384

/-- `deadline`, which wraps around. -/
def DnsEnv.deadline (env : DnsEnv) : UInt32 := env.waitTicks + dnsTimeoutTicks

/-- The query for an encoded name. -/
def dnsQuery (queryId : ℕ) (name : List UInt8) : List UInt8 :=
  [UInt8.ofNat (queryId / 256), UInt8.ofNat queryId, 0x01, 0x00, 0, 1, 0, 0, 0, 0, 0, 0] ++ name ++
    [0x00, 1, 0x00, 1]

/-- `net_resolve_hostname`, `none` where an access leaves a buffer. -/
def netResolveHostname (env : DnsEnv) (hostname : List UInt8) (fuel : ℕ) (polls : List Poll) :
    Option DnsOutcome :=
  if !env.haveLease then
    some (.failed "Not connected (no DHCP lease) - run netconnect first.")
  else if !env.macFound then
    some (.failed "Could not resolve the DNS server's MAC address (ARP failed).")
  else
    let (nameLen, name) := dnsEncodeName hostname
    if dnsHeaderSize + name.length > dnsQuerySize then none
    else if nameLen = 0 then some (.failed "Hostname has a label longer than 63 characters.")
    else if dnsHeaderSize + nameLen + 4 > dnsQuerySize then none
    else if !env.sent (dnsQuery env.queryId name) env.srcPort then
      some (.failed "Failed to send DNS query.")
    else dnsWaitReply env.srcPort env.queryId env.deadline fuel polls

end Replies

section Wire

/-- A name in the wire format: labels, ended by the root or by a compression pointer. -/
inductive IsDnsName : List UInt8 → Prop where
  | root : IsDnsName [0]
  | pointer {hi : UInt8} (lo : UInt8) (h : 0xc0 ≤ hi) : IsDnsName [hi, lo]
  | label {l name : List UInt8} (hpos : 1 ≤ l.length) (hle : l.length ≤ 63) (h : IsDnsName name) :
    IsDnsName (UInt8.ofNat l.length :: l ++ name)

/-- The components of a hostname. -/
def dnsLabels (hostname : List UInt8) : List (List UInt8) := (cString hostname).splitOn (ascii '.')

/-- Labels with their lengths, and the root. -/
def dnsWire (labels : List (List UInt8)) : List UInt8 :=
  labels.flatMap (fun l => UInt8.ofNat l.length :: l) ++ [0]

/-- The encoding of a hostname by its components, which is skipped as a whole. -/
structure EncodesName (hostname : List UInt8) (n : ℕ) (enc : List UInt8) : Prop where
  length_eq : enc.length = n
  labels : enc = dnsWire (dnsLabels hostname) ∧ ∀ l ∈ dnsLabels hostname, 1 ≤ l.length ∧
    l.length ≤ 63
  terminated : enc[n - 1]? = some 0 ∧ ∀ i < n - 1, enc[i]? ≠ some 0
  skipped : ∀ fuel > n, dnsSkipName enc fuel 0 = some n

variable {packet name rest label hostname out : List UInt8} {pos fuel : ℕ}

theorem and_pointer {b : UInt8} : b &&& 0xc0 = 0xc0 ↔ 0xc0 ≤ b := by
  have hall : ∀ b : Fin 256, UInt8.ofFin b &&& 0xc0 = 0xc0 ↔ 0xc0 ≤ UInt8.ofFin b := by
    decide
  exact hall b.toFin

theorem toNat_label (hle : label.length ≤ 63) :
    (UInt8.ofNat label.length).toNat = label.length := by
  rw [UInt8.toNat_ofNat']
  omega

/-- The length of a label is not the root. -/
theorem label_ne_zero (hpos : 1 ≤ label.length) (hle : label.length ≤ 63) :
    UInt8.ofNat label.length ≠ 0 := fun h => by
  have hlen := congrArg UInt8.toNat h
  rw [toNat_label hle] at hlen
  exact absurd hlen (Nat.ne_of_gt hpos)

/-- A name is skipped as a whole. -/
theorem IsDnsName.skip (h : IsDnsName name) (hb : Between packet pos packet.length (name ++ rest))
    (hfuel : name.length < fuel) : dnsSkipName packet fuel pos = some (pos + name.length) := by
  induction h generalizing pos fuel with
  | root =>
    obtain ⟨fuel, rfl⟩ : ∃ k, fuel = k + 1 := ⟨fuel - 1, by omega⟩
    rw [dnsSkipName, if_pos hb.lt, hb.uncons.1]
    rfl
  | pointer lo hhi =>
    obtain ⟨fuel, rfl⟩ : ∃ k, fuel = k + 1 := ⟨fuel - 1, by omega⟩
    rw [dnsSkipName, if_pos hb.lt, hb.uncons.1, Option.bind_eq_bind, Option.bind_some,
      if_pos (and_pointer.mpr hhi)]
    rfl
  | @label l name hpos hle hname ih =>
    obtain ⟨fuel, rfl⟩ : ∃ k, fuel = k + 1 := ⟨fuel - 1, by omega⟩
    have hnat := toNat_label hle
    have hb' :
      Between packet pos packet.length (UInt8.ofNat l.length :: (l ++ (name ++ rest))) := by
      rwa [List.cons_append, List.cons_append, List.append_assoc] at hb
    have hptr : ¬UInt8.ofNat l.length &&& 0xc0 = 0xc0 := by
      rw [and_pointer, UInt8.le_iff_toNat_le, hnat]
      exact fun h => absurd (h.trans hle) (by decide)
    rw [dnsSkipName, if_pos hb'.lt, hb'.uncons.1, Option.bind_eq_bind, Option.bind_some,
      if_neg hptr, if_neg (label_ne_zero hpos hle), hnat]
    rw [List.length_append, List.length_cons] at hfuel
    rw [ih hb'.uncons.2.split.2 (by omega), List.length_append, List.length_cons]
    congr 1
    omega

theorem isDnsName_wire {labels : List (List UInt8)}
    (h : ∀ l ∈ labels, 1 ≤ l.length ∧ l.length ≤ 63) : IsDnsName (dnsWire labels) := by
  induction labels with
  | nil => exact .root
  | cons l labels ih =>
    obtain ⟨hpos, hle⟩ := h l List.mem_cons_self
    have hwire : dnsWire (l :: labels) = UInt8.ofNat l.length :: l ++ dnsWire labels := by
      rw [dnsWire, List.flatMap_cons, List.append_assoc]
      rfl
    exact hwire ▸ .label hpos hle (ih fun l' hl' => h l' (List.mem_cons_of_mem l hl'))

end Wire

section Encoding

variable {hostname label out : List UInt8}

/-- What is left of the hostname is encoded by its components, behind what has been written. -/
theorem dnsEncodeFrom_eq (hostname out label : List UInt8) (hdot : ascii '.' ∉ label) :
    (∀ l ∈ (label ++ hostname).splitOn (ascii '.'), l.length ≤ 63) ∧
        dnsEncodeFrom hostname out label =
          ((out ++ dnsWire ((label ++ hostname).splitOn (ascii '.'))).length,
            out ++ dnsWire ((label ++ hostname).splitOn (ascii '.'))) ∨
      (dnsEncodeFrom hostname out label).1 = 0 := by
  induction hostname generalizing out label with
  | nil =>
    rw [dnsEncodeFrom, List.append_nil, List.splitOn_eq_singleton hdot]
    split_ifs with hlong
    · exact Or.inr rfl
    · refine Or.inl ⟨fun l hl => ?_, ?_⟩
      · rw [List.mem_singleton.mp hl]
        omega
      · rw [dnsWire, List.flatMap_singleton, List.append_assoc]
  | cons c hostname ih =>
    rw [dnsEncodeFrom]
    split_ifs with hc hlong
    · exact Or.inr rfl
    · subst hc
      rw [List.splitOn_append_cons_self_of_not_mem hdot]
      obtain ⟨hle, heq⟩ | hzero := ih (out ++ UInt8.ofNat label.length :: label) []
        List.not_mem_nil
      · have hwire : ∀ labels, dnsWire (label :: labels) =
            UInt8.ofNat label.length :: label ++ dnsWire labels := fun labels => by
          rw [dnsWire, List.flatMap_cons, List.append_assoc]
          rfl
        refine Or.inl ⟨fun l hl => ?_, ?_⟩
        · obtain rfl | hl := List.mem_cons.mp hl
          · omega
          · exact hle l hl
        · rw [heq, hwire, List.append_assoc, List.nil_append]
      · exact Or.inr hzero
    · have hdot' : ascii '.' ∉ label ++ [c] := fun hmem => by
        obtain hmem | hmem := List.mem_append.mp hmem
        · exact hdot hmem
        · exact hc (List.mem_singleton.mp hmem).symm
      have happ : label ++ c :: hostname = label ++ [c] ++ hostname := by
        rw [List.append_assoc, List.singleton_append]
      rw [happ]
      exact ih out (label ++ [c]) hdot'

/-- An encoding consists of the components. -/
theorem dnsEncodeName_of_ne_zero (h : (dnsEncodeName hostname).1 ≠ 0) :
    (∀ l ∈ dnsLabels hostname, l.length ≤ 63) ∧
      dnsEncodeName hostname =
        ((dnsWire (dnsLabels hostname)).length, dnsWire (dnsLabels hostname)) := by
  obtain hsome | hzero := dnsEncodeFrom_eq (cString hostname) [] [] List.not_mem_nil
  · exact hsome
  · exact absurd hzero h

theorem mem_of_mem_splitOn {a c : UInt8} {l : List UInt8} (s : List UInt8)
    (hl : l ∈ s.splitOn a) (hc : c ∈ l) : c ∈ s := by
  induction s generalizing l with
  | nil =>
    rw [List.splitOn_nil, List.mem_singleton] at hl
    exact absurd (hl ▸ hc) List.not_mem_nil
  | cons b s ih =>
    rw [List.splitOn_cons_eq_if_modifyHead] at hl
    split_ifs at hl with hb
    · obtain rfl | hl := List.mem_cons.mp hl
      · exact absurd hc List.not_mem_nil
      · exact List.mem_cons_of_mem b (ih hl hc)
    · cases hsplit : s.splitOn a with
      | nil => exact absurd hsplit (List.splitOn_ne_nil _ _)
      | cons l₀ ls =>
        rw [hsplit, List.modifyHead_cons] at hl
        obtain rfl | hl := List.mem_cons.mp hl
        · obtain rfl | hc := List.mem_cons.mp hc
          · exact List.mem_cons_self
          · exact List.mem_cons_of_mem b (ih (hsplit ▸ List.mem_cons_self) hc)
        · exact List.mem_cons_of_mem b (ih (hsplit ▸ List.mem_cons_of_mem l₀ hl) hc)

theorem encodesName_of_labels (hpos : ∀ l ∈ dnsLabels hostname, l ≠ [])
    (hle : ∀ l ∈ dnsLabels hostname, l.length ≤ 63) :
    EncodesName hostname (dnsWire (dnsLabels hostname)).length (dnsWire (dnsLabels hostname)) := by
  have hbounds : ∀ l ∈ dnsLabels hostname, 1 ≤ l.length ∧ l.length ≤ 63 := fun l hl =>
    ⟨List.length_pos_iff.mpr (hpos l hl), hle l hl⟩
  have hnonzero : ∀ c ∈ (dnsLabels hostname).flatMap fun l => UInt8.ofNat l.length :: l, c ≠ 0 := by
    intro c hc
    obtain ⟨l, hl, hc⟩ := List.mem_flatMap.mp hc
    obtain rfl | hc := List.mem_cons.mp hc
    · exact label_ne_zero (hbounds l hl).1 (hbounds l hl).2
    · exact fun hzero => zero_notMem_cString hostname (hzero ▸ mem_of_mem_splitOn _ hl hc)
  refine ⟨rfl, ⟨rfl, hbounds⟩, ?_, fun fuel hfuel => ?_⟩
  · rw [dnsWire, List.length_append, List.length_singleton, Nat.add_sub_cancel]
    refine ⟨List.getElem?_concat_length, fun i hi hzero => ?_⟩
    rw [List.getElem?_append_left hi] at hzero
    exact hnonzero 0 (List.mem_of_getElem? hzero) rfl
  · have hwhole : Between (dnsWire (dnsLabels hostname)) 0 (dnsWire (dnsLabels hostname)).length
        (dnsWire (dnsLabels hostname) ++ []) := by
      rw [List.append_nil]
      exact .whole _
    have hskip := (isDnsName_wire hbounds).skip hwhole hfuel
    rwa [Nat.zero_add] at hskip

end Encoding

/-- An encoded name is the sequence of the components of the hostname, and is skipped as a whole, if
    and only if no component is empty. -/
theorem dnsEncodeName_exact_iff {hostname : List UInt8} (h : (dnsEncodeName hostname).1 ≠ 0) :
    EncodesName hostname (dnsEncodeName hostname).1 (dnsEncodeName hostname).2 ↔
      ∀ l ∈ dnsLabels hostname, l ≠ [] := by
  obtain ⟨hle, heq⟩ := dnsEncodeName_of_ne_zero h
  rw [heq]
  constructor
  · rintro ⟨-, ⟨-, hbounds⟩, -, -⟩ l hl
    exact List.length_pos_iff.mp (hbounds l hl).1
  · exact fun hpos => encodesName_of_labels hpos hle

theorem dnsEncodeName_exact_iff_dotted :
    EncodesName (chars "a.b") (dnsEncodeName (chars "a.b")).1 (dnsEncodeName (chars "a.b")).2 ↔
      ∀ l ∈ dnsLabels (chars "a.b"), l ≠ [] :=
  dnsEncodeName_exact_iff (by decide)

/-- With a dot at the end the name is skipped up to the first of two zeros. -/
theorem dnsEncodeName_trailing_dot :
    ¬∀ hostname, (dnsEncodeName hostname).1 ≠ 0 →
      EncodesName hostname (dnsEncodeName hostname).1 (dnsEncodeName hostname).2 := by
  intro hall
  have henc := hall (chars "a.") (by decide)
  exact absurd (henc.skipped 5 (by decide)) (by decide)

section Responses

/-- A resource record, with its owner name as it is written. -/
structure DnsRecord where
  name : List UInt8
  isName : IsDnsName name
  rtype : ℕ
  rclass : ℕ
  ttl : List UInt8
  data : List UInt8
  rtype_lt : rtype < 65536
  length_ttl : ttl.length = 4
  length_data_lt : data.length < 65536

/-- A record on the wire. -/
def DnsRecord.bytes (r : DnsRecord) : List UInt8 :=
  r.name ++ (bytes16 r.rtype ++ (bytes16 r.rclass ++ (r.ttl ++ (bytes16 r.data.length ++ r.data))))

/-- A type-A record with 4-byte data. -/
def DnsRecord.IsAddress (r : DnsRecord) : Bool := r.rtype == dnsTypeA && r.data.length == 4

/-- A response: the header, one question, the answers and whatever is behind them. -/
structure DnsResponse where
  flags : ℕ
  nscount : ℕ
  arcount : ℕ
  question : List UInt8
  isName : IsDnsName question
  qtype : ℕ
  qclass : ℕ
  answers : List DnsRecord
  rest : List UInt8
  response : flags / 0x8000 % 2 = 1
  noError : flags % 16 = 0
  flags_lt : flags < 65536
  ancount_lt : answers.length < 65536

/-- A response on the wire. -/
def DnsResponse.bytes (r : DnsResponse) (queryId : ℕ) : List UInt8 :=
  bytes16 queryId ++ (bytes16 r.flags ++ (bytes16 1 ++ (bytes16 r.answers.length ++
    (bytes16 r.nscount ++ (bytes16 r.arcount ++ (r.question ++ (bytes16 r.qtype ++
      (bytes16 r.qclass ++ (r.answers.flatMap DnsRecord.bytes ++ r.rest)))))))))

/-- The address of the first type-A record with 4-byte data, or that there is none. -/
def DnsResponse.outcome (r : DnsResponse) : DnsOutcome :=
  match r.answers.find? DnsRecord.IsAddress with
  | some a => .resolved a.data
  | none =>
    .failed (if r.answers = [] then "DNS: no address record found for this hostname."
      else "DNS response contained no usable A record.")

/-- A frame that carries a DNS packet to a port, within the receive buffer. -/
structure CarriesDns (srcPort : ℕ) (packet frame : List UInt8) : Prop where
  length_ge : dnsOffset ≤ frame.length
  length_le : frame.length ≤ rxBufSize
  ethertype : word16 frame 12 = some ethertypeIpv4
  protocol : frame[ethHeaderSize + 9]? = some ipProtoUdp
  destPort : word16 frame (ethHeaderSize + 20 + 2) = some srcPort
  packet_eq : frame.drop dnsOffset = packet

variable {packet rest : List UInt8} {pos fuel n : ℕ}

theorem Between.word16_eq {e : ℕ} (hn : n < 65536) (hb : Between packet pos e (bytes16 n ++ rest)) :
    word16 packet pos = some n ∧ Between packet (pos + 2) e rest := by
  have hfirst := hb.uncons
  have hsecond := hfirst.2.uncons
  refine ⟨?_, hsecond.2⟩
  rw [word16, hfirst.1, Option.bind_eq_bind, Option.bind_some, hsecond.1, Option.bind_some,
    UInt8.toNat_ofNat', UInt8.toNat_ofNat']
  congr 1
  omega

/-- The walk stands at the start of a record and moves to the next one, or ends with its data. -/
theorem dnsWalk_record {r : DnsRecord} (hfuel : packet.length < fuel)
    (hb : Between packet pos packet.length (r.bytes ++ rest)) :
    Between packet (pos + r.bytes.length) packet.length rest ∧
      dnsWalk packet fuel (n + 1) pos =
        if r.IsAddress then some (.resolved r.data)
        else dnsWalk packet fuel n (pos + r.bytes.length) := by
  have hlen := hb.length_eq
  have hbytes : r.bytes.length = r.name.length + 10 + r.data.length := by
    simp only [DnsRecord.bytes, List.length_append, length_bytes16, r.length_ttl]
    omega
  refine ⟨hb.split.2, ?_⟩
  rw [List.length_append, hbytes] at hlen
  rw [DnsRecord.bytes, List.append_assoc] at hb
  have hskip := r.isName.skip hb (show r.name.length < fuel by omega)
  have hfields := hb.split.2
  simp only [List.append_assoc] at hfields
  obtain ⟨htype, hclass⟩ := Between.word16_eq r.rtype_lt hfields
  have hlength := hclass.split.2.split.2
  rw [length_bytes16, r.length_ttl] at hlength
  obtain ⟨hrdlength, hdata⟩ := Between.word16_eq r.length_data_lt hlength
  have hrdata : pos + r.name.length + 2 + 2 + 4 + 2 = pos + r.name.length + 10 := rfl
  rw [hrdata] at hdata
  rw [dnsWalk, if_pos (by omega), hskip, Option.bind_eq_bind, Option.bind_some, if_neg (by omega),
    htype, Option.bind_some,
    show pos + r.name.length + 8 = pos + r.name.length + 2 + 2 + 4 from rfl, hrdlength,
    Option.bind_some]
  have haddress : (r.rtype = dnsTypeA ∧ r.data.length = 4 ∧
      pos + r.name.length + 10 + 4 ≤ packet.length) ↔ r.IsAddress = true := by
    rw [DnsRecord.IsAddress, Bool.and_eq_true, beq_iff_eq, beq_iff_eq]
    constructor
    · exact fun h => ⟨h.1, h.2.1⟩
    · exact fun h => ⟨h.1, h.2, by omega⟩
  by_cases ha : r.IsAddress = true
  · rw [if_pos ha, if_pos (haddress.mpr ha)]
    have hslice := hdata.slice
    rw [(haddress.mpr ha).2.1] at hslice
    rw [hslice]
  · rw [if_neg ha, if_neg (haddress.not.mpr ha), hbytes, ← Nat.add_assoc, ← Nat.add_assoc]

/-- The walk finds the first address. -/
theorem dnsWalk_answers (answers : List DnsRecord) (hfuel : packet.length < fuel)
    (hb : Between packet pos packet.length (answers.flatMap DnsRecord.bytes ++ rest)) :
    dnsWalk packet fuel answers.length pos =
      some (match answers.find? DnsRecord.IsAddress with
        | some a => .resolved a.data
        | none => .failed "DNS response contained no usable A record.") := by
  induction answers generalizing pos with
  | nil => rfl
  | cons r answers ih =>
    rw [List.flatMap_cons, List.append_assoc] at hb
    obtain ⟨hnext, hstep⟩ := dnsWalk_record (n := answers.length) hfuel hb
    rw [List.length_cons, hstep, List.find?_cons]
    cases ha : r.IsAddress with
    | true => rfl
    | false => exact ih hnext

/-- A response to the query gives the outcome of its answers. -/
theorem dnsHandlePacket_response (r : DnsResponse) {queryId : ℕ} (hid : queryId < 65536)
    (hfuel : (r.bytes queryId).length < fuel) :
    dnsHandlePacket queryId fuel (r.bytes queryId) = some r.outcome := by
  have hflags := r.response
  have hb := Between.whole (r.bytes queryId)
  generalize hpacket : r.bytes queryId = packet at hb hfuel ⊢
  have hbytes := hpacket
  rw [DnsResponse.bytes] at hbytes
  nth_rewrite 3 [← hbytes] at hb
  -- the header
  obtain ⟨hword₀, hb⟩ := Between.word16_eq hid hb
  obtain ⟨hword₂, hb⟩ := Between.word16_eq r.flags_lt hb
  obtain ⟨hword₆, hb⟩ := Between.word16_eq r.ancount_lt hb.split.2
  have hquestion := hb.split.2.split.2
  simp only [length_bytes16, Nat.zero_add, Nat.reduceAdd] at hword₀ hword₂ hword₆ hquestion
  -- the question
  have hlen := hquestion.length_eq
  rw [List.length_append] at hlen
  have hskip := r.isName.skip hquestion (show r.question.length < fuel by omega)
  have hanswers := hquestion.split.2.split.2.split.2
  have hwalk := dnsWalk_answers r.answers hfuel hanswers
  rw [dnsHandlePacket, if_neg (by rw [dnsHeaderSize]; omega), hword₀, Option.bind_eq_bind,
    Option.bind_some, if_neg (not_not.mpr rfl), hword₂, Option.bind_some, if_neg (by omega), hword₆,
    Option.bind_some, if_neg (not_not.mpr r.noError)]
  rw [DnsResponse.outcome]
  by_cases hnil : r.answers = []
  · rw [if_pos (List.length_eq_zero_iff.mpr hnil), if_pos hnil, hnil, List.find?_nil]
  · rw [if_neg (List.length_eq_zero_iff.not.mpr hnil), if_neg hnil, dnsHeaderSize, hskip,
      Option.bind_some]
    exact hwalk

/-- A frame that carries a response to the query gives the outcome of its answers. -/
theorem dnsHandleReply_response (r : DnsResponse) {srcPort queryId : ℕ} {frame : List UInt8}
    (hid : queryId < 65536) (hframe : CarriesDns srcPort (r.bytes queryId) frame)
    (hfuel : rxBufSize < fuel) :
    dnsHandleReply srcPort queryId fuel frame = some r.outcome := by
  have hlen : (r.bytes queryId).length < fuel := by
    rw [← hframe.packet_eq, List.length_drop]
    have hle := hframe.length_le
    omega
  have hge : ¬frame.length < ethHeaderSize + 20 + 8 := Nat.not_lt.mpr hframe.length_ge
  rw [dnsHandleReply, if_neg hge, hframe.ethertype, Option.bind_eq_bind, Option.bind_some,
    if_neg (not_not.mpr rfl), hframe.protocol, Option.bind_eq_bind, Option.bind_some,
    if_neg (not_not.mpr rfl), hframe.destPort, Option.bind_some, if_neg (not_not.mpr rfl),
    hframe.packet_eq]
  exact dnsHandlePacket_response r hid hlen

end Responses

section Termination

variable {packet frame : List UInt8} {srcPort queryId fuel : ℕ}

theorem exists_getElem? (packet : List UInt8) (i : ℕ) (h : i < packet.length) :
    ∃ b, packet[i]? = some b :=
  ⟨packet[i], List.getElem?_eq_getElem h⟩

theorem exists_word16 (packet : List UInt8) (i : ℕ) (h : i + 1 < packet.length) :
    ∃ n, word16 packet i = some n := by
  obtain ⟨hi, hhi⟩ := exists_getElem? packet i (by omega)
  obtain ⟨lo, hlo⟩ := exists_getElem? packet (i + 1) h
  exact ⟨hi.toNat * 256 + lo.toNat, by rw [word16, hhi, Option.bind_eq_bind, Option.bind_some, hlo,
    Option.bind_some]⟩

theorem dnsSkipName_total (packet : List UInt8) (pos : ℕ) (h : packet.length - pos < fuel) :
    ∃ pos', dnsSkipName packet fuel pos = some pos' := by
  induction fuel generalizing pos with
  | zero => exact absurd h (Nat.not_lt_zero _)
  | succ fuel ih =>
    rw [dnsSkipName]
    split_ifs with hpos
    · obtain ⟨b, hb⟩ := exists_getElem? packet pos hpos
      rw [hb, Option.bind_eq_bind, Option.bind_some]
      split_ifs
      · exact ⟨_, rfl⟩
      · exact ⟨_, rfl⟩
      · exact ih _ (by omega)
    · exact ⟨_, rfl⟩

/-- The walk over any bytes ends, with every read in the packet. -/
theorem dnsWalk_total (n pos : ℕ) (hfuel : packet.length < fuel) :
    ∃ outcome, dnsWalk packet fuel n pos = some outcome := by
  induction n generalizing pos with
  | zero => exact ⟨_, rfl⟩
  | succ n ih =>
    rw [dnsWalk]
    split_ifs with hpos
    · obtain ⟨pos', hskip⟩ :=
        dnsSkipName_total packet pos (show packet.length - pos < fuel by omega)
      rw [hskip, Option.bind_eq_bind, Option.bind_some]
      split_ifs with hfields
      · exact ⟨_, rfl⟩
      · obtain ⟨rtype, htype⟩ := exists_word16 packet pos' (by omega)
        obtain ⟨rdlength, hlength⟩ := exists_word16 packet (pos' + 8) (by omega)
        rw [htype, Option.bind_some, hlength, Option.bind_some]
        dsimp only
        split_ifs
        · exact ⟨_, rfl⟩
        · exact ih _
    · exact ⟨_, rfl⟩

theorem dnsHandlePacket_total (queryId : ℕ) (hfuel : packet.length < fuel) :
    ∃ outcome, dnsHandlePacket queryId fuel packet = some outcome := by
  rw [dnsHandlePacket]
  split_ifs with hshort
  · exact ⟨_, rfl⟩
  · rw [dnsHeaderSize] at hshort
    obtain ⟨id, hid⟩ := exists_word16 packet 0 (by omega)
    obtain ⟨flags, hflags⟩ := exists_word16 packet 2 (by omega)
    obtain ⟨ancount, hancount⟩ := exists_word16 packet 6 (by omega)
    obtain ⟨pos, hskip⟩ := dnsSkipName_total packet dnsHeaderSize
      (show packet.length - dnsHeaderSize < fuel by omega)
    obtain ⟨outcome, hwalk⟩ := dnsWalk_total ancount (pos + 4) hfuel
    rw [hid, Option.bind_eq_bind, Option.bind_some, hflags, Option.bind_some, hancount,
      Option.bind_some, hskip, Option.bind_some, hwalk]
    split_ifs <;> exact ⟨_, rfl⟩

/-- Any received bytes are handled, with every read in them. -/
theorem dnsHandleReply_total (srcPort queryId : ℕ) (hfuel : frame.length < fuel) :
    ∃ outcome, dnsHandleReply srcPort queryId fuel frame = some outcome := by
  rw [dnsHandleReply]
  split_ifs with hshort
  · exact ⟨_, rfl⟩
  · rw [ethHeaderSize] at hshort
    obtain ⟨ethertype, hethertype⟩ := exists_word16 frame 12 (by omega)
    obtain ⟨protocol, hprotocol⟩ := exists_getElem? frame (ethHeaderSize + 9)
      (by rw [ethHeaderSize]; omega)
    obtain ⟨destPort, hport⟩ := exists_word16 frame (ethHeaderSize + 20 + 2)
      (by rw [ethHeaderSize]; omega)
    have hpacketLen : (frame.drop dnsOffset).length < fuel := by
      rw [List.length_drop]
      omega
    obtain ⟨outcome, hpacket⟩ := dnsHandlePacket_total queryId hpacketLen
    rw [hethertype, Option.bind_eq_bind, Option.bind_some, hprotocol, Option.bind_eq_bind,
      Option.bind_some, hport, Option.bind_some, hpacket]
    split_ifs <;> exact ⟨_, rfl⟩

theorem dnsWaitReply_total (deadline : UInt32) (polls : List Poll) (hfuel : rxBufSize < fuel) :
    ∃ outcome, dnsWaitReply srcPort queryId deadline fuel polls = some outcome := by
  induction polls with
  | nil => exact ⟨_, rfl⟩
  | cons p polls ih =>
    rw [dnsWaitReply]
    split_ifs
    · have hlen : (p.frame.take rxBufSize).length < fuel := by
        rw [List.length_take]
        omega
      obtain ⟨outcome, houtcome⟩ := dnsHandleReply_total srcPort queryId hlen
      rw [houtcome, Option.bind_eq_bind, Option.bind_some]
      split_ifs
      · exact ih
      · exact ⟨_, rfl⟩
    · exact ⟨_, rfl⟩

end Termination

section Lookup

/-- The lookup gets as far as waiting for the reply to its query. -/
structure SendsQuery (env : DnsEnv) (hostname : List UInt8) : Prop where
  haveLease : env.haveLease = true
  macFound : env.macFound = true
  encodes : (dnsEncodeName hostname).1 ≠ 0
  fits : dnsHeaderSize + (dnsEncodeName hostname).1 + 4 ≤ dnsQuerySize
  sent : env.sent (dnsQuery env.queryId (dnsEncodeName hostname).2) env.srcPort = true

/-- A frame that is passed over. -/
def IsUnrelated (env : DnsEnv) (p : Poll) : Prop :=
  ∀ fuel > rxBufSize,
    dnsHandleReply env.srcPort env.queryId fuel (p.frame.take rxBufSize) = some .ignored

variable {env : DnsEnv} {hostname : List UInt8} {fuel : ℕ} {polls : List Poll}

/-- Once the query is sent, the replies decide. -/
theorem SendsQuery.netResolveHostname_eq (h : SendsQuery env hostname) :
    netResolveHostname env hostname fuel polls =
      dnsWaitReply env.srcPort env.queryId env.deadline fuel polls := by
  have hlen : (dnsEncodeName hostname).2.length = (dnsEncodeName hostname).1 := by
    rw [(dnsEncodeName_of_ne_zero h.encodes).2]
  have hfits := h.fits
  rw [netResolveHostname, h.haveLease, h.macFound]
  dsimp only
  rw [hlen, h.sent, if_neg (by decide), if_neg (by decide), if_neg (by omega), if_neg h.encodes,
    if_neg (by omega), if_neg (by decide)]

/-- Frames that are passed over do not matter as long as there is time. -/
theorem dnsWaitReply_unrelated {before after : List Poll}
    (hbefore : ∀ p ∈ before, IsUnrelated env p)
    (hticks : ∀ p ∈ before, p.ticks < env.deadline) (hfuel : rxBufSize < fuel) :
    dnsWaitReply env.srcPort env.queryId env.deadline fuel (before ++ after) =
      dnsWaitReply env.srcPort env.queryId env.deadline fuel after := by
  induction before with
  | nil => rfl
  | cons p before ih =>
    obtain ⟨hignored, hbefore⟩ := List.forall_mem_cons.mp hbefore
    obtain ⟨hlt, hticks⟩ := List.forall_mem_cons.mp hticks
    rw [List.cons_append, dnsWaitReply, if_pos hlt, hignored fuel hfuel, Option.bind_eq_bind,
      Option.bind_some, if_pos rfl]
    exact ih hbefore hticks

/-- The first reading of the clock that is not below the deadline ends the lookup. -/
theorem dnsWaitReply_late {before after : List Poll} (hbefore : ∀ p ∈ before, IsUnrelated env p)
    (hfuel : rxBufSize < fuel) {p : Poll}
    (hlate : ¬∀ q ∈ before ++ [p], q.ticks < env.deadline) :
    dnsWaitReply env.srcPort env.queryId env.deadline fuel (before ++ p :: after) =
      some (.failed "DNS query timed out.") := by
  induction before with
  | nil =>
    rw [List.nil_append, List.forall_mem_singleton] at hlate
    rw [List.nil_append, dnsWaitReply, if_neg hlate]
  | cons q before ih =>
    obtain ⟨hignored, hbefore⟩ := List.forall_mem_cons.mp hbefore
    rw [List.cons_append, List.forall_mem_cons, not_and] at hlate
    rw [List.cons_append, dnsWaitReply]
    by_cases hlt : q.ticks < env.deadline
    · rw [if_pos hlt, hignored fuel hfuel, Option.bind_eq_bind, Option.bind_some, if_pos rfl]
      exact ih hbefore (hlate hlt)
    · rw [if_neg hlt]

theorem DnsResponse.outcome_ne_ignored (r : DnsResponse) : r.outcome ≠ .ignored := by
  rw [DnsResponse.outcome]
  split <;> exact DnsOutcome.noConfusion

theorem DnsResponse.outcome_ne_timeout (r : DnsResponse) :
    r.outcome ≠ .failed "DNS query timed out." := by
  rw [DnsResponse.outcome]
  split
  · exact DnsOutcome.noConfusion
  · split_ifs <;> decide

end Lookup

/-- A response gives the data of its first type-A answer with 4 bytes of data, or a failure if there
    is none, whatever other frames come before, if and only if every reading of the clock up to it
    is below the 32-bit sum of the clock at the start and the timeout; and the lookup ends for all
    received bytes, with every read in them. -/
theorem netResolveHostname_reply_iff {env : DnsEnv} {hostname : List UInt8} {fuel : ℕ}
    (h : SendsQuery env hostname) (hfuel : rxBufSize < fuel) :
    (∀ (r : DnsResponse) (before after : List Poll) (p : Poll),
      (∀ q ∈ before, IsUnrelated env q) → CarriesDns env.srcPort (r.bytes env.queryId) p.frame →
        (netResolveHostname env hostname fuel (before ++ p :: after) = some r.outcome ↔
          ∀ q ∈ before ++ [p], q.ticks < env.waitTicks + dnsTimeoutTicks)) ∧
      ∀ polls, ∃ outcome, netResolveHostname env hostname fuel polls = some outcome := by
  constructor
  · intro r before after p hbefore hframe
    have hid : env.queryId < 65536 := Nat.mod_lt _ (by decide)
    rw [h.netResolveHostname_eq]
    change _ ↔ ∀ q ∈ before ++ [p], q.ticks < env.deadline
    constructor
    · intro hrun
      by_contra hlate
      rw [dnsWaitReply_late hbefore hfuel hlate] at hrun
      exact r.outcome_ne_timeout (Option.some.inj hrun).symm
    · intro hticks
      obtain ⟨hticks, hlt⟩ := List.forall_mem_append.mp hticks
      rw [dnsWaitReply_unrelated hbefore hticks hfuel, dnsWaitReply,
        if_pos (hlt p (List.mem_singleton_self p)), List.take_of_length_le hframe.length_le,
        dnsHandleReply_response r hid hframe hfuel, Option.bind_eq_bind, Option.bind_some,
        if_neg r.outcome_ne_ignored]
  · intro polls
    rw [h.netResolveHostname_eq]
    exact dnsWaitReply_total env.deadline polls hfuel

/-- A query for `a` whose number is 7, with the clock at `ticks` when the waiting begins. -/
def aliasEnv (ticks : UInt32) : DnsEnv := ⟨true, true, 7, 0, fun _ _ => true, ticks⟩

theorem sendsQuery_aliasEnv (ticks : UInt32) : SendsQuery (aliasEnv ticks) (chars "a") where
  haveLease := rfl
  macFound := rfl
  encodes := by decide
  fits := by decide
  sent := rfl

/-- An alias and its address. -/
def aliasResponse : DnsResponse where
  flags := 0x8180
  nscount := 0
  arcount := 0
  question := [1, 97, 0]
  isName := .label (l := [97]) (by decide) (by decide) .root
  qtype := 1
  qclass := 1
  answers :=
    [{ name := [192, 12], isName := .pointer 12 (by decide), rtype := 5, rclass := 1
       ttl := [0, 0, 0, 9], data := [1, 98, 192, 12], rtype_lt := by decide, length_ttl := rfl
       length_data_lt := by decide },
     { name := [1, 98, 192, 12]
       isName := .label (l := [98]) (by decide) (by decide) (.pointer 12 (by decide))
       rtype := 1, rclass := 1, ttl := [0, 0, 0, 9], data := [10, 0, 2, 15]
       rtype_lt := by decide, length_ttl := rfl, length_data_lt := by decide }]
  rest := []
  response := by decide
  noError := by decide
  flags_lt := by decide
  ancount_lt := by decide

/-- The frame in which the name server answers. -/
def aliasFrame : List UInt8 :=
  List.replicate 12 0 ++ [8, 0] ++ List.replicate 9 0 ++ [17] ++ List.replicate 12 0 ++
    [192, 0, 0, 0, 0, 0] ++ aliasResponse.bytes 7

theorem carriesDns_aliasFrame (ticks : UInt32) :
    CarriesDns (aliasEnv ticks).srcPort (aliasResponse.bytes (aliasEnv ticks).queryId)
      aliasFrame where
  length_ge := by decide
  length_le := by decide
  ethertype := by decide
  protocol := by decide
  destPort := by rfl
  packet_eq := by rfl

/-- A name server that answers the query for `a` with an alias and its address, after another
    frame. -/
theorem netResolveHostname_reply_iff_alias :
    netResolveHostname (aliasEnv 0) (chars "a") 1601 [⟨0, []⟩, ⟨1, aliasFrame⟩] =
      some (.resolved [10, 0, 2, 15]) :=
  ((netResolveHostname_reply_iff (sendsQuery_aliasEnv 0) (by decide)).1 aliasResponse [⟨0, []⟩] []
    ⟨1, aliasFrame⟩ (List.forall_mem_singleton.mpr fun _ _ => rfl) (carriesDns_aliasFrame 0)).mpr
    (by decide)

/-- One tick before the clock wraps around the deadline is in the past: the answer is not looked
    at. -/
theorem netResolveHostname_wrapped :
    ¬∀ (env : DnsEnv) (hostname : List UInt8) (fuel : ℕ) (r : DnsResponse) (p : Poll)
      (after : List Poll), SendsQuery env hostname → rxBufSize < fuel → p.ticks = env.waitTicks →
        CarriesDns env.srcPort (r.bytes env.queryId) p.frame →
          netResolveHostname env hostname fuel (p :: after) = some r.outcome := by
  intro hall
  have hrun := hall (aliasEnv 4294967295) (chars "a") 1601 aliasResponse
    ⟨4294967295, aliasFrame⟩ [] (sendsQuery_aliasEnv _) (by decide) rfl (carriesDns_aliasFrame _)
  rw [(sendsQuery_aliasEnv _).netResolveHostname_eq, dnsWaitReply, if_neg (by decide)] at hrun
  exact aliasResponse.outcome_ne_timeout (Option.some.inj hrun).symm

end AuroraOS.Net
