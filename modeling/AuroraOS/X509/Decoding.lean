import AuroraOS.X509.Certificate
import AuroraOS.X509.Der

/-!
# Certificates as they are encoded

What `x509_parse_certificate` makes of a certificate in DER.

## Main definitions

- `Certificate`, `Certificate.encode`
- `Certificate.commonName` — the first common name of a type that is read

## Main results

- `x509ParseCertificate_encode`
-/

namespace AuroraOS.X509

open AuroraOS.Lib

/-- An attribute of the subject, with the contents of its elements. -/
structure Attribute where
  oid : List UInt8
  valueTag : UInt8
  value : List UInt8

structure RsaPublicKey where
  modulus : ℕ
  exponent : ℕ
  modulus_pos : 0 < modulus
  modulus_size : (beBytes modulus).length ≤ modulusSize
  exponent_pos : 0 < exponent
  exponent_size : (beBytes exponent).length ≤ exponentSize

/-- A certificate. Of an element that the parser skips, this is the content. -/
structure Certificate where
  version : Option (List UInt8)
  serialNumber : List UInt8
  signature : List UInt8
  issuer : List UInt8
  validity : List UInt8
  subject : List Attribute
  keyAlgorithm : List UInt8
  key : RsaPublicKey
  /-- the fields of the TBSCertificate behind the key, encoded -/
  extensions : List UInt8
  /-- the fields behind the TBSCertificate, encoded -/
  signatureValue : List UInt8

section Encode

/-- The content of a positive INTEGER; its first bit is the sign. -/
def derUnsigned (n : ℕ) : List UInt8 :=
  if 128 ≤ (beBytes n).headD 0 then 0 :: beBytes n else beBytes n

/-- A relative distinguished name with a single attribute. -/
def Attribute.encode (a : Attribute) : List UInt8 :=
  derTlv asn1Set (derTlv asn1Sequence (derTlv asn1Oid a.oid ++ derTlv a.valueTag a.value))

def RsaPublicKey.encode (k : RsaPublicKey) : List UInt8 :=
  derTlv asn1Sequence (derTlv asn1Integer (derUnsigned k.modulus) ++
    derTlv asn1Integer (derUnsigned k.exponent))

variable (cert : Certificate)

def Certificate.subjectPublicKeyInfo : List UInt8 :=
  derTlv asn1Sequence cert.keyAlgorithm ++ derTlv asn1BitString (0 :: cert.key.encode)

def Certificate.encodeVersion : List UInt8 :=
  match cert.version with
  | none => []
  | some v => derTlv versionTag v

def Certificate.tbsCertificate : List UInt8 :=
  cert.encodeVersion ++
    (derTlv asn1Integer cert.serialNumber ++ (derTlv asn1Sequence cert.signature ++
    (derTlv asn1Sequence cert.issuer ++ (derTlv asn1Sequence cert.validity ++
      (derTlv asn1Sequence (cert.subject.flatMap Attribute.encode) ++
        (derTlv asn1Sequence cert.subjectPublicKeyInfo ++ cert.extensions))))))

def Certificate.encode : List UInt8 :=
  derTlv asn1Sequence (derTlv asn1Sequence cert.tbsCertificate ++ cert.signatureValue)

end Encode

section Name

/-- id-at-commonName, 2.5.4.3 -/
def commonNameOid : List UInt8 := [0x55, 0x04, 0x03]

/-- A common name that is a UTF8String or a PrintableString. -/
def Attribute.IsCommonName (a : Attribute) : Prop :=
  a.oid = commonNameOid ∧ (a.valueTag = asn1Utf8String ∨ a.valueTag = asn1PrintableString)

instance : DecidablePred Attribute.IsCommonName :=
  fun a => inferInstanceAs (Decidable (a.oid = commonNameOid ∧
    (a.valueTag = asn1Utf8String ∨ a.valueTag = asn1PrintableString)))

def firstCommonName (subject : List Attribute) : Option (List UInt8) :=
  (subject.find? (·.IsCommonName)).map Attribute.value

def Certificate.commonName (cert : Certificate) : Option (List UInt8) :=
  firstCommonName cert.subject

/-- The string in `subject_cn`. -/
def X509Cert.name (cert : X509Cert) : List UInt8 := cert.subjectCn.takeWhile (· ≠ 0)

end Name

variable {mem : ℕ → UInt8} {c : Asn1Cursor}

theorem Reads.expectTlv {tag : UInt8} {content rest : List UInt8}
    (h : Reads mem c (derTlv tag content ++ rest)) :
    ∃ r, (expectTlv mem c tag).value = some r ∧ r.1.Holds mem c.data content ∧
      r.2.data = c.data ∧ Reads mem r.2 rest := by
  obtain ⟨r, hr, htag, hholds, hdata, hrest⟩ := h.asn1ReadTlv
  refine ⟨r, ?_, hholds, hdata, hrest⟩
  rw [X509.expectTlv, Logged.value_bind, hr, Option.bind_some, Logged.value_bind,
    Logged.value_require, if_pos htag]
  rfl

/-- The last element needs nothing behind it. -/
theorem Reads.expectTlv_last {tag : UInt8} {content : List UInt8}
    (h : Reads mem c (derTlv tag content)) :
    ∃ r, (X509.expectTlv mem c tag).value = some r ∧ r.1.Holds mem c.data content := by
  rw [← List.append_nil (derTlv tag content)] at h
  obtain ⟨r, hr, hholds, -⟩ := h.expectTlv
  exact ⟨r, hr, hholds⟩

section Key

variable {data : ℕ} {t : Tlv}

theorem Tlv.Holds.bytesAt {content : List UInt8} (h : t.Holds mem data content) :
    bytesAt mem (data + t.offset) t.len = content := by
  rw [h.len]
  exact h.bytes

/-- The sign byte is stripped, and nothing else is. -/
theorem stripLeadingZero_derUnsigned {n : ℕ} (hn : 0 < n) (h : t.Holds mem data (derUnsigned n)) :
    ∃ t', (stripLeadingZero mem data t).value = some t' ∧ t'.Holds mem data (beBytes n) := by
  obtain ⟨hbound, hlen, hbytes⟩ := h
  obtain ⟨b, bs, hb⟩ := List.exists_cons_of_length_pos (length_beBytes_pos hn)
  rw [stripLeadingZero]
  rw [derUnsigned] at hlen hbytes
  split at hlen
  · next hsign =>
    rw [if_pos hsign, hasAt_cons] at hbytes
    rw [List.length_cons] at hlen
    rw [if_pos (by omega), Logged.value_bind, value_readByte, Option.bind_some, if_pos hbytes.1]
    refine ⟨_, rfl, ?_, ?_, ?_⟩
    · simp only
      omega
    · simp only
      omega
    · simp only [Nat.mod_eq_of_lt (show t.offset + 1 < 2 ^ 32 by omega)]
      exact hbytes.2
  · next hsign =>
    rw [if_neg hsign] at hbytes
    have hne : mem (data + t.offset) ≠ 0 := by
      have hfirst := hbytes
      rw [hb, hasAt_cons] at hfirst
      rw [hfirst.1]
      exact head_beBytes_ne_zero (n := n) (by rw [hb, List.head?_cons])
    have hpos : 0 < t.len := by
      rw [hlen]
      exact length_beBytes_pos hn
    rw [if_pos hpos, Logged.value_bind, value_readByte, Option.bind_some, if_neg hne]
    exact ⟨t, rfl, hbound, hlen, hbytes⟩

theorem copyInteger_derUnsigned {n size : ℕ} (hn : 0 < n) (hsize : (beBytes n).length ≤ size)
    (h : t.Holds mem data (derUnsigned n)) :
    (copyInteger mem data t size).value = some (beBytes n) := by
  obtain ⟨t', ht', hholds⟩ := stripLeadingZero_derUnsigned hn h
  rw [copyInteger, Logged.value_bind, ht', Option.bind_some, Logged.value_bind,
    Logged.value_require, if_pos (hholds.len ▸ hsize), Option.bind_some, value_copyBytes,
    hholds.bytesAt]

theorem parseRsaPublicKey_encode {k : RsaPublicKey} {len : ℕ}
    (h : Reads mem ⟨data, len, 0⟩ k.encode) :
    (parseRsaPublicKey mem data len).value = some ⟨beBytes k.modulus, beBytes k.exponent⟩ := by
  obtain ⟨key, hkey, hkeyHolds⟩ := h.expectTlv_last
  obtain ⟨n, hn, hnHolds, hdata, hrest⟩ := (Reads.asn1Enter hkeyHolds).expectTlv
  obtain ⟨e, he, heHolds⟩ := hrest.expectTlv_last
  rw [hdata] at heHolds
  have hmodulus := copyInteger_derUnsigned k.modulus_pos k.modulus_size hnHolds
  have hexponent := copyInteger_derUnsigned k.exponent_pos k.exponent_size heHolds
  rw [show (X509.asn1Enter (⟨data, len, 0⟩ : Asn1Cursor) key.1).data = data from rfl]
    at hmodulus hexponent
  rw [parseRsaPublicKey]
  simp only [Logged.value_bind, hkey, hn, hmodulus, he, hexponent, Option.bind_some,
    Logged.value_pure]

end Key

section Subject

theorem requireCommonNameOid_value {data : ℕ} {t : Tlv} {oid : List UInt8}
    (h : t.Holds mem data oid) :
    (requireCommonNameOid mem data t).value = if oid = commonNameOid then some () else none := by
  obtain ⟨hbound, hlen, hbytes⟩ := h
  rw [requireCommonNameOid]
  simp only [Logged.value_bind, Logged.value_require, value_readByte, Option.bind_some,
    Nat.mod_eq_of_lt (show t.offset + 1 < 2 ^ 32 by omega),
    Nat.mod_eq_of_lt (show t.offset + 2 < 2 ^ 32 by omega), hlen, commonNameOid]
  obtain _ | ⟨b₀, _ | ⟨b₁, _ | ⟨b₂, _ | ⟨b₃, oid⟩⟩⟩⟩ := oid
  case cons.cons.cons.nil =>
    simp only [hasAt_cons, Nat.add_assoc] at hbytes
    simp only [hbytes.1, hbytes.2.1, hbytes.2.2.1, List.length_cons, List.length_nil,
      List.cons.injEq, and_true]
    by_cases h₀ : b₀ = 0x55 <;> by_cases h₁ : b₁ = 0x04 <;> simp [h₀, h₁]
  all_goals simp

/-- An element of the subject yields its value exactly if it is a common name of a type that is
    read. -/
theorem readCommonName_encode {a : Attribute} {t : Tlv} (htag : t.tag = asn1Set)
    (h : t.Holds mem c.data
      (derTlv asn1Sequence (derTlv asn1Oid a.oid ++ derTlv a.valueTag a.value))) :
    (a.IsCommonName → ∃ val, (readCommonName mem c t).value = some val ∧
      val.Holds mem c.data a.value) ∧
    (¬ a.IsCommonName → (readCommonName mem c t).value = none) := by
  obtain ⟨r, hr, hrHolds⟩ := (Reads.asn1Enter h).expectTlv_last
  obtain ⟨oid, hoid, hoidHolds, hdata, hrest⟩ := (Reads.asn1Enter hrHolds).expectTlv
  rw [← List.append_nil (derTlv a.valueTag a.value)] at hrest
  obtain ⟨val, hval, hvalTag, hvalHolds, -⟩ := hrest.asn1ReadTlv
  rw [hdata] at hvalHolds
  have hoidValue : (requireCommonNameOid mem c.data oid.1).value =
      if a.oid = commonNameOid then some () else none := requireCommonNameOid_value hoidHolds
  have hvalue : (readCommonName mem c t).value =
      if a.IsCommonName then some val.1 else none := by
    rw [readCommonName]
    simp only [Logged.value_bind, Logged.value_require, if_pos htag, Option.bind_some,
      hr, hoid, hval, hoidValue, hvalTag, Logged.value_pure, Attribute.IsCommonName]
    by_cases hcn : a.oid = commonNameOid <;>
      by_cases hstring : a.valueTag = asn1Utf8String ∨ a.valueTag = asn1PrintableString <;>
      simp [hcn, hstring]
  refine ⟨fun hcn => ⟨val.1, ?_, hvalHolds⟩, fun hcn => ?_⟩
  · rw [hvalue, if_pos hcn]
  · rw [hvalue, if_neg hcn]

/-- The loop stops at the first common name of a type that is read. -/
theorem selectCommonName_encode {subject : List Attribute} {fuel : ℕ}
    (hfuel : subject.length < fuel)
    (h : Reads mem c (subject.flatMap Attribute.encode)) :
    ∃ r, (selectCommonName mem fuel c).value = some r ∧
      (firstCommonName subject = none → r = none) ∧
      ∀ v, firstCommonName subject = some v → ∃ val, r = some val ∧ val.Holds mem c.data v := by
  induction subject generalizing c fuel with
  | nil =>
    obtain ⟨fuel, rfl⟩ := Nat.exists_eq_succ_of_ne_zero (Nat.ne_of_gt hfuel)
    refine ⟨none, ?_, fun _ => rfl, fun v hv => absurd hv (by simp [firstCommonName])⟩
    rw [selectCommonName, Logged.value_bind, Logged.value_attempt, h.asn1ReadTlv_nil]
    rfl
  | cons a subject ih =>
    obtain ⟨fuel, rfl⟩ :=
      Nat.exists_eq_succ_of_ne_zero (Nat.ne_of_gt ((Nat.zero_le _).trans_lt hfuel))
    rw [List.flatMap_cons, Attribute.encode] at h
    obtain ⟨r, hr, htag, hholds, hdata, hrest⟩ := h.asn1ReadTlv
    rw [← hdata] at hholds
    obtain ⟨hcn, hother⟩ := readCommonName_encode (c := r.2) htag hholds
    rw [selectCommonName, Logged.value_bind, Logged.value_attempt, hr, Option.bind_some]
    simp only [Logged.value_bind, Logged.value_attempt, Option.bind_some, firstCommonName,
      List.find?_cons]
    by_cases ha : a.IsCommonName
    · obtain ⟨val, hval, hvalHolds⟩ := hcn ha
      rw [hval, decide_eq_true ha]
      refine ⟨some val, rfl, fun h => absurd h (by simp), fun v hv => ⟨val, rfl, ?_⟩⟩
      obtain rfl := Option.some.inj hv
      rwa [← hdata]
    · rw [hother ha, decide_eq_false ha, ← hdata]
      exact ih (by rw [List.length_cons] at hfuel; omega) hrest

/-- What `find_common_name` leaves in an array of zeros. -/
theorem findCommonName_encode {subject : List Attribute} {fuel data n : ℕ} {t : Tlv}
    (hfuel : subject.length < fuel) (h : t.Holds mem data (subject.flatMap Attribute.encode)) :
    ∃ buf, (findCommonName mem fuel data t (List.replicate n 0)).value = some buf ∧
      (firstCommonName subject = none → buf = List.replicate n 0) ∧
      ∀ v, firstCommonName subject = some v → v.length < n →
        buf = v ++ 0 :: List.replicate (n - (v.length + 1)) 0 := by
  obtain ⟨r, hr, hnone, hsome⟩ := selectCommonName_encode hfuel
    (Reads.asn1Enter (c := ⟨data, 0, 0⟩) h)
  refine ⟨nameBuffer mem data n r, ?_, fun h => ?_, fun v hv hlt => ?_⟩
  · rw [X509.asn1Enter] at hr
    rw [findCommonName_value, hr]
    rfl
  · rw [hnone h]
    rfl
  · obtain ⟨val, rfl, hholds⟩ := hsome v hv
    have hmin : min val.len (n - 1) = val.len := by
      have := hholds.len
      omega
    rw [nameBuffer, hmin, ← hholds.len]
    exact congrArg (· ++ _) hholds.bytesAt

end Subject

section Certificate

variable {cert : Certificate}

/-- The version is skipped if there is one. -/
theorem readVersion_encode {rest : List UInt8}
    (h : Reads mem c (cert.encodeVersion ++ (derTlv asn1Integer cert.serialNumber ++ rest))) :
    ∃ r, (asn1ReadTlv mem c).value = some r ∧
      Reads mem (if r.1.tag ≠ versionTag then { r.2 with pos := c.pos } else r.2)
        (derTlv asn1Integer cert.serialNumber ++ rest) ∧ r.2.data = c.data := by
  rw [Certificate.encodeVersion] at h
  cases hversion : cert.version with
  | none =>
    rw [hversion, List.nil_append] at h
    obtain ⟨r, hr, htag, -, hdata, -⟩ := h.asn1ReadTlv
    refine ⟨r, hr, ?_, hdata⟩
    obtain ⟨-, -, rfl⟩ := asn1ReadTlv_eq_some_iff.mp hr
    rw [htag, if_pos (by decide)]
    exact h
  | some v =>
    rw [hversion] at h
    obtain ⟨r, hr, htag, -, hdata, hrest⟩ := h.asn1ReadTlv
    refine ⟨r, hr, ?_, hdata⟩
    rw [htag, if_neg (by decide)]
    exact hrest

theorem readSubject_encode (hlen : cert.encode.length < 2 ^ 24) (hmem : HasAt mem 0 cert.encode) :
    ∃ r, (readSubject mem cert.encode.length).value = some r ∧
      r.1.Holds mem r.2.data (cert.subject.flatMap Attribute.encode) ∧
      Reads mem r.2 (derTlv asn1Sequence cert.subjectPublicKeyInfo ++ cert.extensions) := by
  have hreads : Reads mem ⟨0, cert.encode.length, 0⟩ cert.encode :=
    ⟨hlen, Nat.zero_add _, hmem⟩
  obtain ⟨r₁, hr₁, hholds₁⟩ := hreads.expectTlv_last
  obtain ⟨r₂, hr₂, hholds₂, hdata₂, -⟩ := (Reads.asn1Enter hholds₁).expectTlv
  obtain ⟨r₃, hr₃, hreads₃, hdata₃⟩ := readVersion_encode (Reads.asn1Enter hholds₂)
  obtain ⟨r₄, hr₄, -, hdata₄, hreads₄⟩ := hreads₃.expectTlv
  obtain ⟨r₅, hr₅, -, hdata₅, hreads₅⟩ := hreads₄.expectTlv
  obtain ⟨r₆, hr₆, -, hdata₆, hreads₆⟩ := hreads₅.expectTlv
  obtain ⟨r₇, hr₇, -, hdata₇, hreads₇⟩ := hreads₆.expectTlv
  obtain ⟨r₈, hr₈, hholds₈, hdata₈, hreads₈⟩ := hreads₇.expectTlv
  refine ⟨r₈, ?_, hdata₈ ▸ hholds₈, hreads₈⟩
  rw [readSubject]
  simp only [Logged.value_bind, hr₁, hr₂, hr₃, hr₄, hr₅, hr₆, hr₇, hr₈, Option.bind_some]

theorem readPublicKey_encode {rest : List UInt8}
    (h : Reads mem c (derTlv asn1Sequence cert.subjectPublicKeyInfo ++ rest)) :
    (readPublicKey mem c).value =
      some ⟨beBytes cert.key.modulus, beBytes cert.key.exponent⟩ := by
  obtain ⟨info, hinfo, hinfoHolds, -⟩ := h.expectTlv
  obtain ⟨algorithm, halgorithm, -, hdata, hrest⟩ := (Reads.asn1Enter hinfoHolds).expectTlv
  obtain ⟨key, hkey, hkeyHolds⟩ := hrest.expectTlv_last
  rw [hdata] at hkeyHolds
  obtain ⟨hbound, hlen, hbytes⟩ := hkeyHolds
  obtain ⟨hunused, hencode⟩ := hasAt_cons.mp hbytes
  rw [List.length_cons] at hlen
  have hparse : (parseRsaPublicKey mem (c.data + key.1.offset + 1) (key.1.len - 1)).value =
      some ⟨beBytes cert.key.modulus, beBytes cert.key.exponent⟩ :=
    parseRsaPublicKey_encode ⟨by simp only; omega, by simp only; omega, hencode⟩
  have hunused' : mem (c.data + key.1.offset) = 0 := hunused
  rw [readPublicKey]
  simp only [Logged.value_bind, hinfo, halgorithm, hkey, Option.bind_some, Logged.value_require,
    if_pos (show ¬ key.1.len < 1 by omega), value_readByte, if_pos hunused', hparse]

theorem length_derTlv_pos (tag : UInt8) (content : List UInt8) : 0 < (derTlv tag content).length :=
  Nat.succ_pos _

theorem length_le_derTlv (tag : UInt8) (content : List UInt8) :
    content.length ≤ (derTlv tag content).length := by
  rw [derTlv, List.length_append]
  exact Nat.le_add_left _ _

/-- There are fewer attributes than bytes. -/
theorem length_subject_le (cert : Certificate) : cert.subject.length ≤ cert.encode.length := by
  have hsubject : cert.subject.length ≤ (cert.subject.flatMap Attribute.encode).length := by
    induction cert.subject with
    | nil => exact Nat.le_refl 0
    | cons a subject ih =>
      have := length_derTlv_pos asn1Set
        (derTlv asn1Sequence (derTlv asn1Oid a.oid ++ derTlv a.valueTag a.value))
      rw [List.flatMap_cons, List.length_append, List.length_cons, Attribute.encode]
      omega
  have htbs : (cert.subject.flatMap Attribute.encode).length ≤ cert.tbsCertificate.length := by
    have := length_le_derTlv asn1Sequence (cert.subject.flatMap Attribute.encode)
    simp only [Certificate.tbsCertificate, List.length_append]
    omega
  have hencode := length_le_derTlv asn1Sequence
    (derTlv asn1Sequence cert.tbsCertificate ++ cert.signatureValue)
  have hinner := length_le_derTlv asn1Sequence cert.tbsCertificate
  rw [List.length_append] at hencode
  rw [Certificate.encode]
  omega

end Certificate

/-- A certificate in DER is accepted, with the bytes of its key and its common name. -/
theorem x509ParseCertificate_encode (cert : Certificate) (hlen : cert.encode.length < 2 ^ 24)
    (hmem : ∀ i (hi : i < cert.encode.length), mem i = cert.encode[i]) {fuel : ℕ}
    (hfuel : cert.encode.length < fuel) :
    ∃ out, (x509ParseCertificate mem fuel cert.encode.length).value = some out ∧
      out.pubkey.modulus = beBytes cert.key.modulus ∧
      out.pubkey.exponent = beBytes cert.key.exponent ∧
      (cert.commonName = none → out.name = []) ∧
      ∀ v, cert.commonName = some v → v.length ≤ 127 → 0 ∉ v → out.name = v := by
  obtain ⟨subject, hsubject, hholds, hrest⟩ := readSubject_encode hlen (hasAt_zero_of_getElem hmem)
  obtain ⟨buf, hbuf, hnone, hsome⟩ := findCommonName_encode (n := subjectCnSize)
    ((length_subject_le cert).trans_lt hfuel) hholds
  refine ⟨⟨buf, ⟨beBytes cert.key.modulus, beBytes cert.key.exponent⟩⟩, ?_, rfl, rfl,
    fun h => ?_, fun v hv hle hzero => ?_⟩
  · rw [x509ParseCertificate]
    simp only [Logged.value_bind, hsubject, hbuf, readPublicKey_encode hrest, Option.bind_some,
      Logged.value_pure]
  · rw [X509Cert.name, hnone h]
    rfl
  · have hne : ∀ b ∈ v, decide (b ≠ 0) = true := fun b hb =>
      decide_eq_true fun h => hzero (h ▸ hb)
    rw [X509Cert.name, hsome v hv (Nat.lt_succ_of_le hle)]
    simp only [List.takeWhile_append_of_pos hne, List.takeWhile_cons]
    simp

/-- Version 3, serial number 1, an organization before the common name, and a modulus whose first
    bit is set. -/
def shortCertificate : Certificate where
  version := some [0x02, 0x01, 0x02]
  serialNumber := [0x01]
  signature := []
  issuer := []
  validity := []
  subject := [⟨[0x55, 0x04, 0x0A], asn1Utf8String, [0x62]⟩,
    ⟨commonNameOid, asn1PrintableString, [0x61, 0x2E, 0x63]⟩]
  keyAlgorithm := []
  key := ⟨0xC7, 3, by decide, by decide, by decide, by decide⟩
  extensions := []
  signatureValue := []

theorem x509ParseCertificate_encode_short :
    ∃ out, (x509ParseCertificate (shortCertificate.encode.getD · 0) 70
        shortCertificate.encode.length).value = some out ∧
      out.pubkey.modulus = beBytes 0xC7 ∧ out.pubkey.exponent = beBytes 3 ∧
      (shortCertificate.commonName = none → out.name = []) ∧
      ∀ v, shortCertificate.commonName = some v → v.length ≤ 127 → 0 ∉ v → out.name = v :=
  x509ParseCertificate_encode shortCertificate (by decide)
    (fun i hi => by simp [hi]) (by decide)

end AuroraOS.X509
