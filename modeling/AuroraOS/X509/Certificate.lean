import AuroraOS.X509.Asn1

/-!
# Parsing a certificate

`parse_rsa_public_key`, `find_common_name` and `x509_parse_certificate` of `kernel/x509.c`. The
certificate lies at address 0.

## Main definitions

- `X509Cert`
- `parseRsaPublicKey`, `findCommonName`, `x509ParseCertificate`
-/

namespace AuroraOS.X509

open AuroraOS.Lib

/-- `struct x509_pubkey`: of both arrays the part that is in use. -/
structure X509Pubkey where
  modulus : List UInt8
  exponent : List UInt8
  deriving DecidableEq

/-- `struct x509_cert` -/
structure X509Cert where
  /-- the whole array -/
  subjectCn : List UInt8
  pubkey : X509Pubkey
  deriving DecidableEq

/-- The sizes of the arrays of `struct x509_cert`. -/
def subjectCnSize : ℕ := 128

@[inherit_doc subjectCnSize]
def modulusSize : ℕ := 512

@[inherit_doc subjectCnSize]
def exponentSize : ℕ := 8

variable (mem : ℕ → UInt8)

/-- Read an element that must have this tag. -/
def expectTlv (c : Asn1Cursor) (tag : UInt8) : Logged Event (Tlv × Asn1Cursor) := do
  let r ← asn1ReadTlv mem c
  Logged.require (r.1.tag = tag)
  return r

/-- A leading zero byte is not part of the number. -/
def stripLeadingZero (data : ℕ) (t : Tlv) : Logged Event Tlv :=
  if 0 < t.len then do
    let b ← readByte mem data t.offset
    if b = 0 then
      return { t with offset := (t.offset + 1) % 2 ^ 32, len := t.len - 1 }
    else
      return t
  else
    return t

/-- An INTEGER, copied to an array of `size` bytes. -/
def copyInteger (data : ℕ) (t : Tlv) (size : ℕ) : Logged Event (List UInt8) := do
  let n ← stripLeadingZero mem data t
  Logged.require (n.len ≤ size)
  copyBytes mem data n.offset n.len

/-- `parse_rsa_public_key` -/
def parseRsaPublicKey (data len : ℕ) : Logged Event X509Pubkey := do
  let c : Asn1Cursor := ⟨data, len, 0⟩
  let key ← expectTlv mem c asn1Sequence
  let n ← expectTlv mem (asn1Enter c key.1) asn1Integer
  let modulus ← copyInteger mem data n.1 modulusSize
  let e ← expectTlv mem n.2 asn1Integer
  let exponent ← copyInteger mem data e.1 exponentSize
  return ⟨modulus, exponent⟩

section CommonName

/-- `is_cn`; the bytes are compared until one differs. -/
def requireCommonNameOid (data : ℕ) (oid : Tlv) : Logged Event Unit := do
  Logged.require (oid.len = 3)
  let b₀ ← readByte mem data oid.offset
  Logged.require (b₀ = 0x55)
  let b₁ ← readByte mem data ((oid.offset + 1) % 2 ^ 32)
  Logged.require (b₁ = 0x04)
  let b₂ ← readByte mem data ((oid.offset + 2) % 2 ^ 32)
  Logged.require (b₂ = 0x03)

/-- The value of the attribute in an element of the subject; fails where the loop goes on with the
    next element. -/
def readCommonName (rdnSeq : Asn1Cursor) (t : Tlv) : Logged Event Tlv := do
  Logged.require (t.tag = asn1Set)
  let atvSet := asn1Enter rdnSeq t
  let r ← expectTlv mem atvSet asn1Sequence
  let atv := asn1Enter atvSet r.1
  let oid ← expectTlv mem atv asn1Oid
  requireCommonNameOid mem rdnSeq.data oid.1
  let val ← asn1ReadTlv mem oid.2
  Logged.require (val.1.tag = asn1Utf8String ∨ val.1.tag = asn1PrintableString)
  return val.1

/-- The loop of `find_common_name`, cut off after `fuel` turns: the value that is copied. -/
def selectCommonName : ℕ → Asn1Cursor → Logged Event (Option Tlv)
  | 0, _ => do
    Logged.tell .exhausted
    Logged.fail
  | fuel + 1, rdnSeq => do
    match ← (asn1ReadTlv mem rdnSeq).attempt with
    | none => return none
    | some (t, rdnSeq) =>
      match ← (readCommonName mem rdnSeq t).attempt with
      | some val => return some val
      | none => selectCommonName fuel rdnSeq

/-- `find_common_name`, on the element that holds the subject. -/
def findCommonName (fuel data : ℕ) (t : Tlv) (out : List UInt8) : Logged Event (List UInt8) := do
  let out := out.set 0 0
  match ← selectCommonName mem fuel ⟨data, (t.offset + t.len) % 2 ^ 32, t.offset⟩ with
  | none => return out
  | some val =>
    let copyLen := min val.len (out.length - 1)
    let bytes ← copyBytes mem data val.offset copyLen
    return bytes ++ [0] ++ out.drop (copyLen + 1)

/-- What the loop leaves in an array of `size` zeros. -/
def nameBuffer (data size : ℕ) : Option Tlv → List UInt8
  | none => List.replicate size 0
  | some val =>
    bytesAt mem (data + val.offset) (min val.len (size - 1)) ++
      0 :: List.replicate (size - (min val.len (size - 1) + 1)) 0

theorem findCommonName_value (fuel data size : ℕ) (t : Tlv) :
    (findCommonName mem fuel data t (List.replicate size 0)).value =
      (selectCommonName mem fuel ⟨data, (t.offset + t.len) % 2 ^ 32, t.offset⟩).value.map
        (nameBuffer mem data size) := by
  have hset : (List.replicate size (0 : UInt8)).set 0 0 = List.replicate size 0 := by
    cases size <;> rfl
  rw [findCommonName, hset, Logged.value_bind, List.length_replicate]
  cases (selectCommonName mem fuel ⟨data, (t.offset + t.len) % 2 ^ 32, t.offset⟩).value with
  | none => rfl
  | some r =>
    cases r with
    | none => rfl
    | some val => simp [nameBuffer]

end CommonName

/-- The part of `x509_parse_certificate` up to the subject. -/
def readSubject (derLen : ℕ) : Logged Event (Tlv × Asn1Cursor) := do
  let c : Asn1Cursor := ⟨0, derLen, 0⟩
  let certificate ← expectTlv mem c asn1Sequence
  let cert := asn1Enter c certificate.1
  let tbsCertificate ← expectTlv mem cert asn1Sequence
  let tbs := asn1Enter cert tbsCertificate.1
  let version ← asn1ReadTlv mem tbs
  -- without a version this element was the serial number
  let tbs := if version.1.tag ≠ versionTag then { version.2 with pos := tbs.pos } else version.2
  let serialNumber ← expectTlv mem tbs asn1Integer
  let signature ← expectTlv mem serialNumber.2 asn1Sequence
  let issuer ← expectTlv mem signature.2 asn1Sequence
  let validity ← expectTlv mem issuer.2 asn1Sequence
  expectTlv mem validity.2 asn1Sequence

/-- The part of `x509_parse_certificate` behind the subject. -/
def readPublicKey (tbs : Asn1Cursor) : Logged Event X509Pubkey := do
  let info ← expectTlv mem tbs asn1Sequence
  let algorithm ← expectTlv mem (asn1Enter tbs info.1) asn1Sequence
  let key ← expectTlv mem algorithm.2 asn1BitString
  Logged.require (¬ key.1.len < 1)
  let unusedBits ← readByte mem tbs.data key.1.offset
  Logged.require (unusedBits = 0)
  parseRsaPublicKey mem (tbs.data + key.1.offset + 1) (key.1.len - 1)

/-- `x509_parse_certificate`, which returns true where the value is not `none`. -/
def x509ParseCertificate (fuel derLen : ℕ) : Logged Event X509Cert := do
  let subject ← readSubject mem derLen
  let subjectCn ← findCommonName mem fuel subject.2.data subject.1 (List.replicate subjectCnSize 0)
  let pubkey ← readPublicKey mem subject.2
  return ⟨subjectCn, pubkey⟩

end AuroraOS.X509
