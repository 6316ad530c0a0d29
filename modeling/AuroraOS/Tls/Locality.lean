import AuroraOS.X509.Bounds

/-!
# The parser and the memory behind a certificate

What the parser finds depends on the bytes that it reads and on nothing else, so that a parse in
which no sum wraps around gives the same result whatever lies behind the certificate.

## Main results

- `x509ParseCertificate_local`
- `x509ParseCertificate_same`
-/

namespace AuroraOS.X509

open AuroraOS.Lib

/-- The address of a read. -/
def Event.address : Event → Option ℕ
  | .read i => some i
  | _ => none

/-- A computation that depends on what it reads. -/
abbrev Local {α : Type} (p : (ℕ → UInt8) → Logged Event α) : Prop := Logged.LocalTo Event.address p

theorem readByte_local (data i : ℕ) : Local fun mem => readByte mem data i := by
  intro mem mem' h
  have hsame := h (.read (data + i)) (List.mem_singleton_self _) (data + i) rfl
  simp only [readByte, hsame]

theorem copyBytes_local (data i n : ℕ) : Local fun mem => copyBytes mem data i n := by
  intro mem mem' h
  have hsame : ∀ j < n, mem (data + i + j) = mem' (data + i + j) := by
    intro j hj
    refine h (.read (data + i + j)) ?_ (data + i + j) rfl
    simp only [copyBytes, Logged.log_bind]
    exact List.mem_append_left _ (List.mem_map.mpr ⟨j, List.mem_range.mpr hj, rfl⟩)
  have hbytes : bytesAt mem' (data + i) n = bytesAt mem (data + i) n :=
    List.map_congr_left fun j hj => (hsame j (List.mem_range.mp hj)).symm
  simp only [copyBytes, hbytes]

theorem readLength_local (data n i acc : ℕ) : Local fun mem => readLength mem data n i acc := by
  induction n generalizing i acc with
  | zero => exact .const _
  | succ n ih => exact .bind (readByte_local _ _) fun _ => ih _ _

theorem readLengthField_local (c : Asn1Cursor) (b : UInt8) :
    Local fun mem => readLengthField mem c b := by
  refine .ite ?_ (.const _)
  exact .bind (.const _) fun _ => .bind (.const _) fun _ =>
    .bind (readLength_local _ _ _ _) fun _ => .const _

theorem asn1ReadTlv_local (c : Asn1Cursor) : Local fun mem => asn1ReadTlv mem c :=
  .bind (.const _) fun _ => .bind (.const _) fun _ => .bind (readByte_local _ _) fun _ =>
    .bind (readByte_local _ _) fun _ => .bind (readLengthField_local _ _) fun _ =>
    .bind (.const _) fun _ => .const _

theorem expectTlv_local (c : Asn1Cursor) (tag : UInt8) : Local fun mem => expectTlv mem c tag :=
  .bind (asn1ReadTlv_local c) fun _ => .bind (.const _) fun _ => .const _

theorem copyInteger_local (data : ℕ) (t : Tlv) (size : ℕ) :
    Local fun mem => copyInteger mem data t size := by
  have hstrip : Local fun mem => stripLeadingZero mem data t := by
    refine .ite (.bind (readByte_local _ _) fun b => ?_) (.const _)
    exact .ite (.const _) (.const _)
  exact .bind hstrip fun _ => .bind (.const _) fun _ => copyBytes_local _ _ _

theorem parseRsaPublicKey_local (data len : ℕ) : Local fun mem => parseRsaPublicKey mem data len :=
  .bind (expectTlv_local _ _) fun _ => .bind (expectTlv_local _ _) fun _ =>
    .bind (copyInteger_local _ _ _) fun _ => .bind (expectTlv_local _ _) fun _ =>
    .bind (copyInteger_local _ _ _) fun _ => .const _

theorem readCommonName_local (rdnSeq : Asn1Cursor) (t : Tlv) :
    Local fun mem => readCommonName mem rdnSeq t := by
  have hoid : ∀ oid, Local fun mem => requireCommonNameOid mem rdnSeq.data oid := fun _ =>
    .bind (.const _) fun _ => .bind (readByte_local _ _) fun _ => .bind (.const _) fun _ =>
      .bind (readByte_local _ _) fun _ => .bind (.const _) fun _ =>
      .bind (readByte_local _ _) fun _ => .const _
  exact .bind (.const _) fun _ => .bind (expectTlv_local _ _) fun _ =>
    .bind (expectTlv_local _ _) fun _ => .bind (hoid _) fun _ =>
      .bind (asn1ReadTlv_local _) fun _ =>
    .bind (.const _) fun _ => .const _

theorem selectCommonName_local (fuel : ℕ) (rdnSeq : Asn1Cursor) :
    Local fun mem => selectCommonName mem fuel rdnSeq := by
  induction fuel generalizing rdnSeq with
  | zero => exact .const _
  | succ fuel ih =>
    refine .bind (asn1ReadTlv_local rdnSeq).attempt fun r => ?_
    cases r with
    | none => exact .const _
    | some r =>
      refine .bind (readCommonName_local r.2 r.1).attempt fun val => ?_
      cases val with
      | none => exact ih r.2
      | some val => exact .const _

theorem findCommonName_local (fuel data : ℕ) (t : Tlv) (out : List UInt8) :
    Local fun mem => findCommonName mem fuel data t out := by
  refine .bind (selectCommonName_local _ _) fun val => ?_
  cases val with
  | none => exact .const _
  | some val => exact .bind (copyBytes_local _ _ _) fun _ => .const _

theorem readSubject_local (derLen : ℕ) : Local fun mem => readSubject mem derLen :=
  .bind (expectTlv_local _ _) fun _ => .bind (expectTlv_local _ _) fun _ =>
    .bind (asn1ReadTlv_local _) fun _ => .bind (expectTlv_local _ _) fun _ =>
    .bind (expectTlv_local _ _) fun _ => .bind (expectTlv_local _ _) fun _ =>
    .bind (expectTlv_local _ _) fun _ => expectTlv_local _ _

theorem readPublicKey_local (tbs : Asn1Cursor) : Local fun mem => readPublicKey mem tbs :=
  .bind (expectTlv_local _ _) fun _ => .bind (expectTlv_local _ _) fun _ =>
    .bind (expectTlv_local _ _) fun _ => .bind (.const _) fun _ =>
    .bind (readByte_local _ _) fun _ => .bind (.const _) fun _ => parseRsaPublicKey_local _ _

/-- The parser depends on what it reads. -/
theorem x509ParseCertificate_local (fuel derLen : ℕ) :
    Local fun mem => x509ParseCertificate mem fuel derLen :=
  .bind (readSubject_local _) fun _ => .bind (findCommonName_local _ _ _ _) fun _ =>
    .bind (readPublicKey_local _) fun _ => .const _

/-- A parse in which no sum wraps around does not depend on what lies behind the certificate. -/
theorem x509ParseCertificate_same {mem mem' : ℕ → UInt8} {fuel derLen : ℕ} (hlen : derLen < 2 ^ 32)
    (hfuel : derLen < fuel)
    (hfit : ∀ e ∈ (x509ParseCertificate mem fuel derLen).log, CallFits mem e)
    (hmem : ∀ i < derLen, mem i = mem' i) :
    x509ParseCertificate mem' fuel derLen = x509ParseCertificate mem fuel derLen := by
  refine x509ParseCertificate_local fuel derLen mem mem' fun e he i hi => hmem i ?_
  have hwithin := x509ParseCertificate_within hlen hfuel hfit e he
  cases e with
  | read j =>
    obtain rfl := Option.some.inj hi
    exact hwithin
  | call c => cases hi
  | exhausted => cases hi

end AuroraOS.X509
