import AuroraOS.X509.Certificate

/-!
# Where the parser reads

The tests of `asn1_read_tlv` add a length of up to four bytes to a position, in 32 bits. Where such
a sum wraps around, the call goes back or stands still. A parse in which no sum wraps around
terminates and stays inside the certificate.

## Main definitions

- `Advances` — what a call that returns true owes to its caller
- `LengthWraps`, `HeaderWraps` — sums that pass a test only because of the wrap-around
- `Within` — an event of a parse that stays inside the certificate

## Main results

- `asn1ReadTlv_advances_iff`
- `x509ParseCertificate_within`
- `asn1Reader_safe_iff`
-/

namespace AuroraOS.X509

set_option maxRecDepth 4096

open AuroraOS.Lib

/-- The cursor moves forward, up to its end at most, past the content. -/
structure Advances (c : Asn1Cursor) (r : Tlv × Asn1Cursor) : Prop where
  forward : c.pos < r.2.pos
  bounded : r.2.pos ≤ c.len
  content : c.pos ≤ r.1.offset ∧ r.1.offset + r.1.len ≤ r.2.pos

variable (mem : ℕ → UInt8)

/-- The end of the content passes the last test of `asn1_read_tlv` only because of the
    wrap-around. -/
structure LengthWraps (c : Asn1Cursor) : Prop where
  accepted : HeaderAccepted mem c
  passes : declaredEnd mem c % 2 ^ 32 ≤ c.len
  wraps : 2 ^ 32 ≤ declaredEnd mem c

/-- The header reaches past the last 32-bit position. -/
def HeaderWraps (c : Asn1Cursor) : Prop :=
  2 ^ 32 ≤ c.pos + 2 ∨ headerLen mem c ≤ 6 ∧ 2 ^ 32 ≤ c.pos + headerLen mem c

/-- No sum of the call wraps around. -/
def CallFits : Event → Prop
  | .call c => ¬ HeaderWraps mem c ∧ ¬ LengthWraps mem c
  | _ => True

/-- No byte behind the certificate is read, and no loop is cut off. -/
def Within (derLen : ℕ) : Event → Prop
  | .read i => i < derLen
  | .call _ => True
  | .exhausted => False

instance (c : Asn1Cursor) : Decidable (HeaderAccepted mem c) :=
  decidable_of_iff ((c.pos + 2) % 2 ^ 32 ≤ c.len ∧
    (firstLenByte mem c &&& 0x80 ≠ 0 → 0 < numLenBytes mem c ∧ numLenBytes mem c ≤ 4) ∧
    (c.pos + headerLen mem c) % 2 ^ 32 ≤ c.len)
    ⟨fun h => ⟨h.1, h.2.1, h.2.2⟩, fun h => ⟨h.two, h.form, h.header⟩⟩

instance (c : Asn1Cursor) : Decidable (LengthWraps mem c) :=
  decidable_of_iff (HeaderAccepted mem c ∧ declaredEnd mem c % 2 ^ 32 ≤ c.len ∧
    2 ^ 32 ≤ declaredEnd mem c) ⟨fun h => ⟨h.1, h.2.1, h.2.2⟩, fun h => ⟨h.1, h.2, h.3⟩⟩

instance (c : Asn1Cursor) : Decidable (HeaderWraps mem c) :=
  inferInstanceAs (Decidable (_ ∨ _ ∧ _))

instance : DecidablePred (CallFits mem)
  | .call c => inferInstanceAs (Decidable (¬ HeaderWraps mem c ∧ ¬ LengthWraps mem c))
  | .read _ | .exhausted => isTrue trivial

variable {mem} {c : Asn1Cursor} {derLen : ℕ}

theorem HeaderAccepted.headerLen_le (h : HeaderAccepted mem c) : headerLen mem c ≤ 6 := by
  rw [headerLen]
  by_cases hlong : firstLenByte mem c &&& 0x80 ≠ 0
  · have := (h.form hlong).2
    omega
  · rw [numLenBytes, if_neg hlong]
    omega

theorem HeaderAccepted.contentLen_lt (h : HeaderAccepted mem c) : contentLen mem c < 2 ^ 32 := by
  rw [contentLen]
  split
  · next hlong =>
    exact (beValue_range_lt _ _).trans_le
      (Nat.pow_le_pow_right (by decide) (h.form hlong).2 : _ ≤ 256 ^ 4)
  · exact (firstLenByte mem c).toNat_lt.trans (by decide)

theorem two_le_headerLen (mem : ℕ → UInt8) (c : Asn1Cursor) : 2 ≤ headerLen mem c :=
  Nat.le_add_right 2 _

/-- A call that returns true advances the cursor, unless a length wraps around. -/
theorem asn1ReadTlv_advances_iff (hlen : c.len < 2 ^ 32) (hpos : c.pos ≤ c.len) :
    (∀ r, (asn1ReadTlv mem c).value = some r → Advances c r) ↔ ¬ LengthWraps mem c := by
  have htwo := two_le_headerLen mem c
  constructor
  · rintro h ⟨haccept, hpass, hwrap⟩
    obtain ⟨hforward, -, hcontent, hend⟩ := h _ (asn1ReadTlv_eq_some_iff.mpr ⟨haccept, hpass, rfl⟩)
    have hheader := haccept.headerLen_le
    have hlt := haccept.contentLen_lt
    simp only [tlvAt, declaredEnd] at *
    omega
  · intro h r hr
    obtain ⟨haccept, hpass, rfl⟩ := asn1ReadTlv_eq_some_iff.mp hr
    have hend : declaredEnd mem c < 2 ^ 32 := by
      by_contra hwrap
      exact h ⟨haccept, hpass, by omega⟩
    rw [Nat.mod_eq_of_lt hend] at hpass ⊢
    rw [declaredEnd] at hend hpass
    refine ⟨?_, hpass, ?_⟩
    · simp only [declaredEnd]
      omega
    · simp only [tlvAt, declaredEnd,
        Nat.mod_eq_of_lt (show c.pos + headerLen mem c < 2 ^ 32 by omega)]
      omega

section Parse

/-- The cursor stays inside the certificate. -/
structure Asn1Cursor.Inside (derLen : ℕ) (c : Asn1Cursor) : Prop where
  pos : c.pos ≤ c.len
  len : c.len < 2 ^ 32
  data : c.data + c.len ≤ derLen

/-- So does the content. -/
structure Tlv.Inside (derLen data : ℕ) (t : Tlv) : Prop where
  len : t.offset + t.len < 2 ^ 32
  data : data + (t.offset + t.len) ≤ derLen

theorem Asn1Cursor.Inside.enter {t : Tlv} (h : t.Inside derLen c.data) :
    (asn1Enter c t).Inside derLen := by
  have hlen : (t.offset + t.len) % 2 ^ 32 = t.offset + t.len := Nat.mod_eq_of_lt h.len
  refine ⟨?_, ?_, ?_⟩ <;> rw [asn1Enter, hlen]
  · exact Nat.le_add_right _ _
  · exact h.len
  · exact h.data

/-- What a call gives to a parser that assumes that no sum wraps around. -/
structure Progress (derLen : ℕ) (c : Asn1Cursor) (r : Tlv × Asn1Cursor) : Prop where
  tlv : r.1.Inside derLen c.data
  cursor : r.2.Inside derLen
  data : r.2.data = c.data
  len : r.2.len = c.len
  forward : c.pos < r.2.pos

theorem readByte_ensures {data i : ℕ} (h : data + i < derLen) :
    (readByte mem data i).Ensures (CallFits mem) (Within derLen) fun b => b = mem (data + i) :=
  Logged.Ensures.bind (Logged.Ensures.tell fun _ => h) fun _ _ => Logged.Ensures.pure rfl

theorem copyBytes_ensures {data i n : ℕ} (h : data + i + n ≤ derLen) :
    (copyBytes mem data i n).Ensures (CallFits mem) (Within derLen) fun _ => True := by
  refine Logged.Ensures.bind (Logged.Ensures.tellAll fun e he => ?_) fun _ _ =>
    Logged.Ensures.pure trivial
  obtain ⟨j, hj, rfl⟩ := List.mem_map.mp he
  have := List.mem_range.mp hj
  change data + i + j < derLen
  omega

theorem readLength_ensures {data n i : ℕ} (acc : ℕ) (hi : i + n < 2 ^ 32)
    (h : data + (i + n) ≤ derLen) :
    (readLength mem data n i acc).Ensures (CallFits mem) (Within derLen) fun _ => True := by
  induction n generalizing i acc with
  | zero => exact Logged.Ensures.pure trivial
  | succ n ih =>
    rw [readLength, Nat.mod_eq_of_lt (by omega)]
    exact (readByte_ensures (by omega)).bind fun _ _ => ih _ (by omega) (by omega)

theorem readLengthField_ensures (hc : c.Inside derLen) (hfit : ¬ HeaderWraps mem c) :
    (readLengthField mem c (firstLenByte mem c)).Ensures (CallFits mem) (Within derLen)
      fun _ => True := by
  rw [readLengthField]
  split
  · next hlong =>
    have hnum : numLenBytes mem c = (firstLenByte mem c &&& 0x7F).toNat := if_pos hlong
    rw [← hnum]
    refine Logged.Ensures.require.bind fun _ hform =>
      Logged.Ensures.require.bind fun _ hheader => ?_
    have hlt : c.pos + 2 + numLenBytes mem c < 2 ^ 32 := by
      by_contra hwrap
      refine hfit (Or.inr ?_)
      rw [headerLen]
      omega
    rw [Nat.mod_eq_of_lt hlt] at hheader
    have := hc.data
    exact (readLength_ensures 0 hlt (by omega)).bind fun _ _ => Logged.Ensures.pure trivial
  · exact Logged.Ensures.pure trivial

theorem asn1ReadTlv_ensures (hc : c.Inside derLen) :
    (asn1ReadTlv mem c).Ensures (CallFits mem) (Within derLen) (Progress derLen c) := by
  have hlog : (asn1ReadTlv mem c).Ensures (CallFits mem) (Within derLen) fun _ => True := by
    refine (Logged.Ensures.tell fun _ => trivial).bind fun _ hfit =>
      Logged.Ensures.require.bind fun _ htwo => ?_
    have hlt : c.pos + 2 < 2 ^ 32 := by
      by_contra hwrap
      exact hfit.1 (Or.inl (by omega))
    have := hc.data
    rw [Nat.mod_eq_of_lt hlt] at htwo
    refine (readByte_ensures (by omega)).bind fun _ _ => (readByte_ensures ?_).bind fun b hb => ?_
    · rw [Nat.mod_eq_of_lt (by omega)]
      omega
    · rw [hb]
      exact (readLengthField_ensures hc hfit.1).bind fun _ _ =>
        Logged.Ensures.require.bind fun _ _ => Logged.Ensures.pure trivial
  refine fun hA => ⟨(hlog hA).1, fun r hr => ?_⟩
  have hfit : CallFits mem (.call c) := hA _ (by rw [asn1ReadTlv]; simp)
  obtain ⟨hforward, hbounded, hcontent, hend⟩ :=
    (asn1ReadTlv_advances_iff hc.len hc.pos).mpr hfit.2 r hr
  obtain ⟨-, -, rfl⟩ := asn1ReadTlv_eq_some_iff.mp hr
  have := hc.data
  have := hc.len
  exact ⟨⟨by omega, by omega⟩, ⟨hbounded, hc.len, hc.data⟩, rfl, rfl, hforward⟩

theorem expectTlv_ensures {tag : UInt8} (hc : c.Inside derLen) :
    (expectTlv mem c tag).Ensures (CallFits mem) (Within derLen) (Progress derLen c) :=
  (asn1ReadTlv_ensures hc).bind fun _ hr =>
    Logged.Ensures.require.bind fun _ _ => Logged.Ensures.pure hr

/-- An element inside the content of another one. -/
theorem expectTlv_enter_ensures {tag : UInt8} {t : Tlv} (ht : t.Inside derLen c.data) :
    (expectTlv mem (asn1Enter c t) tag).Ensures (CallFits mem) (Within derLen)
      (Progress derLen (asn1Enter c t)) :=
  expectTlv_ensures (.enter ht)

theorem stripLeadingZero_ensures {data : ℕ} {t : Tlv} (ht : t.Inside derLen data) :
    (stripLeadingZero mem data t).Ensures (CallFits mem) (Within derLen)
    (Tlv.Inside derLen data) := by
  obtain ⟨hlen, hdata⟩ := ht
  rw [stripLeadingZero]
  split
  · refine (readByte_ensures (by omega)).bind fun b _ => ?_
    split
    · exact Logged.Ensures.pure ⟨by simp only; omega, by simp only; omega⟩
    · exact Logged.Ensures.pure ⟨hlen, hdata⟩
  · exact Logged.Ensures.pure ⟨hlen, hdata⟩

theorem copyInteger_ensures {data : ℕ} {t : Tlv} (ht : t.Inside derLen data) (size : ℕ) :
    (copyInteger mem data t size).Ensures (CallFits mem) (Within derLen) fun _ => True :=
  (stripLeadingZero_ensures ht).bind fun n hn => Logged.Ensures.require.bind fun _ _ =>
    copyBytes_ensures (by have := hn.data; omega)

theorem parseRsaPublicKey_ensures {data len : ℕ} (hlen : len < 2 ^ 32) (h : data + len ≤ derLen) :
    (parseRsaPublicKey mem data len).Ensures (CallFits mem) (Within derLen) fun _ => True := by
  refine (expectTlv_ensures ⟨Nat.zero_le _, hlen, h⟩).bind fun key hkey =>
    (expectTlv_enter_ensures hkey.tlv).bind fun n hn =>
    (copyInteger_ensures hn.tlv _).bind fun _ _ =>
    (expectTlv_ensures hn.cursor).bind fun e he => (copyInteger_ensures ?_ _).bind fun _ _ =>
    Logged.Ensures.pure trivial
  have := he.tlv
  rwa [hn.data] at this

theorem requireCommonNameOid_ensures {data : ℕ} {oid : Tlv} (h : oid.Inside derLen data) :
    (requireCommonNameOid mem data oid).Ensures (CallFits mem) (Within derLen) fun _ => True := by
  obtain ⟨hlen, hdata⟩ := h
  refine Logged.Ensures.require.bind fun _ hthree => ?_
  refine (readByte_ensures (by omega)).bind fun _ _ => Logged.Ensures.require.bind fun _ _ => ?_
  rw [Nat.mod_eq_of_lt (show oid.offset + 1 < 2 ^ 32 by omega),
    Nat.mod_eq_of_lt (show oid.offset + 2 < 2 ^ 32 by omega)]
  refine (readByte_ensures (by omega)).bind fun _ _ => Logged.Ensures.require.bind fun _ _ => ?_
  exact (readByte_ensures (by omega)).bind fun _ _ =>
    Logged.Ensures.require.weaken fun _ _ => trivial

theorem readCommonName_ensures {rdnSeq : Asn1Cursor} {t : Tlv} (ht : t.Inside derLen rdnSeq.data) :
    (readCommonName mem rdnSeq t).Ensures (CallFits mem) (Within derLen)
      (Tlv.Inside derLen rdnSeq.data) := by
  refine Logged.Ensures.require.bind fun _ _ => (expectTlv_enter_ensures ht).bind fun r hr =>
    (expectTlv_enter_ensures hr.tlv).bind fun oid hoid =>
    (requireCommonNameOid_ensures hoid.tlv).bind fun _ _ =>
    (asn1ReadTlv_ensures hoid.cursor).bind fun val hval => Logged.Ensures.require.bind fun _ _ =>
    Logged.Ensures.pure ?_
  have := hval.tlv
  rwa [hoid.data] at this

/-- Every turn moves the cursor forward, so that the loop ends before the fuel does. -/
theorem selectCommonName_ensures {fuel : ℕ} {rdnSeq : Asn1Cursor} (hc : rdnSeq.Inside derLen)
    (hfuel : rdnSeq.len - rdnSeq.pos < fuel) :
    (selectCommonName mem fuel rdnSeq).Ensures (CallFits mem) (Within derLen)
      fun r => ∀ val, r = some val → val.Inside derLen rdnSeq.data := by
  induction fuel generalizing rdnSeq with
  | zero => exact absurd hfuel (Nat.not_lt_zero _)
  | succ fuel ih =>
    refine (asn1ReadTlv_ensures hc).attempt.bind fun r hr => ?_
    cases r with
    | none => exact Logged.Ensures.pure fun _ h => absurd h (by simp)
    | some r =>
      obtain ⟨htlv, hcursor, hdata, hlen, hforward⟩ := hr r rfl
      refine (readCommonName_ensures (hdata ▸ htlv)).attempt.bind fun val hval => ?_
      cases val with
      | some val =>
        refine Logged.Ensures.pure fun v hv => ?_
        rw [← Option.some.inj hv, ← hdata]
        exact hval val rfl
      | none =>
        rw [← hdata]
        have := hcursor.pos
        exact ih hcursor (by omega)

theorem findCommonName_ensures {fuel data : ℕ} {t : Tlv} (ht : t.Inside derLen data)
    (hfuel : derLen < fuel) (out : List UInt8) :
    (findCommonName mem fuel data t out).Ensures (CallFits mem) (Within derLen) fun _ => True := by
  obtain ⟨hlen, hdata⟩ := ht
  have hmod : (t.offset + t.len) % 2 ^ 32 = t.offset + t.len := Nat.mod_eq_of_lt hlen
  rw [findCommonName, hmod]
  have hselect :
    (selectCommonName mem fuel ⟨data, t.offset + t.len, t.offset⟩).Ensures (CallFits mem)
      (Within derLen) fun r => ∀ val, r = some val → val.Inside derLen data :=
    selectCommonName_ensures ⟨Nat.le_add_right _ _, hlen, hdata⟩ (by simp only; omega)
  refine hselect.bind fun r hr => ?_
  cases r with
  | none => exact Logged.Ensures.pure trivial
  | some val =>
    have hval := (hr val rfl).data
    refine (copyBytes_ensures ?_).bind fun _ _ => Logged.Ensures.pure trivial
    omega

theorem readSubject_ensures (h : derLen < 2 ^ 32) :
    (readSubject mem derLen).Ensures (CallFits mem) (Within derLen) fun r =>
      r.1.Inside derLen r.2.data ∧ r.2.Inside derLen := by
  refine (expectTlv_ensures ⟨Nat.zero_le _, h, (Nat.zero_add _).le⟩).bind fun certificate h₁ =>
    (expectTlv_enter_ensures h₁.tlv).bind fun tbsCertificate h₂ =>
    (asn1ReadTlv_ensures (.enter h₂.tlv)).bind fun version h₃ => ?_
  refine (expectTlv_ensures ?_).bind fun _ h₄ => (expectTlv_ensures h₄.cursor).bind fun _ h₅ =>
    (expectTlv_ensures h₅.cursor).bind fun _ h₆ => (expectTlv_ensures h₆.cursor).bind fun _ h₇ =>
    (expectTlv_ensures h₇.cursor).weaken fun _ h₈ => ⟨h₈.data ▸ h₈.tlv, h₈.cursor⟩
  split
  · exact ⟨h₃.forward.le.trans h₃.cursor.pos, h₃.cursor.len, h₃.cursor.data⟩
  · exact h₃.cursor

theorem readPublicKey_ensures {tbs : Asn1Cursor} (h : tbs.Inside derLen) :
    (readPublicKey mem tbs).Ensures (CallFits mem) (Within derLen) fun _ => True := by
  refine (expectTlv_ensures h).bind fun info h₁ => (expectTlv_enter_ensures h₁.tlv).bind fun _ h₂ =>
    (expectTlv_ensures h₂.cursor).bind fun key h₃ => Logged.Ensures.require.bind fun _ hpos => ?_
  obtain ⟨hlen, hdata⟩ := h₃.tlv
  rw [h₂.data, show (asn1Enter tbs info.1).data = tbs.data from rfl] at hdata
  exact (readByte_ensures (by omega)).bind fun _ _ => Logged.Ensures.require.bind fun _ _ =>
    parseRsaPublicKey_ensures (by omega) (by omega)

/-- A parse in which no sum wraps around terminates and reads only the certificate. -/
theorem x509ParseCertificate_within {fuel : ℕ} (hlen : derLen < 2 ^ 32) (hfuel : derLen < fuel)
    (hfit : ∀ e ∈ (x509ParseCertificate mem fuel derLen).log, CallFits mem e) :
    ∀ e ∈ (x509ParseCertificate mem fuel derLen).log, Within derLen e := by
  have hensures : (x509ParseCertificate mem fuel derLen).Ensures (CallFits mem) (Within derLen)
      fun _ => True :=
    (readSubject_ensures hlen).bind fun _ hsubject =>
      (findCommonName_ensures hsubject.1 hfuel _).bind fun _ _ =>
      (readPublicKey_ensures hsubject.2).bind fun _ _ => Logged.Ensures.pure trivial
  exact (hensures hfit).1

end Parse

/-- A call of the reader is safe exactly where no length wraps around, and the parser is on every
    certificate that makes no sum of the reader wrap around. -/
theorem asn1Reader_safe_iff (mem : ℕ → UInt8) (hlen : c.len < 2 ^ 32) (hpos : c.pos ≤ c.len)
    {fuel : ℕ} (hder : derLen < 2 ^ 32) (hfuel : derLen < fuel) :
    ((∀ r, (asn1ReadTlv mem c).value = some r → Advances c r) ↔ ¬ LengthWraps mem c) ∧
    ((∀ e ∈ (x509ParseCertificate mem fuel derLen).log, CallFits mem e) →
      ∀ e ∈ (x509ParseCertificate mem fuel derLen).log, Within derLen e) :=
  ⟨asn1ReadTlv_advances_iff hlen hpos, x509ParseCertificate_within hder hfuel⟩

section Runs

/-- A certificate without a version, whose subject is the common name `a`. -/
def shortDer : List UInt8 :=
  [0x30, 0x28, 0x30, 0x26, 0x02, 0x01, 0x01, 0x30, 0x00, 0x30, 0x00, 0x30, 0x00,
    0x30, 0x0C, 0x31, 0x0A, 0x30, 0x08, 0x06, 0x03, 0x55, 0x04, 0x03, 0x0C, 0x01, 0x61,
    0x30, 0x0D, 0x30, 0x00, 0x03, 0x09, 0x00, 0x30, 0x06, 0x02, 0x01, 0x05, 0x02, 0x01, 0x03]

theorem asn1Reader_safe_shortDer :
    (∀ r, (asn1ReadTlv (shortDer.getD · 0) ⟨0, 42, 0⟩).value = some r →
      Advances ⟨0, 42, 0⟩ r) ∧
    ∀ e ∈ (x509ParseCertificate (shortDer.getD · 0) 43 42).log, Within 42 e :=
  have hsafe := asn1Reader_safe_iff (c := ⟨0, 42, 0⟩) (shortDer.getD · 0) (by decide) (by decide)
    (show 42 < 2 ^ 32 by decide) (show 42 < 43 by decide)
  ⟨hsafe.1.mpr (by decide), hsafe.2 (by decide)⟩

/-- A cursor that stands still in the subject is read again and again. -/
theorem selectCommonName_stuck {t : Tlv} (h : (asn1ReadTlv mem c).value = some (t, c))
    (htag : t.tag ≠ asn1Set) (fuel : ℕ) : Event.exhausted ∈ (selectCommonName mem fuel c).log := by
  induction fuel with
  | zero => exact List.mem_singleton_self _
  | succ fuel ih =>
    have hnone : (readCommonName mem c t).value = none := by
      rw [readCommonName, Logged.value_bind, Logged.value_require, if_neg htag, Option.bind_none]
    rw [selectCommonName, Logged.log_bind, Logged.value_attempt, h]
    refine List.mem_append_right _ ?_
    simp only [Option.map_some, Option.getD_some, Logged.log_bind, Logged.value_attempt, hnone]
    exact List.mem_append_right _ ih

/-- The first element of the subject has 2 ^ 32 - 6 bytes. -/
def loopingDer : List UInt8 :=
  [0x30, 0x13, 0x30, 0x11, 0x02, 0x01, 0x01, 0x30, 0x00, 0x30, 0x00, 0x30, 0x00,
    0x30, 0x06, 0x02, 0x84, 0xFF, 0xFF, 0xFF, 0xFA]

/-- Its header and its content together have 2 ^ 32 bytes: the cursor does not move. -/
theorem loopingDer_diverges :
    (¬ ∀ (mem : ℕ → UInt8) (c : Asn1Cursor), c.len < 2 ^ 32 → c.pos ≤ c.len →
      ∀ r, (asn1ReadTlv mem c).value = some r → Advances c r) ∧
    ∀ fuel, Event.exhausted ∈
      (x509ParseCertificate (loopingDer.getD · 0) fuel loopingDer.length).log := by
  have hstuck : (asn1ReadTlv (loopingDer.getD · 0) ⟨0, 21, 15⟩).value =
      some (⟨0x02, 21, 0xFFFFFFFA⟩, ⟨0, 21, 15⟩) := by decide
  refine ⟨fun h => ?_, fun fuel => ?_⟩
  · have := (h _ ⟨0, 21, 15⟩ (by decide) (by decide) _ hstuck).forward
    exact absurd this (by decide)
  · have hsubject : (readSubject (loopingDer.getD · 0) loopingDer.length).value =
        some (⟨0x30, 15, 6⟩, ⟨0, 21, 21⟩) := by decide
    have hloop := selectCommonName_stuck hstuck (by decide) fuel
    rw [x509ParseCertificate, Logged.log_bind, hsubject]
    refine List.mem_append_right _ ?_
    simp only [Option.map_some, Option.getD_some, Logged.log_bind, findCommonName]
    exact List.mem_append_left _ (List.mem_append_left _ hloop)

end Runs

end AuroraOS.X509
