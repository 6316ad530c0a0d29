import AuroraOS.X509.Decoding
import Mathlib.Data.List.TakeWhile

/-!
# The hostname check

`tls_connect` compares the name of the certificate with the hostname by `strcmp`. The name is an
ASN.1 string of any length and may contain zeros; it has been copied to an array of 128 bytes.

## Main definitions

- `strcmp`
- `selectedCommonName` — the value that `find_common_name` copies

## Main results

- `hostnameCheck_exact_iff`
-/

namespace AuroraOS.X509

set_option maxRecDepth 4096

open AuroraOS.Lib

/-- `strcmp`, on two arrays that contain a zero. -/
def strcmp : List UInt8 → List UInt8 → ℤ
  | a :: as, b :: bs => if a ≠ 0 ∧ a = b then strcmp as bs else a.toNat - b.toNat
  | _, _ => 0

/-- The value of the common name that `find_common_name` stops at. -/
def selectedCommonName (mem : ℕ → UInt8) (fuel derLen : ℕ) : Option Tlv :=
  (readSubject mem derLen).value.bind fun s =>
    (selectCommonName mem fuel
      ⟨s.2.data, (s.1.offset + s.1.len) % 2 ^ 32, s.1.offset⟩).value.join

/-- Two arrays compare as equal if they hold the same string. -/
theorem strcmp_eq_zero_iff {buf hostname : List UInt8} (hbuf : 0 ∈ buf) (hhost : 0 ∉ hostname) :
    strcmp buf (hostname ++ [0]) = 0 ↔ buf.takeWhile (· ≠ 0) = hostname := by
  induction buf generalizing hostname with
  | nil => exact absurd hbuf List.not_mem_nil
  | cons a buf ih =>
    cases hostname with
    | nil =>
      rw [List.nil_append, strcmp, if_neg fun h => h.1 h.2]
      by_cases ha : a = 0
      · simp [ha]
      · have hnat : a.toNat ≠ 0 := mt (UInt8.toNat_inj (b := 0)).mp ha
        simp [ha, hnat]
    | cons b hostname =>
      obtain ⟨hb, hrest⟩ := not_or.mp (mt List.mem_cons.mpr hhost)
      rw [List.cons_append, strcmp]
      by_cases hab : a ≠ 0 ∧ a = b
      · obtain ⟨ha, rfl⟩ := hab
        rw [if_pos ⟨ha, rfl⟩, ih ((List.mem_cons.mp hbuf).resolve_left (Ne.symm ha)) hrest]
        simp [ha]
      · have hne : a ≠ b := fun h => hab ⟨fun h' => hb (h' ▸ h), h⟩
        have hdiff : (a.toNat : ℤ) - b.toNat ≠ 0 := by
          rw [Ne, sub_eq_zero, Nat.cast_inj, UInt8.toNat_inj]
          exact hne
        rw [if_neg hab]
        refine iff_of_false hdiff fun h => ?_
        by_cases ha : a = 0 <;> simp [ha] at h
        exact hne h.1

variable {mem : ℕ → UInt8} {c : Asn1Cursor} {fuel derLen : ℕ}

theorem expectTlv_data {tag : UInt8} {r : Tlv × Asn1Cursor}
    (h : (expectTlv mem c tag).value = some r) : r.2.data = c.data := by
  rw [expectTlv, Logged.value_bind, Option.bind_eq_some_iff] at h
  obtain ⟨r', hr', h⟩ := h
  rw [Logged.value_bind, Logged.value_require, Logged.value_pure, Option.bind_eq_some_iff] at h
  obtain ⟨-, -, h⟩ := h
  obtain rfl := Option.some.inj h
  obtain ⟨-, -, rfl⟩ := asn1ReadTlv_eq_some_iff.mp hr'
  rfl

/-- All cursors of the parser read from the start of the certificate. -/
theorem readSubject_data {r : Tlv × Asn1Cursor} (h : (readSubject mem derLen).value = some r) :
    r.2.data = 0 := by
  rw [readSubject] at h
  simp only [Logged.value_bind, Option.bind_eq_some_iff] at h
  obtain ⟨_, -, _, -, r₃, h₃, r₄, h₄, r₅, h₅, r₆, h₆, r₇, h₇, h₈⟩ := h
  obtain ⟨-, -, rfl⟩ := asn1ReadTlv_eq_some_iff.mp h₃
  rw [expectTlv_data h₈, expectTlv_data h₇, expectTlv_data h₆, expectTlv_data h₅, expectTlv_data h₄]
  split <;> rfl

/-- The name of an accepted certificate is what was copied of the selected value. -/
theorem subjectCn_of_parse {out : X509Cert}
    (h : (x509ParseCertificate mem fuel derLen).value = some out) :
    out.subjectCn = nameBuffer mem 0 subjectCnSize (selectedCommonName mem fuel derLen) := by
  rw [x509ParseCertificate] at h
  simp only [Logged.value_bind, Option.bind_eq_some_iff, Logged.value_pure, Option.some.injEq] at h
  obtain ⟨s, hs, buf, hbuf, key, -, rfl⟩ := h
  rw [findCommonName_value, Option.map_eq_some_iff] at hbuf
  obtain ⟨r, hr, rfl⟩ := hbuf
  rw [selectedCommonName, hs, Option.bind_some, hr, Option.join_some, readSubject_data hs]

theorem zero_mem_nameBuffer (r : Option Tlv) : 0 ∈ nameBuffer mem 0 subjectCnSize r := by
  cases r with
  | none => exact List.mem_replicate.mpr ⟨by decide, rfl⟩
  | some val => exact List.mem_append_right _ List.mem_cons_self

theorem length_takeWhile_zero (xs ys : List UInt8) :
    ((xs ++ 0 :: ys).takeWhile (· ≠ 0)).length ≤ xs.length := by
  induction xs with
  | nil => simp
  | cons x xs ih =>
    rw [List.cons_append, List.takeWhile_cons]
    split
    · exact Nat.succ_le_succ ih
    · exact Nat.zero_le _

/-- The string in the array has at most 127 bytes. -/
theorem length_takeWhile_nameBuffer (val : Tlv) :
    ((nameBuffer mem 0 subjectCnSize (some val)).takeWhile (· ≠ 0)).length ≤ 127 := by
  refine (length_takeWhile_zero _ _).trans ?_
  rw [length_bytesAt]
  exact Nat.min_le_right _ _

/-- The check is exact for a certificate whose name fits and has no zero in it, and for no other. -/
theorem hostnameCheck_exact_iff {out : X509Cert}
    (h : (x509ParseCertificate mem fuel derLen).value = some out) :
    (∀ hostname : List UInt8, 0 ∉ hostname → strcmp out.subjectCn (hostname ++ [0]) = 0 →
      ∃ val, selectedCommonName mem fuel derLen = some val ∧
        bytesAt mem val.offset val.len = hostname) ↔
    ∃ val, selectedCommonName mem fuel derLen = some val ∧ val.len ≤ 127 ∧
      0 ∉ bytesAt mem val.offset val.len := by
  have hcn := subjectCn_of_parse h
  constructor
  · intro hexact
    have hzero : 0 ∉ out.subjectCn.takeWhile (· ≠ 0) := fun hmem => by
      simpa using List.mem_takeWhile_imp hmem
    have hmatch := (strcmp_eq_zero_iff (hcn ▸ zero_mem_nameBuffer _) hzero).mpr rfl
    obtain ⟨val, hval, hbytes⟩ := hexact _ hzero hmatch
    refine ⟨val, hval, ?_, hbytes ▸ hzero⟩
    have hle : ((nameBuffer mem 0 subjectCnSize (some val)).takeWhile (· ≠ 0)).length ≤ 127 :=
      length_takeWhile_nameBuffer val
    rw [← hval, ← hcn, ← hbytes, length_bytesAt] at hle
    exact hle
  · rintro ⟨val, hval, hle, hzero⟩ hostname hhost hmatch
    refine ⟨val, hval, ?_⟩
    have hname := (strcmp_eq_zero_iff (hcn ▸ zero_mem_nameBuffer _) hhost).mp hmatch
    have hne : ∀ b ∈ bytesAt mem val.offset val.len, decide (b ≠ 0) = true := fun b hb =>
      decide_eq_true fun h => hzero (h ▸ hb)
    have hmin : min val.len (subjectCnSize - 1) = val.len := Nat.min_eq_left hle
    rw [hcn, hval, nameBuffer, hmin, Nat.zero_add,
      List.takeWhile_append_of_pos hne] at hname
    simpa using hname

/-- The common name has three bytes, `a`, zero and `b`. -/
def nulCertificate : Certificate :=
  { shortCertificate with subject := [⟨commonNameOid, asn1Utf8String, [0x61, 0x00, 0x62]⟩] }

theorem hostnameCheck_exact_short :
    (x509ParseCertificate (shortCertificate.encode.getD · 0) 70 62).value =
      some ⟨[0x61, 0x2E, 0x63] ++ List.replicate 125 0, ⟨[0xC7], [3]⟩⟩ ∧
    ∀ hostname : List UInt8, 0 ∉ hostname →
      strcmp ([0x61, 0x2E, 0x63] ++ List.replicate 125 0) (hostname ++ [0]) = 0 →
      ∃ val, selectedCommonName (shortCertificate.encode.getD · 0) 70 62 = some val ∧
        bytesAt (shortCertificate.encode.getD · 0) val.offset val.len = hostname := by
  have hparse : (x509ParseCertificate (shortCertificate.encode.getD · 0) 70 62).value =
      some ⟨[0x61, 0x2E, 0x63] ++ List.replicate 125 0, ⟨[0xC7], [3]⟩⟩ := by decide
  exact ⟨hparse, (hostnameCheck_exact_iff hparse).mpr
    ⟨⟨asn1PrintableString, 43, 3⟩, by decide, by decide, by decide⟩⟩

/-- Its name passes for the hostname `a`. -/
theorem nulCertificate_matches :
    ¬ ∀ (mem : ℕ → UInt8) (fuel derLen : ℕ) (out : X509Cert),
      (x509ParseCertificate mem fuel derLen).value = some out →
      ∀ hostname : List UInt8, 0 ∉ hostname → strcmp out.subjectCn (hostname ++ [0]) = 0 →
        ∃ val, selectedCommonName mem fuel derLen = some val ∧
          bytesAt mem val.offset val.len = hostname := by
  intro h
  have hparse : (x509ParseCertificate (nulCertificate.encode.getD · 0) 60 50).value =
      some ⟨[0x61, 0x00, 0x62] ++ List.replicate 125 0, ⟨[0xC7], [3]⟩⟩ := by decide
  have hselected : selectedCommonName (nulCertificate.encode.getD · 0) 60 50 =
      some ⟨asn1Utf8String, 31, 3⟩ := by decide
  obtain ⟨val, hval, hbytes⟩ := h _ _ _ _ hparse [0x61] (by decide) (by decide)
  rw [hselected] at hval
  obtain rfl := Option.some.inj hval
  exact absurd (congrArg List.length hbytes) (by decide)

end AuroraOS.X509
