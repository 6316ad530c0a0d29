import AuroraOS.X509.Asn1

/-!
# Elements in DER

An element is its tag, the length of its content in the shortest form, and the content. The reader
finds in memory what has been encoded.

## Main definitions

- `derLength`, `derTlv`
- `Reads` — the bytes that are left to a cursor
- `Tlv.Holds` — the content of an element that has been read

## Main results

- `Reads.asn1ReadTlv`
- `Reads.asn1Enter`
-/

namespace AuroraOS.X509

set_option maxRecDepth 4096

open AuroraOS.Lib

/-- A length, in the short form if it fits. -/
def derLength (n : ℕ) : List UInt8 :=
  if n < 128 then [UInt8.ofNat n] else UInt8.ofNat (128 + (beBytes n).length) :: beBytes n

def derTlv (tag : UInt8) (content : List UInt8) : List UInt8 :=
  tag :: derLength content.length ++ content

variable {mem : ℕ → UInt8}

section Memory

/-- The bytes at an address. -/
def HasAt (mem : ℕ → UInt8) (a : ℕ) (bs : List UInt8) : Prop := bytesAt mem a bs.length = bs

theorem bytesAt_add (a m n : ℕ) :
    bytesAt mem a (m + n) = bytesAt mem a m ++ bytesAt mem (a + m) n := by
  simp only [bytesAt, List.range_add, List.map_append, List.map_map, Function.comp_def,
    Nat.add_assoc]

theorem hasAt_append {a : ℕ} {xs ys : List UInt8} :
    HasAt mem a (xs ++ ys) ↔ HasAt mem a xs ∧ HasAt mem (a + xs.length) ys := by
  rw [HasAt, List.length_append, bytesAt_add]
  constructor
  · intro h
    exact List.append_inj h (by simp)
  · rintro ⟨hx, hy⟩
    rw [hx, hy]

theorem hasAt_cons {a : ℕ} {b : UInt8} {bs : List UInt8} :
    HasAt mem a (b :: bs) ↔ mem a = b ∧ HasAt mem (a + 1) bs := by
  rw [← List.singleton_append, hasAt_append, HasAt, List.length_singleton]
  exact and_congr_left fun _ => List.singleton_inj

/-- A buffer is at address 0. -/
theorem hasAt_zero_of_getElem {bs : List UInt8}
    (h : ∀ i (hi : i < bs.length), mem i = bs[i]) : HasAt mem 0 bs := by
  refine List.ext_getElem (by simp) fun i _ hi => ?_
  simp [bytesAt, h i hi]

end Memory

section Length

theorem and_highBit {b : UInt8} : b &&& 0x80 ≠ 0 ↔ 128 ≤ b.toNat := by
  have hall : ∀ b : Fin 256, UInt8.ofFin b &&& 0x80 ≠ 0 ↔ 128 ≤ (UInt8.ofFin b).toNat := by
    decide
  exact hall b.toFin

theorem and_lowBits {k : ℕ} (hk : k < 128) : (UInt8.ofNat (128 + k) &&& 0x7F).toNat = k := by
  have hall : ∀ k : Fin 128, (UInt8.ofNat (128 + k) &&& 0x7F).toNat = k := by decide
  exact hall ⟨k, hk⟩

variable {c : Asn1Cursor} {content : List UInt8}

/-- The header of an element, as the reader sees it. -/
theorem header_of_derLength {n : ℕ} (hn : n < 2 ^ 24) (hpos : c.pos + 6 < 2 ^ 32)
    (h : HasAt mem (c.data + (c.pos + 1)) (derLength n)) :
    headerLen mem c = 1 + (derLength n).length ∧ contentLen mem c = n ∧
      (firstLenByte mem c &&& 0x80 ≠ 0 → 0 < numLenBytes mem c ∧ numLenBytes mem c ≤ 4) := by
  have hfirst : firstLenByte mem c = mem (c.data + (c.pos + 1)) := by
    rw [firstLenByte, Nat.mod_eq_of_lt (by omega)]
  rw [derLength] at h ⊢
  split at h
  · next hshort =>
    obtain ⟨hb, -⟩ := hasAt_cons.mp h
    have hval : (firstLenByte mem c).toNat = n := by
      rw [hfirst, hb, UInt8.toNat_ofNat', Nat.mod_eq_of_lt (by omega)]
    have hform : ¬ firstLenByte mem c &&& 0x80 ≠ 0 := by
      rw [and_highBit, hval]
      omega
    rw [if_pos hshort, headerLen, numLenBytes, contentLen, if_neg hform, if_neg hform]
    exact ⟨rfl, hval, fun hlong => absurd hlong hform⟩
  · next hlong =>
    obtain ⟨hb, hbytes⟩ := hasAt_cons.mp h
    have hle : (beBytes n).length ≤ 3 := length_beBytes_le_iff.mpr hn
    have hpos' : 0 < (beBytes n).length := length_beBytes_pos (by omega)
    rw [← hfirst] at hb
    have hform : firstLenByte mem c &&& 0x80 ≠ 0 := by
      rw [and_highBit, hb, UInt8.toNat_ofNat', Nat.mod_eq_of_lt (by omega)]
      omega
    have hnum : numLenBytes mem c = (beBytes n).length := by
      rw [numLenBytes, if_pos hform, hb, and_lowBits (by omega)]
    have hcontent : ((List.range (beBytes n).length).map fun i =>
        mem (c.data + (c.pos + 2 + i) % 2 ^ 32)) = beBytes n := by
      refine Eq.trans (List.map_congr_left fun i hi => ?_) hbytes
      have := List.mem_range.mp hi
      rw [Nat.mod_eq_of_lt (by omega), ← Nat.add_assoc, ← Nat.add_assoc, ← Nat.add_assoc]
    rw [if_neg hlong, headerLen, contentLen, if_pos hform, hnum, hcontent, beValue_beBytes,
      List.length_cons]
    exact ⟨by omega, rfl, fun _ => ⟨hpos', by omega⟩⟩

end Length

/-- The bytes that are left to a cursor. -/
structure Reads (mem : ℕ → UInt8) (c : Asn1Cursor) (bs : List UInt8) : Prop where
  len : c.len < 2 ^ 24
  rest : c.pos + bs.length = c.len
  bytes : HasAt mem (c.data + c.pos) bs

/-- The content of an element. -/
structure Tlv.Holds (mem : ℕ → UInt8) (data : ℕ) (t : Tlv) (content : List UInt8) : Prop where
  bound : t.offset + t.len < 2 ^ 24
  len : t.len = content.length
  bytes : HasAt mem (data + t.offset) content

variable {c : Asn1Cursor}

theorem Reads.asn1Enter {t : Tlv} {content : List UInt8} (h : t.Holds mem c.data content) :
    Reads mem (asn1Enter c t) content := by
  have hmod : (t.offset + t.len) % 2 ^ 32 = t.offset + t.len :=
    Nat.mod_eq_of_lt (h.bound.trans (by decide))
  refine ⟨?_, ?_, h.bytes⟩ <;> rw [X509.asn1Enter, hmod]
  · exact h.bound
  · rw [h.len]

/-- At the end of its bytes a cursor reads nothing. -/
theorem Reads.asn1ReadTlv_nil (h : Reads mem c []) : (asn1ReadTlv mem c).value = none := by
  refine Option.eq_none_iff_forall_ne_some.mpr fun r hr => ?_
  have htwo := (asn1ReadTlv_eq_some_iff.mp hr).1.two
  have hlen := h.len
  have hrest := h.rest
  rw [List.length_nil] at hrest
  rw [Nat.mod_eq_of_lt (by omega)] at htwo
  omega

/-- An element is read as it was encoded, and the cursor is then at the next one. -/
theorem Reads.asn1ReadTlv {tag : UInt8} {content rest : List UInt8}
    (h : Reads mem c (derTlv tag content ++ rest)) :
    ∃ r, (asn1ReadTlv mem c).value = some r ∧ r.1.tag = tag ∧ r.1.Holds mem c.data content ∧
      r.2.data = c.data ∧ Reads mem r.2 rest := by
  obtain ⟨hlen, hrest, hbytes⟩ := h
  obtain ⟨htlv, hafter⟩ := hasAt_append.mp hbytes
  rw [derTlv, List.cons_append] at htlv
  obtain ⟨htag, htail⟩ := hasAt_cons.mp htlv
  obtain ⟨hlength, hcontent⟩ := hasAt_append.mp htail
  rw [List.length_append] at hrest
  have hsize : (derTlv tag content).length =
      1 + (derLength content.length).length + content.length := by
    rw [derTlv, List.length_append, List.length_cons, Nat.add_comm 1]
  rw [hsize] at hrest hafter
  rw [Nat.add_assoc] at hlength
  obtain ⟨hheader, hlen', hform⟩ := header_of_derLength (c := c) (by omega) (by omega) hlength
  have hend : declaredEnd mem c =
    c.pos + (1 + (derLength content.length).length + content.length) := by
    rw [declaredEnd, hheader, hlen', Nat.add_assoc]
  have htwo := Nat.le_add_right 2 (numLenBytes mem c)
  rw [← headerLen, hheader] at htwo
  refine ⟨_, asn1ReadTlv_eq_some_iff.mpr ⟨⟨?_, hform, ?_⟩, ?_, rfl⟩, htag, ?_, rfl, ?_⟩
  · rw [Nat.mod_eq_of_lt (by omega)]
    omega
  · rw [hheader, Nat.mod_eq_of_lt (by omega)]
    omega
  · rw [hend, Nat.mod_eq_of_lt (by omega)]
    omega
  · have hoffset : (c.pos + headerLen mem c) % 2 ^ 32 =
        c.pos + (1 + (derLength content.length).length) := by
      rw [hheader, Nat.mod_eq_of_lt (by omega)]
    refine ⟨?_, hlen', ?_⟩
    · simp only [tlvAt, hoffset, hlen']
      omega
    · simp only [tlvAt, hoffset]
      rwa [← Nat.add_assoc, ← Nat.add_assoc]
  · rw [hend, Nat.mod_eq_of_lt (by omega)]
    exact ⟨hlen, by simp only; omega, by simpa only [← Nat.add_assoc] using hafter⟩

end AuroraOS.X509
