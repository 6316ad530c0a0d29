import AuroraOS.Lib.Logged
import AuroraOS.Lib.BigEndian

/-!
# The ASN.1 reader

`asn1_read_tlv` and `asn1_enter` of `kernel/x509.c`. A cursor reads from the bytes behind a pointer,
which nothing bounds but the tests of the code; the log of a call says where it has read. Positions
are 32-bit numbers.

## Main definitions

- `Asn1Cursor`, `Tlv`, `Event`
- `asn1ReadTlv`, `asn1Enter`
- `headerLen`, `contentLen` — what the bytes at the cursor declare

## Main results

- `asn1ReadTlv_eq_some_iff`
-/

namespace AuroraOS.X509

open AuroraOS.Lib

/-- `struct asn1_cursor`; `data` is the address of its first byte. -/
structure Asn1Cursor where
  data : ℕ
  len : ℕ
  pos : ℕ
  deriving DecidableEq

/-- The tag, and where the content is, behind `data`. -/
structure Tlv where
  tag : UInt8
  offset : ℕ
  len : ℕ
  deriving DecidableEq

/-- What the log of a computation lists. -/
inductive Event
  | /-- the byte at this address is read -/
    read (address : ℕ)
  | /-- `asn1_read_tlv` is called -/
    call (c : Asn1Cursor)
  | /-- a loop was cut off -/
    exhausted
  deriving DecidableEq

section Tags

def asn1Integer : UInt8 := 0x02
def asn1BitString : UInt8 := 0x03
def asn1Oid : UInt8 := 0x06
def asn1Utf8String : UInt8 := 0x0C
def asn1PrintableString : UInt8 := 0x13
def asn1Sequence : UInt8 := 0x30
def asn1Set : UInt8 := 0x31

/-- The tag of the version. -/
def versionTag : UInt8 := 0xA0

end Tags

variable (mem : ℕ → UInt8)

/-- `data[i]` -/
def readByte (data i : ℕ) : Logged Event UInt8 := do
  Logged.tell (.read (data + i))
  return mem (data + i)

/-- `n` bytes from an address on. -/
def bytesAt (a n : ℕ) : List UInt8 := (List.range n).map fun i => mem (a + i)

/-- The source of `memcpy` is `n` bytes from `data + i` on. -/
def copyBytes (data i n : ℕ) : Logged Event (List UInt8) := do
  Logged.tellAll ((List.range n).map fun j => .read (data + i + j))
  return bytesAt mem (data + i) n

/-- The loop over the bytes of a length in the long form: `n` of them are left, the next one is at
    `i`. -/
def readLength (data : ℕ) : ℕ → ℕ → ℕ → Logged Event ℕ
  | 0, _, contentLen => return contentLen
  | n + 1, i, contentLen => do
    let b ← readByte mem data (i % 2 ^ 32)
    readLength data n (i + 1) ((contentLen <<< 8) % 2 ^ 32 ||| b.toNat)

/-- `header_len` and `content_len`. -/
def readLengthField (c : Asn1Cursor) (firstLenByte : UInt8) : Logged Event (ℕ × ℕ) :=
  if firstLenByte &&& 0x80 ≠ 0 then do
    let numLenBytes := (firstLenByte &&& 0x7F).toNat
    Logged.require (¬ (numLenBytes = 0 ∨ 4 < numLenBytes))
    Logged.require ((c.pos + 2 + numLenBytes) % 2 ^ 32 ≤ c.len)
    let contentLen ← readLength mem c.data numLenBytes (c.pos + 2) 0
    return (2 + numLenBytes, contentLen)
  else
    return (2, firstLenByte.toNat)

/-- `asn1_read_tlv` -/
def asn1ReadTlv (c : Asn1Cursor) : Logged Event (Tlv × Asn1Cursor) := do
  Logged.tell (.call c)
  Logged.require ((c.pos + 2) % 2 ^ 32 ≤ c.len)
  let tag ← readByte mem c.data c.pos
  let firstLenByte ← readByte mem c.data ((c.pos + 1) % 2 ^ 32)
  let field ← readLengthField mem c firstLenByte
  Logged.require ((c.pos + field.1 + field.2) % 2 ^ 32 ≤ c.len)
  return (⟨tag, (c.pos + field.1) % 2 ^ 32, field.2⟩,
    { c with pos := (c.pos + field.1 + field.2) % 2 ^ 32 })

/-- `asn1_enter` -/
def asn1Enter (parent : Asn1Cursor) (t : Tlv) : Asn1Cursor :=
  ⟨parent.data, (t.offset + t.len) % 2 ^ 32, t.offset⟩

section Declared

/-- The byte after the tag. -/
def firstLenByte (c : Asn1Cursor) : UInt8 := mem (c.data + (c.pos + 1) % 2 ^ 32)

/-- How many bytes the length has in the long form. -/
def numLenBytes (c : Asn1Cursor) : ℕ :=
  if firstLenByte mem c &&& 0x80 ≠ 0 then (firstLenByte mem c &&& 0x7F).toNat else 0

/-- The length of the header at the cursor. -/
def headerLen (c : Asn1Cursor) : ℕ := 2 + numLenBytes mem c

/-- The length that the header at the cursor gives for the content. -/
def contentLen (c : Asn1Cursor) : ℕ :=
  if firstLenByte mem c &&& 0x80 ≠ 0 then
    beValue ((List.range (numLenBytes mem c)).map fun i => mem (c.data + (c.pos + 2 + i) % 2 ^ 32))
  else (firstLenByte mem c).toNat

/-- The header at the cursor passes the tests of the code. -/
structure HeaderAccepted (c : Asn1Cursor) : Prop where
  two : (c.pos + 2) % 2 ^ 32 ≤ c.len
  form : firstLenByte mem c &&& 0x80 ≠ 0 → 0 < numLenBytes mem c ∧ numLenBytes mem c ≤ 4
  header : (c.pos + headerLen mem c) % 2 ^ 32 ≤ c.len

/-- Where the content ends, without wrap-around. -/
def declaredEnd (c : Asn1Cursor) : ℕ := c.pos + headerLen mem c + contentLen mem c

/-- What `asn1_read_tlv` returns when it returns true. -/
def tlvAt (c : Asn1Cursor) : Tlv :=
  ⟨mem (c.data + c.pos), (c.pos + headerLen mem c) % 2 ^ 32, contentLen mem c⟩

end Declared

variable {mem} {c : Asn1Cursor}

@[simp] theorem value_readByte (data i : ℕ) : (readByte mem data i).value = some (mem (data + i)) :=
  rfl

@[simp] theorem log_readByte (data i : ℕ) : (readByte mem data i).log = [.read (data + i)] := rfl

@[simp] theorem value_copyBytes (data i n : ℕ) :
    (copyBytes mem data i n).value = some (bytesAt mem (data + i) n) := rfl

@[simp] theorem length_bytesAt (a n : ℕ) : (bytesAt mem a n).length = n := by
  rw [bytesAt, List.length_map, List.length_range]

theorem beValue_range_succ (f : ℕ → UInt8) (n : ℕ) :
    beValue ((List.range (n + 1)).map f) = 256 * beValue ((List.range n).map f) + (f n).toNat := by
  rw [List.range_succ, List.map_append, List.map_singleton, beValue_concat]

theorem beValue_range_lt (f : ℕ → UInt8) (n : ℕ) : beValue ((List.range n).map f) < 256 ^ n := by
  simpa using beValue_lt ((List.range n).map f)

/-- One turn of the loop shifts the number by a byte. -/
theorem shift_or_byte {n k : ℕ} (hk : k < 4) (hn : n < 256 ^ k) (b : UInt8) :
    (n <<< 8) % 2 ^ 32 ||| b.toNat = 256 * n + b.toNat := by
  have hn' : n < 2 ^ 24 :=
    hn.trans_le (Nat.pow_le_pow_right (by decide) (by omega) : 256 ^ k ≤ 256 ^ 3)
  rw [Nat.mod_eq_of_lt (by rw [Nat.shiftLeft_eq]; omega),
    ← Nat.shiftLeft_add_eq_or_of_lt b.toNat_lt, Nat.shiftLeft_eq, Nat.mul_comm]

/-- After `k` bytes, `n` are left. -/
theorem value_readLength (mem : ℕ → UInt8) (data i : ℕ) {n k : ℕ} (h : k + n ≤ 4) :
    (readLength mem data n (i + k)
      (beValue ((List.range k).map fun j => mem (data + (i + j) % 2 ^ 32)))).value =
      some (beValue ((List.range (k + n)).map fun j => mem (data + (i + j) % 2 ^ 32))) := by
  induction n generalizing k with
  | zero => rfl
  | succ n ih =>
    rw [readLength, Logged.value_bind, value_readByte, Option.bind_some,
      shift_or_byte (by omega) (beValue_range_lt _ k),
      ← beValue_range_succ fun j => mem (data + (i + j) % 2 ^ 32), Nat.add_assoc i k 1,
      ih (by omega), Nat.add_right_comm]
    rfl

theorem value_readLengthField (c : Asn1Cursor) :
    (readLengthField mem c (firstLenByte mem c)).value =
      if (firstLenByte mem c &&& 0x80 ≠ 0 → 0 < numLenBytes mem c ∧ numLenBytes mem c ≤ 4 ∧
          (c.pos + headerLen mem c) % 2 ^ 32 ≤ c.len)
      then some (headerLen mem c, contentLen mem c) else none := by
  rw [readLengthField, headerLen, contentLen]
  by_cases hlong : firstLenByte mem c &&& 0x80 ≠ 0
  · have hnum : numLenBytes mem c = (firstLenByte mem c &&& 0x7F).toNat := if_pos hlong
    rw [if_pos hlong, if_pos hlong, ← hnum]
    simp only [Logged.value_bind, Logged.value_require, Logged.value_pure, ← Nat.add_assoc]
    by_cases hform : numLenBytes mem c = 0 ∨ 4 < numLenBytes mem c
    · have hnone : ¬ (0 < numLenBytes mem c ∧ numLenBytes mem c ≤ 4) := by omega
      rw [if_neg (not_not.mpr hform), Option.bind_none,
        if_neg fun h => hnone ⟨(h hlong).1, (h hlong).2.1⟩]
    by_cases hheader : (c.pos + 2 + numLenBytes mem c) % 2 ^ 32 ≤ c.len
    · have hlength := value_readLength mem c.data (c.pos + 2) (n := numLenBytes mem c)
        (k := 0) (by omega)
      rw [List.range_zero, List.map_nil, beValue_nil, Nat.add_zero, Nat.zero_add] at hlength
      rw [if_pos hform, if_pos hheader, if_pos fun _ => ⟨by omega, by omega, hheader⟩]
      simp only [Option.bind_some, hlength]
    · rw [if_pos hform, if_neg hheader, if_neg fun h => hheader (h hlong).2.2]
      rfl
  · have hnum : numLenBytes mem c = 0 := if_neg hlong
    rw [if_neg hlong, if_neg hlong, if_pos fun h => absurd h hlong, hnum]
    rfl

/-- When `asn1_read_tlv` returns true, and with what. -/
theorem asn1ReadTlv_eq_some_iff {r : Tlv × Asn1Cursor} :
    (asn1ReadTlv mem c).value = some r ↔ HeaderAccepted mem c ∧
      declaredEnd mem c % 2 ^ 32 ≤ c.len ∧
      r = (tlvAt mem c, { c with pos := declaredEnd mem c % 2 ^ 32 }) := by
  have hvalue : (asn1ReadTlv mem c).value =
      (if (c.pos + 2) % 2 ^ 32 ≤ c.len then some () else none).bind fun _ =>
        (readLengthField mem c (firstLenByte mem c)).value.bind fun field =>
          (if (c.pos + field.1 + field.2) % 2 ^ 32 ≤ c.len then some () else none).bind fun _ =>
            some (⟨mem (c.data + c.pos), (c.pos + field.1) % 2 ^ 32, field.2⟩,
              { c with pos := (c.pos + field.1 + field.2) % 2 ^ 32 }) := by
    rw [asn1ReadTlv]
    simp only [Logged.value_bind, Logged.value_tell, Logged.value_require, value_readByte,
      Logged.value_pure, Option.bind_some]
    rfl
  rw [hvalue, value_readLengthField]
  constructor
  · intro h
    simp only [Option.bind_eq_some_iff, Option.ite_none_right_eq_some, Option.some.injEq] at h
    obtain ⟨-, ⟨htwo, -⟩, field, ⟨hform, rfl⟩, -, ⟨hend, -⟩, rfl⟩ := h
    refine ⟨⟨htwo, fun hlong => ⟨(hform hlong).1, (hform hlong).2.1⟩, ?_⟩, hend, rfl⟩
    by_cases hlong : firstLenByte mem c &&& 0x80 ≠ 0
    · exact (hform hlong).2.2
    · rwa [headerLen, numLenBytes, if_neg hlong]
  · rintro ⟨haccept, hend, rfl⟩
    rw [if_pos haccept.two, if_pos fun hlong => ⟨(haccept.form hlong).1, (haccept.form hlong).2,
      haccept.header⟩]
    rw [declaredEnd] at hend ⊢
    simp only [Option.bind_some]
    rw [if_pos hend]
    rfl

end AuroraOS.X509
