import AuroraOS.Inflate.Parse

/-!
# Streams that are cut off

Past the end of the data the bit reader returns zeros, and the decompressor does not notice. So a
stream that is cut off decodes as if zero bits followed, but for its stored blocks, whose ends are
checked.

## Main definitions

- `RefusesTruncated` — nothing is decoded from bits behind the data

## Main results

- `inflateRaw_refusesTruncated_iff`
-/

namespace AuroraOS.Inflate.Traced

set_option maxRecDepth 16384

open AuroraOS.Lib AuroraOS.Lib.Logged

/-- What is decoded is decoded from bits of the data. -/
def RefusesTruncated (data : List UInt8) (outMax : ℕ) : Prop :=
  ∀ fuel out, (inflateRaw data data.length outMax fuel).value = some out → out ≠ [] →
    ∀ br, .bit br ∈ (inflateRaw data data.length outMax fuel).log → br.bytePos < data.length

theorem posOf_zero : posOf 0 = brInit := rfl

/-- Truncated data is refused, unless the bits of a stream that goes on behind the data are all
    zeros there. -/
theorem inflateRaw_refusesTruncated_iff (data : List UInt8) (outMax : ℕ)
    (hlen : data.length < 2 ^ 32) :
    RefusesTruncated data outMax ↔
      ∀ out stop, StreamAt data outMax [] 0 out stop → out ≠ [] → stop ≤ 8 * data.length := by
  constructor
  · intro h out stop hstream hnil
    obtain ⟨n, hyields⟩ := inflateBlocks_yields hlen hstream (Nat.zero_le _)
    have hfuel : n ≤ n + outMax + 1 ∧ outMax < n + outMax + 1 := by omega
    obtain ⟨hvalue, hbit⟩ := hyields (n + outMax + 1) hfuel.1 (n + outMax + 1) hfuel.2
    rw [posOf_zero] at hvalue hbit
    by_contra hmore
    have hread := h _ out hvalue hnil _ (hbit (Nat.zero_le _) (Nat.lt_of_not_le hmore))
    rw [bytePos_posOf, Nat.mod_eq_of_lt hlen] at hread
    exact lt_irrefl _ hread
  · intro h fuel out hvalue hnil br hbr
    rw [inflateRaw, ← posOf_zero] at hvalue hbr
    obtain ⟨stop, hstream, -, hbits⟩ := inflateBlocks_finds hlen (Nat.zero_le _) hvalue
    obtain ⟨i, hi, rfl⟩ := hbits br hbr
    have hstop := h out stop hstream hnil
    have hle := Nat.mod_le (i / 8) (2 ^ 32)
    simp only [posOf]
    omega

theorem letterStream_refusesTruncated_iff :
    RefusesTruncated [0x4B, 0x04, 0x00] 16 ↔
      ∀ out stop, StreamAt [0x4B, 0x04, 0x00] 16 [] 0 out stop → out ≠ [] → stop ≤ 8 * 3 :=
  inflateRaw_refusesTruncated_iff _ _ (by decide)

/-- A letter, in three bytes; the last one holds bits of the end of the block. Two bytes decode to
    the letter as well. -/
theorem letterStream_truncated :
    (inflateRaw [0x4B, 0x04, 0x00] 3 16 20).value = some [0x61] ∧
      .bit ⟨2, 0, by decide, by decide⟩ ∈ (inflateRaw [0x4B, 0x04, 0x00] 3 16 20).log ∧
      (inflateRaw [0x4B, 0x04] 2 16 20).value = some [0x61] ∧
        ¬ RefusesTruncated [0x4B, 0x04] 16 := by
  have hvalue : (inflateRaw [0x4B, 0x04] 2 16 20).value = some [0x61] := by decide
  have hbit : .bit ⟨2, 0, by decide, by decide⟩ ∈ (inflateRaw [0x4B, 0x04] 2 16 20).log := by
    decide
  refine ⟨by decide, by decide, hvalue, fun h => ?_⟩
  exact absurd (h 20 _ hvalue (by decide) _ hbit) (by decide)

end AuroraOS.Inflate.Traced
