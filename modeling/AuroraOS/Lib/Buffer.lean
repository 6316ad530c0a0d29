import Mathlib.Data.List.Basic
import Mathlib.Tactic.Common

/-!
# Buffers of a fixed size

A buffer that is filled from the front, with stores and loads that fail outside it. Its first
contents are arbitrary, so a load is only known where something was stored.

## Main definitions

- `Buffer.store`, `Buffer.load`
- `Buffer.StartsWith` — what is known of the contents

## Main results

- `Buffer.StartsWith.store`, `Buffer.StartsWith.load`
-/

namespace AuroraOS.Lib

/-- The contents of `n` bytes of memory. -/
structure Buffer (n : ℕ) where
  bytes : List UInt8
  length_bytes : bytes.length = n

namespace Buffer

variable {n i len : ℕ} {buf : Buffer n} {front bs : List UInt8}

def store (buf : Buffer n) (i : ℕ) (bs : List UInt8) : Option (Buffer n) :=
  if h : i + bs.length ≤ n then
    some ⟨buf.bytes.take i ++ bs ++ buf.bytes.drop (i + bs.length), by
      have hlen := buf.length_bytes
      simp only [List.length_append, List.length_take, List.length_drop]
      omega⟩
  else none

def load (buf : Buffer n) (i len : ℕ) : Option (List UInt8) :=
  if i + len ≤ n then some ((buf.bytes.drop i).take len) else none

theorem exists_store (buf : Buffer n) (h : i + bs.length ≤ n) :
    ∃ buf', buf.store i bs = some buf' ∧
      buf'.bytes = buf.bytes.take i ++ bs ++ buf.bytes.drop (i + bs.length) :=
  ⟨_, dif_pos h, rfl⟩

/-- The buffer holds `front` at its start. -/
def StartsWith (buf : Buffer n) (front : List UInt8) : Prop := front <+: buf.bytes

theorem startsWith_nil (buf : Buffer n) : buf.StartsWith [] := List.nil_prefix

theorem StartsWith.length_le (h : buf.StartsWith front) : front.length ≤ n := by
  have hle := List.IsPrefix.length_le h
  rwa [buf.length_bytes] at hle

theorem StartsWith.bytes_eq (h : buf.StartsWith front) (hlen : front.length = n) :
    buf.bytes = front :=
  (List.IsPrefix.eq_of_length h (hlen.trans buf.length_bytes.symm)).symm

/-- A store right behind what is known extends it. -/
theorem StartsWith.store (h : buf.StartsWith front) (hi : i = front.length)
    (hfit : i + bs.length ≤ n) :
    ∃ buf', buf.store i bs = some buf' ∧ buf'.StartsWith (front ++ bs) := by
  obtain ⟨buf', hstore, hbytes⟩ := buf.exists_store hfit
  refine ⟨buf', hstore, ?_⟩
  rw [StartsWith, hbytes, hi, ← List.prefix_iff_eq_take.mp h]
  exact List.prefix_append _ _

theorem StartsWith.load (h : buf.StartsWith front) (hfit : i + len ≤ front.length) :
    buf.load i len = some ((front.drop i).take len) := by
  obtain ⟨rest, hrest⟩ := h
  have hlen : front.length ≤ n := StartsWith.length_le ⟨rest, hrest⟩
  rw [Buffer.load, if_pos (Nat.le_trans hfit hlen), ← hrest,
    List.drop_append_of_le_length (by omega), List.take_append_of_le_length]
  rw [List.length_drop]
  omega

/-- All that is known, in one load. -/
theorem StartsWith.load_front (h : buf.StartsWith front) (hlen : len = front.length) :
    buf.load 0 len = some front := by
  rw [h.load (by omega), List.drop_zero, List.take_of_length_le (by omega)]

end Buffer

end AuroraOS.Lib
