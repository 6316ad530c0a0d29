import Mathlib.Data.List.Basic
import Mathlib.Tactic.Common

/-!
# Keyed hashes

The keyed hash of RFC 2104 over any hash function, and the expansion of a secret into any number of
bytes of RFC 5246, section 5, over any keyed hash.

## Main definitions

- `KeyedHash.hmac`
- `KeyedHash.pHash`

## Main results

- `KeyedHash.pHash_eq_take`
-/

namespace AuroraOS.Lib.KeyedHash

section Definitions

def hmac (hash : List UInt8 → List UInt8) (blockSize : ℕ) (key text : List UInt8) : List UInt8 :=
  let key := if key.length > blockSize then hash key else key
  let key := key ++ List.replicate (blockSize - key.length) 0
  let ipad := List.replicate blockSize 0x36
  let opad := List.replicate blockSize 0x5c
  hash (key.zipWith (· ^^^ ·) opad ++ hash (key.zipWith (· ^^^ ·) ipad ++ text))

variable (mac : List UInt8 → List UInt8) (seed : List UInt8)

/-- `A(i)`. -/
def chain : ℕ → List UInt8
  | 0 => seed
  | i + 1 => mac (chain i)

/-- The first `k` blocks of the expansion. -/
def pHashBlocks (k : ℕ) : List UInt8 :=
  (List.range k).flatMap fun i => mac (chain mac seed (i + 1) ++ seed)

/-- The first `n` bytes of the expansion, which its first `n` blocks contain. -/
def pHash (n : ℕ) : List UInt8 := (pHashBlocks mac seed n).take n

end Definitions

section Expansion

variable {mac : List UInt8 → List UInt8} {seed : List UInt8} {size k m n : ℕ}

theorem pHashBlocks_zero : pHashBlocks mac seed 0 = [] := rfl

theorem pHashBlocks_succ (k : ℕ) :
    pHashBlocks mac seed (k + 1) =
      pHashBlocks mac seed k ++ mac (chain mac seed (k + 1) ++ seed) := by
  rw [pHashBlocks, pHashBlocks, List.range_succ, List.flatMap_append, List.flatMap_singleton]

theorem length_pHashBlocks (hmac : ∀ text, (mac text).length = size) (k : ℕ) :
    (pHashBlocks mac seed k).length = size * k := by
  induction k with
  | zero => rfl
  | succ k ih => rw [pHashBlocks_succ, List.length_append, ih, hmac, Nat.mul_succ]

theorem pHashBlocks_prefix (h : k ≤ m) : pHashBlocks mac seed k <+: pHashBlocks mac seed m := by
  induction h with
  | refl => exact List.prefix_refl _
  | step _ ih =>
    rw [pHashBlocks_succ]
    exact ih.trans (List.prefix_append _ _)

/-- Any number of blocks that has the bytes gives the same bytes. -/
theorem pHash_eq_take (hmac : ∀ text, (mac text).length = size) (hsize : 0 < size)
    (hk : n ≤ size * k) : pHash mac seed n = (pHashBlocks mac seed k).take n := by
  have hn : n ≤ size * n := Nat.le_mul_of_pos_left n hsize
  have htake : ∀ {a b : ℕ}, a ≤ b → n ≤ size * a →
      (pHashBlocks mac seed b).take n = (pHashBlocks mac seed a).take n := by
    intro a b hab ha
    obtain ⟨rest, hrest⟩ : pHashBlocks mac seed a <+: pHashBlocks mac seed b :=
      pHashBlocks_prefix hab
    rw [← hrest, List.take_append_of_le_length]
    rwa [length_pHashBlocks hmac]
  rw [pHash]
  obtain hle | hle := Nat.le_total n k
  · exact (htake hle hn).symm
  · exact htake hle hk

end Expansion

end AuroraOS.Lib.KeyedHash
