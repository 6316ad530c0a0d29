import AuroraOS.Lib.BigEndian
import Mathlib.Analysis.SpecialFunctions.Pow.NthRootLemmas
import Mathlib.Data.Nat.Nth
import Mathlib.Data.Nat.Prime.Defs

/-!
# The secure hash standard

SHA-256 as FIPS 180-4 defines it, on messages of whole bytes: the functions of section 4.1.2, the
constants as roots of primes, the padding and the compression function folded over the blocks.

## Main definitions

- `SecureHash.compress` — the compression function
- `SecureHash.padding` — what follows the message
- `SecureHash.sha256`

## Main results

- `SecureHash.hashBlocks_append`
- `SecureHash.fractionalRoot_eq`
-/

namespace AuroraOS.Lib.SecureHash

set_option maxRecDepth 4096

section Definitions

abbrev Word := BitVec 32

def ch (x y z : Word) : Word := (x &&& y) ^^^ (~~~x &&& z)

def maj (x y z : Word) : Word := (x &&& y) ^^^ (x &&& z) ^^^ (y &&& z)

def bigSigma0 (x : Word) : Word := x.rotateRight 2 ^^^ x.rotateRight 13 ^^^ x.rotateRight 22

def bigSigma1 (x : Word) : Word := x.rotateRight 6 ^^^ x.rotateRight 11 ^^^ x.rotateRight 25

def smallSigma0 (x : Word) : Word := x.rotateRight 7 ^^^ x.rotateRight 18 ^^^ x >>> 3

def smallSigma1 (x : Word) : Word := x.rotateRight 17 ^^^ x.rotateRight 19 ^^^ x >>> 10

/-- The first 32 bits of the fractional part of the `k`-th root of `p`. -/
def fractionalRoot (k p : ℕ) : Word := BitVec.ofNat 32 (Nat.nthRoot k (p * 2 ^ (32 * k)))

/-- The constants of the rounds, from the cube roots of the first primes. -/
noncomputable def constant (t : ℕ) : Word := fractionalRoot 3 (Nat.nth Nat.Prime t)

/-- Eight words: the hash value, and the working variables `a` to `h`. -/
@[ext]
structure HashValue where
  a : Word
  b : Word
  c : Word
  d : Word
  e : Word
  f : Word
  g : Word
  h : Word

namespace HashValue

/-- The initial hash value, from the square roots of the first primes. -/
noncomputable def init : HashValue :=
  let word := fun t => fractionalRoot 2 (Nat.nth Nat.Prime t)
  ⟨word 0, word 1, word 2, word 3, word 4, word 5, word 6, word 7⟩

def add (s t : HashValue) : HashValue :=
  ⟨s.a + t.a, s.b + t.b, s.c + t.c, s.d + t.d, s.e + t.e, s.f + t.f, s.g + t.g, s.h + t.h⟩

def toBytes (s : HashValue) : List UInt8 :=
  [s.a, s.b, s.c, s.d, s.e, s.f, s.g, s.h].flatMap fun w => beFixed 4 w.toNat

end HashValue

/-- Word `t` of the message schedule of a block with the words `m`. -/
def schedule (m : ℕ → Word) (t : ℕ) : Word :=
  if t < 16 then m t
  else
    smallSigma1 (schedule m (t - 2)) + schedule m (t - 7) + smallSigma0 (schedule m (t - 15)) +
      schedule m (t - 16)

def round (k w : Word) (s : HashValue) : HashValue :=
  let t1 := s.h + bigSigma1 s.e + ch s.e s.f s.g + k + w
  let t2 := bigSigma0 s.a + maj s.a s.b s.c
  ⟨t1 + t2, s.a, s.b, s.c, s.d + t1, s.e, s.f, s.g⟩

noncomputable def compress (s : HashValue) (m : ℕ → Word) : HashValue :=
  s.add ((List.range 64).foldl (fun s t => round (constant t) (schedule m t) s) s)

/-- Word `t` of a block of 64 bytes. -/
def blockWord (block : List UInt8) (t : ℕ) : Word :=
  BitVec.ofNat 32 (beValue ((block.drop (4 * t)).take 4))

/-- The compression function folded over the blocks of `bytes`. -/
noncomputable def hashBlocks (s : HashValue) (bytes : List UInt8) : HashValue :=
  (List.range (bytes.length / 64)).foldl
    (fun s i => compress s (blockWord ((bytes.drop (64 * i)).take 64))) s

/-- The number of zero bytes after the byte with the marker. -/
def zeroBytes (n : ℕ) : ℕ := (64 + 55 - n % 64) % 64

/-- What follows a message of `n` bytes: the marker, zeros and the length in 64 bits. -/
def padding (n : ℕ) : List UInt8 := [0x80] ++ List.replicate (zeroBytes n) 0 ++ beFixed 8 (8 * n)

noncomputable def sha256 (message : List UInt8) : List UInt8 :=
  (hashBlocks .init (message ++ padding message.length)).toBytes

end Definitions

section Padding

theorem length_padding (n : ℕ) : (padding n).length = zeroBytes n + 9 := by
  rw [padding, List.length_append, List.length_append, List.length_replicate, length_beFixed,
    List.length_singleton]
  omega

end Padding

section Blocks

variable {bytes rest : List UInt8}

/-- Whole blocks can be hashed before the rest. -/
theorem hashBlocks_append (s : HashValue) (h : bytes.length % 64 = 0) :
    hashBlocks s (bytes ++ rest) = hashBlocks (hashBlocks s bytes) rest := by
  obtain ⟨n, hn⟩ := Nat.dvd_of_mod_eq_zero h
  have hcount : (bytes ++ rest).length / 64 = n + rest.length / 64 := by
    rw [List.length_append, hn]
    omega
  have hfirst : bytes.length / 64 = n := by omega
  have hleft : ∀ i ∈ List.range n,
      ((bytes ++ rest).drop (64 * i)).take 64 = (bytes.drop (64 * i)).take 64 := by
    intro i hi
    have hlt := List.mem_range.mp hi
    rw [List.drop_append_of_le_length (by omega), List.take_append_of_le_length]
    rw [List.length_drop]
    omega
  have hright : ∀ i, (bytes ++ rest).drop (64 * (n + i)) = rest.drop (64 * i) := by
    intro i
    rw [Nat.mul_add, ← hn, List.drop_append, List.drop_eq_nil_of_le (Nat.le_add_right _ _),
      List.nil_append, Nat.add_sub_cancel_left]
  have hfront : (List.range n).foldl
        (fun s i => compress s (blockWord (((bytes ++ rest).drop (64 * i)).take 64))) s =
      (List.range n).foldl (fun s i => compress s (blockWord ((bytes.drop (64 * i)).take 64))) s :=
    List.foldl_ext _ _ _ fun s i hi => by rw [hleft i hi]
  rw [hashBlocks, hashBlocks, hashBlocks, hcount, hfirst, List.range_add, List.foldl_append,
    List.foldl_map, hfront]
  simp only [hright]

end Blocks

section Constants

/-- A fractional part from the integer that encloses the root. -/
theorem fractionalRoot_eq {k p q : ℕ} {w : Word} (hk : k ≠ 0)
    (hle : (q * 2 ^ 32 + w.toNat) ^ k ≤ p * 2 ^ (32 * k))
    (hlt : p * 2 ^ (32 * k) < (q * 2 ^ 32 + w.toNat + 1) ^ k) : fractionalRoot k p = w := by
  have hroot : Nat.nthRoot k (p * 2 ^ (32 * k)) = q * 2 ^ 32 + w.toNat :=
    le_antisymm (Nat.le_of_lt_succ ((Nat.nthRoot_lt_iff hk).mpr hlt))
      ((Nat.le_nthRoot_iff hk).mpr hle)
  rw [fractionalRoot, hroot]
  refine BitVec.eq_of_toNat_eq ?_
  rw [BitVec.toNat_ofNat, Nat.add_comm, Nat.add_mul_mod_self_right, Nat.mod_eq_of_lt w.isLt]

def firstPrimes : List ℕ :=
  [2, 3, 5, 7, 11, 13, 17, 19, 23, 29, 31, 37, 41, 43, 47, 53, 59, 61, 67, 71, 73, 79, 83, 89, 97,
    101, 103, 107, 109, 113, 127, 131, 137, 139, 149, 151, 157, 163, 167, 173, 179, 181, 191, 193,
    197, 199, 211, 223, 227, 229, 233, 239, 241, 251, 257, 263, 269, 271, 277, 281, 283, 293, 307,
    311]

/-- The numbers below a bound that have a property are the first ones that have it. -/
theorem nth_of_filter_range {p : ℕ → Prop} [DecidablePred p] (n : ℕ) {t : ℕ}
    (h : t < ((List.range n).filter p).length) :
    Nat.nth p t = ((List.range n).filter p).getD t 0 := by
  induction n with
  | zero => exact absurd h (Nat.not_lt_zero t)
  | succ n ih =>
    have hcount : Nat.count p n = ((List.range n).filter p).length := by
      rw [Nat.count_eq_card_filter_range]
      rfl
    by_cases hn : p n
    · rw [List.range_succ, List.filter_append, List.filter_singleton, decide_eq_true hn] at h ⊢
      by_cases hlt : t < ((List.range n).filter p).length
      · rw [List.getD_append _ _ _ _ hlt]
        exact ih hlt
      · have ht : t = Nat.count p n := by
          rw [List.length_append] at h
          exact hcount ▸ Nat.le_antisymm (Nat.lt_succ_iff.mp h) (Nat.le_of_not_lt hlt)
        rw [List.getD_append_right _ _ _ _ (Nat.le_of_not_lt hlt), ← hcount, ht, Nat.nth_count hn,
          Nat.sub_self]
        rfl
    · rw [List.range_succ, List.filter_append, List.filter_singleton, decide_eq_false hn] at h ⊢
      rw [Bool.cond_false, List.append_nil] at h ⊢
      exact ih h

/-- A number below the square of 18 is a prime if none of the numbers below 18 divides it. -/
theorem prime_iff_of_lt {n : ℕ} (h : n < 18 * 18) :
    Nat.Prime n ↔ 2 ≤ n ∧ ∀ m ∈ List.range' 2 16, m ∣ n → n ≤ m := by
  constructor
  · intro hn
    refine ⟨hn.two_le, fun m hm hdvd => ?_⟩
    have hm := (List.mem_range'_1.mp hm).1
    exact ((Nat.dvd_prime_two_le hn hm).mp hdvd).ge
  · intro ⟨htwo, hall⟩
    refine Nat.prime_def_le_sqrt.mpr ⟨htwo, fun m hm hsqrt hdvd => ?_⟩
    have hlt : m < 18 := lt_of_le_of_lt hsqrt (Nat.sqrt_lt.mpr h)
    have hle := hall m (List.mem_range'_1.mpr ⟨hm, hlt⟩) hdvd
    exact absurd (hle.trans hsqrt) (Nat.not_le.mpr (Nat.sqrt_lt_self htwo))

theorem filter_prime : (List.range 312).filter (fun n => Nat.Prime n) = firstPrimes := by
  have hsieve : (List.range 312).filter
      (fun n => 2 ≤ n ∧ ∀ m ∈ List.range' 2 16, m ∣ n → n ≤ m) = firstPrimes := by decide
  rw [← hsieve]
  refine List.filter_congr fun n hn => decide_eq_decide.mpr (prime_iff_of_lt ?_)
  exact (List.mem_range.mp hn).trans (by decide)

theorem nth_prime {t : ℕ} (h : t < 64) : Nat.nth Nat.Prime t = firstPrimes.getD t 0 := by
  rw [← filter_prime]
  exact nth_of_filter_range 312 (by rwa [filter_prime])
end Constants

end AuroraOS.Lib.SecureHash
