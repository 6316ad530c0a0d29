import Mathlib.Data.List.Basic
import Mathlib.Data.Nat.Bitwise
import Mathlib.Tactic.Ring

/-!
# Numbers as lists of bits

Fixed-width binary numbers with the lowest or with the highest bit first, and bytes as lists of
eight bits with the lowest first.

## Main definitions

- `lsbBits`, `lsbVal` — lowest bit first
- `msbBits`, `msbVal` — highest bit first
- `bitsOf`, `packBytes` — the bits of a byte string, and back
-/

namespace AuroraOS.Lib

/-- The `k` low bits of `n`, the lowest first. -/
def lsbBits : ℕ → ℕ → List Bool
  | 0, _ => []
  | k + 1, n => decide (n % 2 = 1) :: lsbBits k (n / 2)

/-- The number whose bits are given, the lowest first. -/
def lsbVal : List Bool → ℕ
  | [] => 0
  | b :: bs => b.toNat + 2 * lsbVal bs

/-- The `k` low bits of `n`, the highest first. -/
def msbBits (k n : ℕ) : List Bool := (lsbBits k n).reverse

/-- The number whose bits are given, the highest first. -/
def msbVal (bits : List Bool) : ℕ := bits.foldl (fun n b => 2 * n + b.toNat) 0

@[simp]
theorem length_lsbBits (k n : ℕ) : (lsbBits k n).length = k := by
  induction k generalizing n with
  | zero => rfl
  | succ k ih => rw [lsbBits, List.length_cons, ih]

@[simp]
theorem length_msbBits (k n : ℕ) : (msbBits k n).length = k := by
  rw [msbBits, List.length_reverse, length_lsbBits]

theorem lsbVal_lsbBits (k n : ℕ) : lsbVal (lsbBits k n) = n % 2 ^ k := by
  induction k generalizing n with
  | zero => simp [lsbBits, lsbVal, Nat.mod_one]
  | succ k ih =>
    have hbit : (decide (n % 2 = 1)).toNat = n % 2 := by
      obtain h | h := Nat.mod_two_eq_zero_or_one n <;> simp [h]
    rw [lsbBits, lsbVal, ih, hbit, pow_succ', Nat.mod_mul]

theorem lsbVal_lt (bits : List Bool) : lsbVal bits < 2 ^ bits.length := by
  induction bits with
  | nil => exact Nat.one_pos
  | cons b bs ih =>
    rw [lsbVal, List.length_cons, pow_succ']
    have hb := b.toNat_le
    omega

theorem lsbVal_append (as bs : List Bool) :
    lsbVal (as ++ bs) = lsbVal as + 2 ^ as.length * lsbVal bs := by
  induction as with
  | nil => simp [lsbVal]
  | cons a as ih =>
    rw [List.cons_append, lsbVal, ih, lsbVal, List.length_cons, pow_succ']
    ring

/-- A number is determined by its bits; above them there are zeros. -/
theorem lsbBits_add_lsbVal (bits : List Bool) (k : ℕ) :
    lsbBits (bits.length + k) (lsbVal bits) = bits ++ lsbBits k 0 := by
  induction bits with
  | nil => simp [lsbVal]
  | cons b bs ih =>
    have hb := b.toNat_le
    have hmod : (b.toNat + 2 * lsbVal bs) % 2 = b.toNat := by omega
    have hdiv : (b.toNat + 2 * lsbVal bs) / 2 = lsbVal bs := by omega
    rw [List.length_cons, Nat.add_right_comm, lsbVal, lsbBits, hmod, hdiv, ih, List.cons_append]
    cases b <;> rfl

theorem msbVal_append_singleton (bits : List Bool) (b : Bool) :
    msbVal (bits ++ [b]) = 2 * msbVal bits + b.toNat := by
  rw [msbVal, List.foldl_append, List.foldl_cons, List.foldl_nil, msbVal]

theorem msbVal_reverse (bits : List Bool) : msbVal bits.reverse = lsbVal bits := by
  induction bits with
  | nil => rfl
  | cons b bs ih =>
    rw [List.reverse_cons, msbVal_append_singleton, ih, lsbVal]
    omega

theorem msbVal_msbBits {k n : ℕ} (h : n < 2 ^ k) : msbVal (msbBits k n) = n := by
  rw [msbBits, msbVal_reverse, lsbVal_lsbBits, Nat.mod_eq_of_lt h]

theorem msbVal_lt (bits : List Bool) : msbVal bits < 2 ^ bits.length := by
  rw [← List.reverse_reverse bits, msbVal_reverse, List.length_reverse]
  apply lsbVal_lt

/-- The value of the first bits of a number, the highest first. -/
theorem msbVal_take_msbBits {k n : ℕ} (h : n < 2 ^ k) (j : ℕ) :
    msbVal ((msbBits k n).take j) = n / 2 ^ (k - j) := by
  have hsplit : msbVal (msbBits k n) =
      lsbVal ((lsbBits k n).take (k - j)) +
        2 ^ (k - j) * msbVal ((msbBits k n).take j) := by
    rw [msbBits, msbVal_reverse, List.take_reverse, length_lsbBits, msbVal_reverse]
    conv_lhs => rw [← List.take_append_drop (k - j) (lsbBits k n), lsbVal_append]
    rw [List.length_take, length_lsbBits, Nat.min_eq_left (Nat.sub_le _ _)]
  have hlt : lsbVal ((lsbBits k n).take (k - j)) < 2 ^ (k - j) := by
    have hval := lsbVal_lt ((lsbBits k n).take (k - j))
    rwa [List.length_take, length_lsbBits, Nat.min_eq_left (Nat.sub_le _ _)] at hval
  rw [msbVal_msbBits h] at hsplit
  generalize msbVal ((msbBits k n).take j) = high at hsplit ⊢
  rw [hsplit, Nat.add_mul_div_left _ _ (Nat.two_pow_pos _), Nat.div_eq_of_lt hlt, Nat.zero_add]

/-- Adding a bit above a number. -/
theorem or_shiftLeft_of_lt {n i : ℕ} (h : n < 2 ^ i) (b : ℕ) : n ||| (b <<< i) = n + 2 ^ i * b := by
  rw [Nat.shiftLeft_eq, Nat.mul_comm, Nat.or_comm, ← Nat.two_pow_add_eq_or_of_lt h, Nat.add_comm]

/-- The bits of a byte string. -/
def bitsOf (data : List UInt8) : List Bool := data.flatMap fun b => lsbBits 8 b.toNat

@[simp]
theorem bitsOf_cons (b : UInt8) (data : List UInt8) :
    bitsOf (b :: data) = lsbBits 8 b.toNat ++ bitsOf data := rfl

@[simp]
theorem bitsOf_append (xs ys : List UInt8) : bitsOf (xs ++ ys) = bitsOf xs ++ bitsOf ys :=
  List.flatMap_append

@[simp]
theorem length_bitsOf (data : List UInt8) : (bitsOf data).length = 8 * data.length := by
  induction data with
  | nil => rfl
  | cons b data ih =>
    rw [bitsOf_cons, List.length_append, ih, length_lsbBits, List.length_cons]; ring

theorem drop_bitsOf (data : List UInt8) (i : ℕ) :
    (bitsOf data).drop (8 * i) = bitsOf (data.drop i) := by
  induction i generalizing data with
  | zero => rfl
  | succ i ih =>
    cases data with
    | nil => simp [bitsOf]
    | cons b data =>
      rw [bitsOf_cons, List.drop_succ_cons, ← ih, Nat.mul_succ, Nat.add_comm,
        ← List.drop_drop, List.drop_left' (length_lsbBits 8 _)]

theorem bitsOf_injective {xs ys : List UInt8} (h : bitsOf xs = bitsOf ys) : xs = ys := by
  induction xs generalizing ys with
  | nil =>
    have hlen := congrArg List.length h
    rw [length_bitsOf, length_bitsOf, List.length_nil] at hlen
    exact (List.length_eq_zero_iff.mp (by omega)).symm
  | cons x xs ih =>
    cases ys with
    | nil =>
      have hlen := congrArg List.length h
      simp at hlen
    | cons y ys =>
      obtain ⟨hhead, htail⟩ := List.append_inj h (by simp)
      have hval := congrArg lsbVal hhead
      rw [lsbVal_lsbBits, lsbVal_lsbBits, Nat.mod_eq_of_lt x.toNat_lt,
        Nat.mod_eq_of_lt y.toNat_lt] at hval
      rw [UInt8.toNat_inj.mp hval, ih htail]

/-- What begins with the bits of a byte string begins with the string. -/
theorem exists_of_bitsOf_eq_append {xs ys : List UInt8} {tail : List Bool}
    (h : bitsOf xs = bitsOf ys ++ tail) : ∃ zs, xs = ys ++ zs ∧ bitsOf zs = tail := by
  have hlen := congrArg List.length h
  rw [List.length_append, length_bitsOf, length_bitsOf] at hlen
  rw [← List.take_append_drop ys.length xs, bitsOf_append] at h
  obtain ⟨hhead, htail⟩ := List.append_inj h (by
    rw [length_bitsOf, length_bitsOf, List.length_take]
    omega)
  refine ⟨xs.drop ys.length, ?_, htail⟩
  have htake := bitsOf_injective hhead
  conv_lhs => rw [← List.take_append_drop ys.length xs, htake]

/-- A number of two bytes. -/
theorem lsbBits_sixteen {n : ℕ} (h : n < 2 ^ 16) :
    lsbBits 16 n = bitsOf [UInt8.ofNat (n % 256), UInt8.ofNat (n / 256)] := by
  have hlow : (UInt8.ofNat (n % 256)).toNat = n % 256 :=
    UInt8.toNat_ofNat_of_lt' (Nat.mod_lt _ (by decide))
  have hhigh : (UInt8.ofNat (n / 256)).toNat = n / 256 :=
    UInt8.toNat_ofNat_of_lt' (show n / 256 < 256 by omega)
  have hbits := lsbBits_add_lsbVal (lsbBits 8 (n % 256) ++ lsbBits 8 (n / 256)) 0
  rw [lsbVal_append, lsbVal_lsbBits, lsbVal_lsbBits, List.length_append, length_lsbBits,
    length_lsbBits, show n % 256 % 2 ^ 8 + 2 ^ 8 * (n / 256 % 2 ^ 8) = n by omega] at hbits
  rw [bitsOf_cons, bitsOf_cons, hlow, hhigh]
  exact hbits

/-- Flipping the bits of a number. -/
theorem xor_two_pow_sub_one {n k : ℕ} (h : n < 2 ^ k) : n ^^^ (2 ^ k - 1) = 2 ^ k - 1 - n := by
  apply Nat.eq_of_testBit_eq
  intro i
  rw [Nat.sub_sub, Nat.add_comm 1 n, Nat.testBit_two_pow_sub_succ h, Nat.testBit_xor,
    Nat.testBit_two_pow_sub_one]
  by_cases hi : i < k
  · simp [hi]
  · have hbit : n.testBit i = false :=
      Nat.testBit_lt_two_pow (h.trans_le (Nat.pow_le_pow_right (by decide) (Nat.le_of_not_lt hi)))
    simp [hi, hbit]

/-- Bit `i % 8` of byte `i / 8`. -/
theorem getElem?_bitsOf (data : List UInt8) (i : ℕ) :
    (bitsOf data)[i]? = data[i / 8]?.map fun b => decide (b.toNat / 2 ^ (i % 8) % 2 = 1) := by
  have hbit : ∀ k j n : ℕ, j < k → (lsbBits k n)[j]? = some (decide (n / 2 ^ j % 2 = 1)) := by
    intro k
    induction k with
    | zero => exact fun j n hj => absurd hj (Nat.not_lt_zero _)
    | succ k ih =>
      intro j n hj
      cases j with
      | zero => simp [lsbBits]
      | succ j =>
        rw [lsbBits, List.getElem?_cons_succ, ih j _ (by omega), pow_succ', Nat.div_div_eq_div_mul]
  induction data generalizing i with
  | nil => simp [bitsOf]
  | cons b data ih =>
    rw [bitsOf_cons]
    by_cases hi : i < 8
    · rw [List.getElem?_append_left (by simpa using hi), hbit 8 i _ hi, Nat.div_eq_of_lt hi,
        Nat.mod_eq_of_lt hi]
      rfl
    · rw [List.getElem?_append_right (by simpa using Nat.le_of_not_lt hi), length_lsbBits, ih,
        show i / 8 = (i - 8) / 8 + 1 by omega, show i % 8 = (i - 8) % 8 by omega,
        List.getElem?_cons_succ]

/-- A list of bits as bytes, filled up with zeros. -/
def packBytes (bits : List Bool) : List UInt8 :=
  if bits = [] then [] else UInt8.ofNat (lsbVal (bits.take 8)) :: packBytes (bits.drop 8)
termination_by bits.length
decreasing_by
  rename_i h
  have hpos := List.length_pos_iff.mpr h
  rw [List.length_drop]
  omega

/-- Packing changes nothing but the fill bits at the end. -/
theorem bitsOf_packBytes (bits : List Bool) :
    ∃ fill, bitsOf (packBytes bits) = bits ++ fill := by
  induction bits using packBytes.induct with
  | case1 => exact ⟨[], by simp [packBytes, bitsOf]⟩
  | case2 bits hne ih =>
    obtain ⟨fill, hfill⟩ := ih
    have hlt : lsbVal (bits.take 8) < 2 ^ 8 := by
      refine (lsbVal_lt _).trans_le (Nat.pow_le_pow_right (by decide) ?_)
      exact List.length_take_le _ _
    rw [packBytes, if_neg hne, bitsOf_cons, hfill, UInt8.toNat_ofNat_of_lt' hlt]
    by_cases hlong : 8 ≤ bits.length
    · refine ⟨fill, ?_⟩
      have htake : (bits.take 8).length = 8 := by
        rw [List.length_take]
        omega
      have hbits := lsbBits_add_lsbVal (bits.take 8) 0
      rw [htake, lsbBits, List.append_nil] at hbits
      rw [hbits, ← List.append_assoc, List.take_append_drop]
    · have hall : bits.take 8 = bits := List.take_of_length_le (by omega)
      have hnil : bits.drop 8 = [] := List.drop_of_length_le (by omega)
      have hpad := lsbBits_add_lsbVal bits (8 - bits.length)
      rw [Nat.add_sub_of_le (by omega)] at hpad
      rw [hall, hnil, List.nil_append, hpad, List.append_assoc]
      exact ⟨_, rfl⟩

end AuroraOS.Lib
