import Mathlib.Data.Nat.Digits.Lemmas
import Mathlib.Data.UInt

/-!
# Big-endian byte strings

## Main definitions

- `beValue` — the number that the bytes stand for
- `beBytes` — the shortest byte string that stands for a number
- `beFixed` — the byte string of a given length

## Main results

- `beValue_beBytes`, `beValue_beFixed`
- `length_beBytes_le_iff`
- `head_beBytes_ne_zero`
-/

namespace AuroraOS.Lib

def beValue (bs : List UInt8) : ℕ := bs.foldl (fun n b => 256 * n + b.toNat) 0

def beBytes (n : ℕ) : List UInt8 := ((Nat.digits 256 n).map UInt8.ofNat).reverse

@[simp] theorem beValue_nil : beValue [] = 0 := rfl

@[simp] theorem beBytes_zero : beBytes 0 = [] := by simp [beBytes]

theorem beValue_concat (bs : List UInt8) (b : UInt8) :
    beValue (bs ++ [b]) = 256 * beValue bs + b.toNat := by
  rw [beValue, List.foldl_append]
  rfl

theorem beValue_lt (bs : List UInt8) : beValue bs < 256 ^ bs.length := by
  induction bs using List.reverseRecOn with
  | nil => decide
  | append_singleton bs b ih =>
    have hb : b.toNat < 256 := b.toNat_lt
    rw [beValue_concat, List.length_append, List.length_singleton, pow_succ]
    omega

theorem beValue_eq_zero_iff {bs : List UInt8} : beValue bs = 0 ↔ ∀ b ∈ bs, b = 0 := by
  induction bs using List.reverseRecOn with
  | nil => simp
  | append_singleton bs b ih =>
    have hb : b = 0 ↔ b.toNat = 0 := UInt8.toNat_inj.symm
    rw [beValue_concat, List.forall_mem_append, List.forall_mem_singleton, ← ih, hb]
    omega

/-- The bytes of a number, from those of its quotient by 256. -/
theorem beBytes_of_pos {n : ℕ} (h : 0 < n) :
    beBytes n = beBytes (n / 256) ++ [UInt8.ofNat (n % 256)] := by
  rw [beBytes, Nat.digits_def' (by decide) h, List.map_cons, List.reverse_cons, beBytes]

@[simp] theorem beValue_beBytes (n : ℕ) : beValue (beBytes n) = n := by
  induction n using Nat.strongRecOn with
  | ind n ih =>
    obtain rfl | h := Nat.eq_zero_or_pos n
    · simp
    have hmod : (UInt8.ofNat (n % 256)).toNat = n % 256 := by
      rw [UInt8.toNat_ofNat']
      exact Nat.mod_mod _ _
    rw [beBytes_of_pos h, beValue_concat, ih _ (Nat.div_lt_self h (by decide)), hmod]
    exact Nat.div_add_mod n 256

theorem length_beBytes (n : ℕ) : (beBytes n).length = (Nat.digits 256 n).length := by
  rw [beBytes, List.length_reverse, List.length_map]

theorem length_beBytes_le_iff {n k : ℕ} : (beBytes n).length ≤ k ↔ n < 256 ^ k := by
  rw [length_beBytes, Nat.digits_length_le_iff (by decide)]

theorem length_beBytes_pos {n : ℕ} (h : 0 < n) : 0 < (beBytes n).length := by
  rw [beBytes_of_pos h, List.length_append]
  exact Nat.lt_add_left _ Nat.one_pos

/-- The shortest byte string has no leading zero. -/
theorem head_beBytes_ne_zero {n : ℕ} {b : UInt8} (h : (beBytes n).head? = some b) : b ≠ 0 := by
  rw [beBytes, List.head?_reverse, List.getLast?_map, Option.map_eq_some_iff] at h
  obtain ⟨d, hd, rfl⟩ := h
  have hn : Nat.digits 256 n ≠ [] := by
    rintro hnil
    rw [hnil] at hd
    exact absurd hd (by simp)
  have hlast : (Nat.digits 256 n).getLast hn = d := by
    rw [List.getLast?_eq_getLast_of_ne_nil hn] at hd
    exact Option.some.inj hd
  have hd0 : d ≠ 0 := hlast ▸ Nat.getLast_digit_ne_zero 256 (Nat.digits_ne_nil_iff_ne_zero.mp hn)
  have hd1 : d < 256 := Nat.digits_lt_base (by decide) (hlast ▸ List.getLast_mem hn)
  intro h0
  have := congrArg UInt8.toNat h0
  rw [UInt8.toNat_ofNat', Nat.mod_eq_of_lt hd1] at this
  exact hd0 this

section Fixed

/-- The low bytes of a number, zeros to the left of the others. -/
def beFixed : ℕ → ℕ → List UInt8
  | 0, _ => []
  | n + 1, v => beFixed n (v / 256) ++ [UInt8.ofNat (v % 256)]

@[simp]
theorem length_beFixed (n v : ℕ) : (beFixed n v).length = n := by
  induction n generalizing v with
  | zero => rfl
  | succ n ih => rw [beFixed, List.length_append, ih, List.length_singleton]

theorem beValue_beFixed (n v : ℕ) : beValue (beFixed n v) = v % 256 ^ n := by
  induction n generalizing v with
  | zero => rw [beFixed, beValue_nil, Nat.pow_zero, Nat.mod_one]
  | succ n ih =>
    have hbyte : (UInt8.ofNat (v % 256)).toNat = v % 256 := by
      rw [UInt8.toNat_ofNat']
      exact Nat.mod_mod _ _
    rw [beFixed, beValue_concat, ih, hbyte, Nat.pow_succ, Nat.mul_comm (256 ^ n), Nat.mod_mul,
      Nat.add_comm]

/-- Byte strings of one length are their numbers. -/
theorem beValue_injective {bs cs : List UInt8} (hlen : bs.length = cs.length)
    (h : beValue bs = beValue cs) : bs = cs := by
  induction bs using List.reverseRecOn generalizing cs with
  | nil => exact (List.length_eq_zero_iff.mp hlen.symm).symm
  | append_singleton bs b ih =>
    obtain rfl | ⟨cs, c, rfl⟩ := List.eq_nil_or_concat' cs
    · exact absurd hlen (by simp)
    simp only [List.length_append, List.length_singleton, Nat.add_right_cancel_iff] at hlen
    rw [beValue_concat, beValue_concat] at h
    have hb := b.toNat_lt
    have hc := c.toNat_lt
    have hlast : b = c := UInt8.toNat_inj.mp (by omega)
    rw [hlast, ih hlen (by omega)]

theorem beFixed_eq_iff {n v : ℕ} {bs : List UInt8} :
    beFixed n v = bs ↔ bs.length = n ∧ beValue bs = v % 256 ^ n := by
  constructor
  · rintro rfl
    exact ⟨length_beFixed n v, beValue_beFixed n v⟩
  · rintro ⟨hlen, hvalue⟩
    exact beValue_injective ((length_beFixed n v).trans hlen.symm)
      ((beValue_beFixed n v).trans hvalue.symm)

theorem beFixed_beValue (bs : List UInt8) : beFixed bs.length (beValue bs) = bs :=
  beFixed_eq_iff.mpr ⟨rfl, (Nat.mod_eq_of_lt (beValue_lt bs)).symm⟩

theorem beFixed_eq_beFixed_iff {n v w : ℕ} :
    beFixed n v = beFixed n w ↔ v % 256 ^ n = w % 256 ^ n := by
  rw [beFixed_eq_iff, beValue_beFixed]
  exact ⟨fun h => h.2.symm, fun h => ⟨length_beFixed n w, h.symm⟩⟩

theorem getElem?_beFixed {n i : ℕ} (v : ℕ) (h : i < n) :
    (beFixed n v)[i]? = some (UInt8.ofNat (v / 256 ^ (n - 1 - i) % 256)) := by
  induction n generalizing v with
  | zero => exact absurd h (Nat.not_lt_zero i)
  | succ n ih =>
    rw [beFixed]
    obtain hlast | hfront := Nat.lt_or_ge i n
    · have hpow : 256 ^ (n + 1 - 1 - i) = 256 * 256 ^ (n - 1 - i) := by
        rw [← Nat.pow_succ']
        congr 1
        omega
      rw [List.getElem?_append_left (by rwa [length_beFixed]), ih _ hlast, hpow,
        Nat.div_div_eq_div_mul]
    · obtain rfl : i = n := by omega
      rw [List.getElem?_append_right (by rw [length_beFixed]), length_beFixed, Nat.sub_self,
        Nat.add_sub_cancel, Nat.sub_self, Nat.pow_zero, Nat.div_one]
      rfl

end Fixed

section Words

theorem toNat_toUInt32_shiftLeft (b : UInt8) {i : UInt32} (hi : i.toNat ≤ 24) :
    (b.toUInt32 <<< i).toNat = b.toNat * 2 ^ i.toNat := by
  have hpow : 2 ^ i.toNat ≤ 2 ^ 24 := Nat.pow_le_pow_right (by decide) hi
  have hlt : b.toNat * 2 ^ i.toNat < 2 ^ 32 := by
    have hb := b.toNat_lt
    calc b.toNat * 2 ^ i.toNat ≤ 255 * 2 ^ 24 := Nat.mul_le_mul (by omega) hpow
      _ < 2 ^ 32 := by decide
  rw [UInt32.toNat_shiftLeft, UInt8.toNat_toUInt32, Nat.mod_eq_of_lt (a := i.toNat) (by omega),
    Nat.shiftLeft_eq, Nat.mod_eq_of_lt hlt]

theorem mul_two_pow_or {x y i : ℕ} (hy : y < 2 ^ i) : x * 2 ^ i ||| y = x * 2 ^ i + y := by
  rw [← Nat.shiftLeft_eq, Nat.shiftLeft_add_eq_or_of_lt hy]

/-- Four bytes shifted into the places of a word. -/
theorem toNat_or_shiftLeft (a b c d : UInt8) :
    (a.toUInt32 <<< 24 ||| b.toUInt32 <<< 16 ||| c.toUInt32 <<< 8 ||| d.toUInt32).toNat =
      beValue [a, b, c, d] := by
  have hb : b.toNat * 2 ^ 16 < 2 ^ 24 :=
    (Nat.mul_lt_mul_of_pos_right b.toNat_lt (Nat.two_pow_pos 16)).trans_eq (by norm_num)
  have hc : c.toNat * 2 ^ 8 < 2 ^ 16 :=
    (Nat.mul_lt_mul_of_pos_right c.toNat_lt (Nat.two_pow_pos 8)).trans_eq (by norm_num)
  have htop : a.toNat * 2 ^ 24 ||| b.toNat * 2 ^ 16 = (a.toNat * 2 ^ 8 + b.toNat) * 2 ^ 16 := by
    rw [mul_two_pow_or hb]
    ring
  have hmid : (a.toNat * 2 ^ 8 + b.toNat) * 2 ^ 16 ||| c.toNat * 2 ^ 8 =
      ((a.toNat * 2 ^ 8 + b.toNat) * 2 ^ 8 + c.toNat) * 2 ^ 8 := by
    rw [mul_two_pow_or hc]
    ring
  have hvalue : beValue [a, b, c, d] =
      ((a.toNat * 2 ^ 8 + b.toNat) * 2 ^ 8 + c.toNat) * 2 ^ 8 + d.toNat := by
    simp only [beValue, List.foldl_cons, List.foldl_nil]
    ring
  have hshift : (a.toUInt32 <<< 24).toNat = a.toNat * 2 ^ 24 ∧
      (b.toUInt32 <<< 16).toNat = b.toNat * 2 ^ 16 ∧ (c.toUInt32 <<< 8).toNat = c.toNat * 2 ^ 8 :=
    ⟨toNat_toUInt32_shiftLeft a (by decide), toNat_toUInt32_shiftLeft b (by decide),
      toNat_toUInt32_shiftLeft c (by decide)⟩
  rw [UInt32.toNat_or, UInt32.toNat_or, UInt32.toNat_or, hshift.1, hshift.2.1, hshift.2.2,
    UInt8.toNat_toUInt32, htop, hmid, mul_two_pow_or d.toNat_lt, hvalue]

/-- The bytes of a word, the highest first. -/
theorem beFixed_four (x : UInt32) :
    beFixed 4 x.toNat =
      [(x >>> 24).toUInt8, (x >>> 16).toUInt8, (x >>> 8).toUInt8, x.toUInt8] := by
  have hshift : ∀ {i : UInt32} {n : ℕ}, i.toNat % 32 = n →
      UInt8.ofNat (x.toNat / 2 ^ n % 256) = (x >>> i).toUInt8 := by
    rintro i n rfl
    refine UInt8.toNat_inj.mp ?_
    rw [UInt8.toNat_ofNat', UInt32.toNat_toUInt8, UInt32.toNat_shiftRight,
      Nat.shiftRight_eq_div_pow]
    exact Nat.mod_mod _ _
  have hlow : UInt8.ofNat (x.toNat % 256) = x.toUInt8 := by
    refine UInt8.toNat_inj.mp ?_
    rw [UInt8.toNat_ofNat', UInt32.toNat_toUInt8]
    exact Nat.mod_mod _ _
  have htop : x.toNat / 256 / 256 / 256 = x.toNat / 2 ^ 24 := by omega
  have hmid : x.toNat / 256 / 256 = x.toNat / 2 ^ 16 := by omega
  have hnext : x.toNat / 256 = x.toNat / 2 ^ 8 := by omega
  simp only [beFixed, List.nil_append, List.cons_append]
  rw [htop, hmid, hnext, hlow, hshift (show (24 : UInt32).toNat % 32 = 24 from rfl),
    hshift (show (16 : UInt32).toNat % 32 = 16 from rfl),
    hshift (show (8 : UInt32).toNat % 32 = 8 from rfl)]

end Words

end AuroraOS.Lib
