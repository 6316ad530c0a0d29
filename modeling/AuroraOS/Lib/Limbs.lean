import Mathlib.Data.Nat.Digits.Lemmas

/-!
# Arithmetic on digits

Numbers as lists of digits in a base, the lowest first, and the loops that add, subtract, double and
compare them digit by digit. The numbers are those of `Nat.ofDigits`.

## Main definitions

- `addLoop`, `subLoop`, `doubleLoop` — digits of the result, and what is carried or borrowed
- `cmpLoop`

## Main results

- `ofDigits_addLoop`, `ofDigits_subLoop`, `ofDigits_doubleLoop`
- `cmpLoop_eq_compare`
-/

namespace AuroraOS.Lib

variable {b : ℕ}

section Value

/-- The digits of a list are digits of the base. -/
def AreDigits (b : ℕ) (xs : List ℕ) : Prop := ∀ x ∈ xs, x < b

theorem AreDigits.head {x : ℕ} {xs : List ℕ} (h : AreDigits b (x :: xs)) : x < b :=
  h x List.mem_cons_self

theorem AreDigits.tail {x : ℕ} {xs : List ℕ} (h : AreDigits b (x :: xs)) : AreDigits b xs :=
  fun y hy => h y (List.mem_cons_of_mem x hy)

theorem AreDigits.take {xs : List ℕ} (h : AreDigits b xs) (n : ℕ) : AreDigits b (xs.take n) :=
  fun x hx => h x (List.mem_of_mem_take hx)

theorem AreDigits.drop {xs : List ℕ} (h : AreDigits b xs) (n : ℕ) : AreDigits b (xs.drop n) :=
  fun x hx => h x (List.mem_of_mem_drop hx)

theorem AreDigits.append {xs ys : List ℕ} (hx : AreDigits b xs) (hy : AreDigits b ys) :
    AreDigits b (xs ++ ys) :=
  fun x h => (List.mem_append.mp h).elim (hx x) (hy x)

theorem AreDigits.cons {x : ℕ} {xs : List ℕ} (hx : x < b) (hxs : AreDigits b xs) :
    AreDigits b (x :: xs) := by
  rintro y hy
  obtain rfl | hy := List.mem_cons.mp hy
  · exact hx
  · exact hxs y hy

theorem areDigits_nil : AreDigits b [] := fun _ h => absurd h List.not_mem_nil

theorem ofDigits_lt {xs : List ℕ} (h : AreDigits b xs) (hb : 1 < b) :
    Nat.ofDigits b xs < b ^ xs.length :=
  Nat.ofDigits_lt_base_pow_length hb h

/-- The low digits are the remainder, the others the quotient. -/
theorem ofDigits_take {xs : List ℕ} (h : AreDigits b xs) (hb : 1 < b) {n : ℕ} (hn : n ≤ xs.length) :
    Nat.ofDigits b (xs.take n) = Nat.ofDigits b xs % b ^ n := by
  have hlen : (xs.take n).length = n := List.length_take_of_le hn
  have hsplit : Nat.ofDigits b xs =
      Nat.ofDigits b (xs.take n) + b ^ n * Nat.ofDigits b (xs.drop n) := by
    have happend : Nat.ofDigits b (xs.take n ++ xs.drop n) = _ := Nat.ofDigits_append
    rwa [List.take_append_drop, hlen] at happend
  have hlt := ofDigits_lt (h.take n) hb
  rw [hlen] at hlt
  rw [hsplit, Nat.add_mul_mod_self_left, Nat.mod_eq_of_lt hlt]

theorem ofDigits_set {xs : List ℕ} {i : ℕ} (hi : i < xs.length) (y : ℕ) :
    Nat.ofDigits b (xs.set i y) + b ^ i * xs[i] = Nat.ofDigits b xs + b ^ i * y := by
  induction xs generalizing i with
  | nil => exact absurd hi (Nat.not_lt_zero i)
  | cons x xs ih =>
    cases i with
    | zero =>
      simp only [List.set_cons_zero, Nat.ofDigits_cons, List.getElem_cons_zero]
      ring
    | succ i =>
      have hlt : i < xs.length := Nat.succ_lt_succ_iff.mp hi
      have hrest := ih hlt
      simp only [List.set_cons_succ, Nat.ofDigits_cons, List.getElem_cons_succ, Nat.pow_succ]
      calc _ = x + b * (Nat.ofDigits b (xs.set i y) + b ^ i * xs[i]) := by ring
        _ = _ := by
          rw [hrest]
          ring

theorem ofDigits_eq_zero_iff {xs : List ℕ} (hb : b ≠ 0) :
    Nat.ofDigits b xs = 0 ↔ ∀ x ∈ xs, x = 0 := by
  refine ⟨Nat.digits_zero_of_eq_zero hb, fun h => ?_⟩
  rw [List.eq_replicate_iff.mpr ⟨rfl, h⟩, Nat.ofDigits_replicate_zero]

end Value

section Loops

variable (b)

/-- Add with a carry. -/
def addLoop : List ℕ → List ℕ → ℕ → List ℕ × ℕ
  | x :: xs, y :: ys, carry =>
    ((x + y + carry) % b :: (addLoop xs ys ((x + y + carry) / b)).1,
      (addLoop xs ys ((x + y + carry) / b)).2)
  | _, _, carry => ([], carry)

/-- Subtract with a borrow. -/
def subLoop : List ℕ → List ℕ → ℕ → List ℕ × ℕ
  | x :: xs, y :: ys, borrow =>
    if x < y + borrow then
      ((x + b - y - borrow) :: (subLoop xs ys 1).1, (subLoop xs ys 1).2)
    else ((x - y - borrow) :: (subLoop xs ys 0).1, (subLoop xs ys 0).2)
  | _, _, borrow => ([], borrow)

/-- Double with a carry. -/
def doubleLoop : List ℕ → ℕ → List ℕ × ℕ
  | x :: xs, carry =>
    ((2 * x + carry) % b :: (doubleLoop xs ((2 * x + carry) / b)).1,
      (doubleLoop xs ((2 * x + carry) / b)).2)
  | [], carry => ([], carry)

/-- Compare from the highest digit on. -/
def cmpLoop : List ℕ → List ℕ → Ordering
  | x :: xs, y :: ys => (cmpLoop xs ys).then (compare x y)
  | _, _ => .eq

end Loops

section Add

theorem length_addLoop {xs ys : List ℕ} (h : xs.length = ys.length) (carry : ℕ) :
    (addLoop b xs ys carry).1.length = xs.length := by
  induction xs generalizing ys carry with
  | nil => rfl
  | cons x xs ih =>
    cases ys with
    | nil => exact absurd h (by simp)
    | cons y ys =>
      rw [addLoop, List.length_cons, ih (Nat.succ.inj h), List.length_cons]

theorem areDigits_addLoop (hb : 0 < b) (xs ys : List ℕ) (carry : ℕ) :
    AreDigits b (addLoop b xs ys carry).1 := by
  induction xs generalizing ys carry with
  | nil => exact areDigits_nil
  | cons x xs ih =>
    cases ys with
    | nil => exact areDigits_nil
    | cons y ys => exact .cons (Nat.mod_lt _ hb) (ih ys _)

/-- The digits and the weighted carry make up the sum. -/
theorem ofDigits_addLoop {xs ys : List ℕ} (h : xs.length = ys.length) (carry : ℕ) :
    Nat.ofDigits b (addLoop b xs ys carry).1 + b ^ xs.length * (addLoop b xs ys carry).2 =
      Nat.ofDigits b xs + Nat.ofDigits b ys + carry := by
  induction xs generalizing ys carry with
  | nil =>
    cases ys with
    | nil => simp [addLoop]
    | cons y ys => exact absurd h (by simp)
  | cons x xs ih =>
    cases ys with
    | nil => exact absurd h (by simp)
    | cons y ys =>
      have hrest := ih (Nat.succ.inj h) ((x + y + carry) / b)
      have hdigit := Nat.mod_add_div (x + y + carry) b
      simp only [addLoop, Nat.ofDigits_cons, List.length_cons, Nat.pow_succ]
      calc _ = (x + y + carry) % b + b * (Nat.ofDigits b (addLoop b xs ys ((x + y + carry) / b)).1 +
            b ^ xs.length * (addLoop b xs ys ((x + y + carry) / b)).2) := by ring
        _ = _ := by
          rw [hrest]
          linarith [hdigit]

end Add

section Sub

theorem length_subLoop {xs ys : List ℕ} (h : xs.length = ys.length) (borrow : ℕ) :
    (subLoop b xs ys borrow).1.length = xs.length := by
  induction xs generalizing ys borrow with
  | nil => rfl
  | cons x xs ih =>
    cases ys with
    | nil => exact absurd h (by simp)
    | cons y ys =>
      rw [subLoop]
      split
      · rw [List.length_cons, ih (Nat.succ.inj h), List.length_cons]
      · rw [List.length_cons, ih (Nat.succ.inj h), List.length_cons]

theorem areDigits_subLoop {xs ys : List ℕ} (hx : AreDigits b xs) (borrow : ℕ) :
    AreDigits b (subLoop b xs ys borrow).1 := by
  induction xs generalizing ys borrow with
  | nil => exact areDigits_nil
  | cons x xs ih =>
    cases ys with
    | nil => exact areDigits_nil
    | cons y ys =>
      have hlt := hx.head
      rw [subLoop]
      split
      · exact .cons (by omega) (ih hx.tail 1)
      · exact .cons (by omega) (ih hx.tail 0)

/-- The difference, up to what is borrowed at the end. -/
theorem ofDigits_subLoop {xs ys : List ℕ} (h : xs.length = ys.length) (hy : AreDigits b ys)
    {borrow : ℕ} (hborrow : borrow ≤ 1) :
    Nat.ofDigits b (subLoop b xs ys borrow).1 + Nat.ofDigits b ys + borrow =
      Nat.ofDigits b xs + b ^ xs.length * (subLoop b xs ys borrow).2 := by
  induction xs generalizing ys borrow with
  | nil =>
    cases ys with
    | nil => simp [subLoop]
    | cons y ys => exact absurd h (by simp)
  | cons x xs ih =>
    cases ys with
    | nil => exact absurd h (by simp)
    | cons y ys =>
      have hlt := hy.head
      rw [subLoop]
      split
      · next hneg =>
        have hrest := ih (Nat.succ.inj h) hy.tail le_rfl
        have hdigit : x + b - y - borrow + y + borrow = x + b := by omega
        simp only [Nat.ofDigits_cons, List.length_cons, Nat.pow_succ]
        calc _ = (x + b - y - borrow + y + borrow) + b * (Nat.ofDigits b (subLoop b xs ys 1).1 +
              Nat.ofDigits b ys) := by ring
          _ = x + b * (Nat.ofDigits b (subLoop b xs ys 1).1 + Nat.ofDigits b ys + 1) := by
            rw [hdigit]
            ring
          _ = _ := by
            rw [hrest]
            ring
      · next hge =>
        have hrest := ih (Nat.succ.inj h) hy.tail (Nat.zero_le 1)
        have hdigit : x - y - borrow + y + borrow = x := by omega
        simp only [Nat.ofDigits_cons, List.length_cons, Nat.pow_succ]
        calc _ = (x - y - borrow + y + borrow) + b * (Nat.ofDigits b (subLoop b xs ys 0).1 +
              Nat.ofDigits b ys) := by ring
          _ = x + b * (Nat.ofDigits b (subLoop b xs ys 0).1 + Nat.ofDigits b ys + 0) := by
            rw [hdigit]
            ring
          _ = _ := by
            rw [hrest]
            ring

/-- In a fixed number of digits the difference is that of the residues. -/
theorem ofDigits_subLoop_mod (hb : 1 < b) {xs ys : List ℕ} (h : xs.length = ys.length)
    (hx : AreDigits b xs) (hy : AreDigits b ys) {n : ℕ}
    (hn : n % b ^ xs.length = Nat.ofDigits b xs) (hle : Nat.ofDigits b ys ≤ n)
    (hlt : n - Nat.ofDigits b ys < b ^ xs.length) :
    Nat.ofDigits b (subLoop b xs ys 0).1 = n - Nat.ofDigits b ys := by
  have hsub := ofDigits_subLoop h hy (Nat.zero_le 1)
  have hbound : Nat.ofDigits b (subLoop b xs ys 0).1 < _ :=
    ofDigits_lt (areDigits_subLoop hx 0) hb
  rw [length_subLoop h] at hbound
  have hmod : (Nat.ofDigits b (subLoop b xs ys 0).1 + Nat.ofDigits b ys) % b ^ xs.length =
      (n - Nat.ofDigits b ys + Nat.ofDigits b ys) % b ^ xs.length := by
    rw [Nat.sub_add_cancel hle, ← Nat.add_zero (_ + Nat.ofDigits b ys), hsub,
      Nat.add_mul_mod_self_left, ← hn, Nat.mod_mod]
  have hcancel := Nat.ModEq.add_right_cancel' (Nat.ofDigits b ys) hmod
  exact Nat.ModEq.eq_of_lt_of_lt hcancel hbound hlt

end Sub

section Double

theorem ofDigits_doubleLoop (xs : List ℕ) (carry : ℕ) :
    Nat.ofDigits b (doubleLoop b xs carry).1 + b ^ xs.length * (doubleLoop b xs carry).2 =
      2 * Nat.ofDigits b xs + carry := by
  induction xs generalizing carry with
  | nil => simp [doubleLoop]
  | cons x xs ih =>
    have hrest := ih ((2 * x + carry) / b)
    have hdigit := Nat.mod_add_div (2 * x + carry) b
    simp only [doubleLoop, Nat.ofDigits_cons, List.length_cons, Nat.pow_succ]
    calc _ = (2 * x + carry) % b + b * (Nat.ofDigits b (doubleLoop b xs ((2 * x + carry) / b)).1 +
          b ^ xs.length * (doubleLoop b xs ((2 * x + carry) / b)).2) := by ring
      _ = _ := by
        rw [hrest]
        linarith [hdigit]

end Double

/-- Digits compare as their numbers do. -/
theorem cmpLoop_eq_compare {xs ys : List ℕ} (h : xs.length = ys.length) (hx : AreDigits b xs)
    (hy : AreDigits b ys) : cmpLoop xs ys = compare (Nat.ofDigits b xs) (Nat.ofDigits b ys) := by
  induction xs generalizing ys with
  | nil =>
    cases ys with
    | nil => rfl
    | cons y ys => exact absurd h (by simp)
  | cons x xs ih =>
    cases ys with
    | nil => exact absurd h (by simp)
    | cons y ys =>
      have hxlt := hx.head
      have hylt := hy.head
      rw [cmpLoop, ih (Nat.succ.inj h) hx.tail hy.tail, Nat.ofDigits_cons, Nat.ofDigits_cons]
      obtain hlt | heq | hgt := lt_trichotomy (Nat.ofDigits b xs) (Nat.ofDigits b ys)
      · have hstep := Nat.mul_le_mul_left b (Nat.succ_le_of_lt hlt)
        rw [Nat.mul_succ] at hstep
        have hless : x + b * Nat.ofDigits b xs < y + b * Nat.ofDigits b ys := by omega
        rw [Nat.compare_eq_lt.mpr hlt, Nat.compare_eq_lt.mpr hless]
        rfl
      · rw [heq, Nat.compare_eq_eq.mpr rfl]
        change compare x y = _
        rw [Nat.compare_eq_ite_lt, Nat.compare_eq_ite_lt]
        simp only [Nat.add_lt_add_iff_right]
      · have hstep := Nat.mul_le_mul_left b (Nat.succ_le_of_lt hgt)
        rw [Nat.mul_succ] at hstep
        have hmore : y + b * Nat.ofDigits b ys < x + b * Nat.ofDigits b xs := by omega
        rw [Nat.compare_eq_gt.mpr hgt, Nat.compare_eq_gt.mpr hmore]
        rfl

end AuroraOS.Lib
