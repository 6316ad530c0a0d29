import Mathlib

/-!
# The front of a fixed-size array

A fixed-size array whose first `count` cells are in use, as a list. The two loops that such
code needs, finding a value and closing the gap it leaves, check every index against the size
of the array and return `none` where the loop would leave it; as long as `count` is within the
size they are `List.idxOf?` and `List.eraseIdx`.

## Main results

- `findFrom_eq` — the search is the first position of the value in the front
- `shiftDown_front` — closing a gap erases one element of the front
-/

namespace AuroraOS.Lib

variable {α : Type*} {n : ℕ}

/-- The first `count` cells. -/
def front (a : Vector α n) (count : ℕ) : List α := a.toList.take count

theorem length_front {a : Vector α n} {count : ℕ} (h : count ≤ n) :
    (front a count).length = count := by
  rw [front, List.length_take, Vector.length_toList, Nat.min_eq_left h]

theorem getElem_front {a : Vector α n} {count i : ℕ} (h : count ≤ n) (hi : i < count) :
    (front a count)[i]? = some (a.get ⟨i, by omega⟩) := by
  rw [front, List.getElem?_take_of_lt hi, List.getElem?_eq_getElem (by simp; omega)]
  rfl

/-- `for (i = i0; i < i0 + k; i++) if (a[i] == x) return i;`, where the inner option is the
    answer and `none` means that the loop left the array. -/
def findFrom [DecidableEq α] (a : Vector α n) (x : α) : ℕ → ℕ → Option (Option ℕ)
  | 0, _ => some none
  | k + 1, i =>
    if h : i < n then if a.get ⟨i, h⟩ = x then some (some i) else findFrom a x k (i + 1)
    else none

theorem findFrom_eq [DecidableEq α] (a : Vector α n) (x : α) (k i : ℕ) (h : i + k ≤ n) :
    findFrom a x k i = some (((front a (i + k)).drop i).idxOf? x |>.map (· + i)) := by
  induction k generalizing i with
  | zero =>
    have hnil : (front a (i + 0)).drop i = [] := by
      rw [List.drop_eq_nil_iff, length_front (by omega)]
      omega
    rw [hnil]
    rfl
  | succ k ih =>
    have hi : i < n := by omega
    have hlen : i < (front a (i + (k + 1))).length := by
      rw [length_front h]
      omega
    have hget : (front a (i + (k + 1)))[i] = a.get ⟨i, hi⟩ := by
      have := getElem_front (a := a) h (show i < i + (k + 1) by omega)
      rwa [List.getElem?_eq_getElem hlen, Option.some.injEq] at this
    rw [findFrom, dif_pos hi, List.drop_eq_getElem_cons hlen, hget, List.idxOf?_cons]
    by_cases hx : a.get ⟨i, hi⟩ = x
    · simp [hx]
    · rw [if_neg hx, ih (i + 1) (by omega), show i + 1 + k = i + (k + 1) by omega]
      simp only [beq_iff_eq, hx, if_false, Option.map_map]
      congr 2
      funext j
      simp only [Function.comp_apply]
      omega

/-- `for (j = j0; j < j0 + k; j++) a[j] = a[j + 1];` -/
def shiftDown : ℕ → ℕ → Vector α n → Option (Vector α n)
  | 0, _, a => some a
  | k + 1, j, a =>
    if h : j + 1 < n then shiftDown k (j + 1) (a.set j (a.get ⟨j + 1, h⟩) (by omega)) else none

theorem shiftDown_eq (k j : ℕ) (a : Vector α n) (h : j + k < n) :
    ∃ b, shiftDown k j a = some b ∧ ∀ i (hi : i < n), b.get ⟨i, hi⟩ =
      if hij : j ≤ i ∧ i < j + k then a.get ⟨i + 1, by omega⟩ else a.get ⟨i, hi⟩ := by
  induction k generalizing j a with
  | zero =>
    refine ⟨a, rfl, fun i hi => ?_⟩
    rw [dif_neg (by omega)]
  | succ k ih =>
    have hj : j + 1 < n := by omega
    obtain ⟨b, hb, hget⟩ := ih (j + 1) (a.set j (a.get ⟨j + 1, hj⟩) (by omega)) (by omega)
    refine ⟨b, by rw [shiftDown, dif_pos hj, hb], fun i hi => ?_⟩
    have hset : ∀ m (hm : m < n), (a.set j (a.get ⟨j + 1, hj⟩) (by omega)).get ⟨m, hm⟩ =
        if j = m then a.get ⟨j + 1, hj⟩ else a.get ⟨m, hm⟩ := by
      intro m hm
      exact Vector.getElem_set (by omega) hm
    rw [hget i hi]
    by_cases hij : j + 1 ≤ i ∧ i < j + 1 + k
    · rw [dif_pos hij, dif_pos (by omega), hset, if_neg (by omega)]
    · rw [dif_neg hij, hset]
      by_cases hji : j = i
      · subst hji
        rw [if_pos rfl, dif_pos (by omega)]
      · rw [if_neg hji, dif_neg (by omega)]

/-- Closing the gap at `pos` erases one element of the front. -/
theorem shiftDown_front (a : Vector α n) {count pos : ℕ} (hc : count ≤ n) (hp : pos < count) :
    ∃ b, shiftDown (count - 1 - pos) pos a = some b ∧
      front b (count - 1) = (front a count).eraseIdx pos := by
  obtain ⟨b, hb, hget⟩ := shiftDown_eq (count - 1 - pos) pos a (by omega)
  refine ⟨b, hb, List.ext_getElem? fun i => ?_⟩
  by_cases hi : i < count - 1
  · rw [getElem_front (by omega) hi, hget i (by omega), List.getElem?_eraseIdx]
    by_cases hip : i < pos
    · rw [if_pos hip, getElem_front hc (by omega), dif_neg (by omega)]
    · rw [if_neg hip, getElem_front hc (by omega), dif_pos (by omega)]
  · rw [List.getElem?_eq_none (by rw [length_front (by omega)]; omega),
      List.getElem?_eq_none (by
        rw [List.length_eraseIdx_of_lt (by rw [length_front hc]; omega), length_front hc]
        omega)]

/-- Writing the cell behind the front appends to it. -/
theorem front_set_succ (a : Vector α n) {count : ℕ} (h : count < n) (x : α) :
    front (a.set count x h) (count + 1) = front a count ++ [x] := by
  rw [front, front, Vector.toList_set, List.take_succ_eq_append_getElem (by simpa using h),
    List.getElem_set_self, List.take_set_of_le (le_refl _)]

end AuroraOS.Lib
