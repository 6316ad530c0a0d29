import Mathlib.Data.Nat.ModEq
import Mathlib.Logic.Function.Basic
import Mathlib.Tactic.SplitIfs

/-!
# Ring buffers with one free place

A ring of `N` places has an index where the next item is read and one where the next item is
written. The items from the one index up to the other are pending; where the indices are equal there
are none, so that at most `N - 1` items fit. Writing and reading touch one index each: an item is
pending from the moment the write index moves to the moment the read index does.

## Main definitions

- `Ring`, `Ring.pending`
- `Ring.put`, `Ring.advance`
- `Ring.Accounts` — what was accepted and popped so far

## Main results

- `Ring.length_pending_eq_iff` — a ring is full when `N - 1` items are pending
- `Ring.pending_put`, `Ring.pending_eq_cons` — first in, first out
-/

namespace AuroraOS.Lib

/-- A ring of `N` places. -/
structure Ring (α : Type*) (N : ℕ) where
  buf : ℕ → α
  readIdx : ℕ
  writeIdx : ℕ
  readIdx_lt : readIdx < N
  writeIdx_lt : writeIdx < N

namespace Ring

variable {α : Type*} {N : ℕ} (r : Ring α N)

/-- The number of pending items. -/
def count : ℕ := (r.writeIdx + N - r.readIdx) % N

/-- The pending items, the next one first. -/
def pending : List α := (List.range r.count).map fun i => r.buf ((r.readIdx + i) % N)

/-- No item fits any more. -/
def Full : Prop := (r.writeIdx + 1) % N = r.readIdx

instance : Decidable r.Full := inferInstanceAs (Decidable (_ = _))

theorem pos (r : Ring α N) : 0 < N := (Nat.zero_le _).trans_lt r.readIdx_lt

/-- Write an item and move the write index. -/
def put (v : α) : Ring α N where
  buf := Function.update r.buf r.writeIdx v
  readIdx := r.readIdx
  writeIdx := (r.writeIdx + 1) % N
  readIdx_lt := r.readIdx_lt
  writeIdx_lt := Nat.mod_lt _ r.pos

/-- Move the read index. -/
def advance : Ring α N where
  buf := r.buf
  readIdx := (r.readIdx + 1) % N
  writeIdx := r.writeIdx
  readIdx_lt := Nat.mod_lt _ r.pos
  writeIdx_lt := r.writeIdx_lt

variable {r}

@[simp] theorem length_pending : r.pending.length = r.count := by
  rw [pending, List.length_map, List.length_range]

theorem count_lt : r.count < N := Nat.mod_lt _ r.pos

/-- The write index, counted from the read index. -/
theorem count_eq : r.count =
    if r.readIdx ≤ r.writeIdx then r.writeIdx - r.readIdx else r.writeIdx + N - r.readIdx := by
  have hr := r.readIdx_lt
  have hw := r.writeIdx_lt
  rw [count]
  split
  · rw [Nat.sub_add_comm (by omega), Nat.add_mod_right, Nat.mod_eq_of_lt (by omega)]
  · rw [Nat.mod_eq_of_lt (by omega)]

theorem next_eq {i : ℕ} (h : i < N) : (i + 1) % N = if i + 1 = N then 0 else i + 1 := by
  split
  · next hlast => rw [hlast, Nat.mod_self]
  · rw [Nat.mod_eq_of_lt (by omega)]

theorem pending_eq_nil_iff : r.pending = [] ↔ r.writeIdx = r.readIdx := by
  have hr := r.readIdx_lt
  have hw := r.writeIdx_lt
  rw [← List.length_eq_zero_iff, length_pending, count_eq]
  split <;> omega

/-- A ring is full when all its places but one hold pending items. -/
theorem length_pending_eq_iff : r.pending.length = N - 1 ↔ r.Full := by
  have hr := r.readIdx_lt
  have hw := r.writeIdx_lt
  rw [length_pending, count_eq, Full, next_eq hw]
  split_ifs <;> omega

theorem count_put (hfull : ¬ r.Full) (v : α) : (r.put v).count = r.count + 1 := by
  have hr := r.readIdx_lt
  have hw := r.writeIdx_lt
  rw [Full, next_eq hw] at hfull
  rw [count_eq, count_eq]
  simp only [put, next_eq hw]
  split_ifs at hfull ⊢ <;> omega

theorem pending_put (hfull : ¬ r.Full) (v : α) : (r.put v).pending = r.pending ++ [v] := by
  have hr := r.readIdx_lt
  have hw := r.writeIdx_lt
  have hplace : (r.readIdx + r.count) % N = r.writeIdx := by
    rw [count_eq]
    split
    · rw [show r.readIdx + (r.writeIdx - r.readIdx) = r.writeIdx by omega, Nat.mod_eq_of_lt hw]
    · rw [show r.readIdx + (r.writeIdx + N - r.readIdx) = r.writeIdx + N by omega,
        Nat.add_mod_right, Nat.mod_eq_of_lt hw]
  rw [pending, count_put hfull, List.range_succ, List.map_append, List.map_singleton]
  congr 1
  · refine List.map_congr_left fun i hi => ?_
    -- an earlier item stands in another place
    have hlt := List.mem_range.mp hi
    have hcount := count_lt (r := r)
    refine Function.update_of_ne (fun heq => ?_) _ _
    rw [← hplace] at heq
    have hdvd := Nat.ModEq.add_left_cancel' r.readIdx heq
    rw [Nat.ModEq, Nat.mod_eq_of_lt (by omega), Nat.mod_eq_of_lt hcount] at hdvd
    omega
  · simp only [put, hplace, Function.update_self]

theorem count_advance (hne : r.pending ≠ []) : r.advance.count + 1 = r.count := by
  have hr := r.readIdx_lt
  have hw := r.writeIdx_lt
  rw [Ne, pending_eq_nil_iff] at hne
  rw [count_eq, count_eq]
  simp only [advance, next_eq hr]
  split_ifs <;> omega

theorem pending_eq_cons (hne : r.pending ≠ []) :
    r.pending = r.buf r.readIdx :: r.advance.pending := by
  rw [pending, ← count_advance hne, List.range_succ_eq_map, List.map_cons, List.map_map,
    Nat.add_zero, Nat.mod_eq_of_lt r.readIdx_lt, pending]
  congr 1
  refine List.map_congr_left fun i _ => ?_
  simp only [Function.comp_apply, advance, Nat.mod_add_mod]
  congr 2
  omega

section history

variable {accepted popped : List α}

/-- Everything that was accepted was popped in this order or is pending. -/
def Accounts (r : Ring α N) (accepted popped : List α) : Prop := accepted = popped ++ r.pending

theorem Accounts.isPrefix (h : r.Accounts accepted popped) : popped <+: accepted :=
  ⟨r.pending, h.symm⟩

theorem Accounts.put (h : r.Accounts accepted popped) (hfull : ¬ r.Full) (v : α) :
    (r.put v).Accounts (accepted ++ [v]) popped := by
  rw [Accounts, pending_put hfull, h, List.append_assoc]

theorem Accounts.advance (h : r.Accounts accepted popped) (hne : r.pending ≠ []) :
    r.advance.Accounts accepted (popped ++ [r.buf r.readIdx]) := by
  rw [Accounts, h, pending_eq_cons hne, List.append_assoc, List.singleton_append]

/-- The ring is full exactly when `N - 1` items were accepted and not popped. -/
theorem Accounts.full_iff (h : r.Accounts accepted popped) :
    r.Full ↔ accepted.length = popped.length + (N - 1) := by
  rw [h, List.length_append, Nat.add_right_inj, length_pending_eq_iff]

theorem Accounts.ne_iff (h : r.Accounts accepted popped) :
    popped ≠ accepted ↔ r.writeIdx ≠ r.readIdx := by
  rw [h, Ne, Ne, List.self_eq_append_right, pending_eq_nil_iff]

end history

end Ring

end AuroraOS.Lib
