import Mathlib.Algebra.GroupWithZero.Nat
import Mathlib.Data.List.Basic
import Mathlib.Data.List.InsertIdx
import Mathlib.Tactic.Common

/-!
# Lines with a cursor

A list of lines with a cursor in one of them, and the flat text that they stand for: the lines
joined by a separator, cut at the cursor.

## Main definitions

- `LineZipper`
- `LineZipper.before`, `LineZipper.after` — the text on both sides of the cursor

## Main results

- `LineZipper.intercalate_lines`
- `LineZipper.before_insert`, `LineZipper.before_split`, `LineZipper.before_erase`,
  `LineZipper.before_merge`
-/

namespace AuroraOS.Lib

/-- The lines above the cursor, its own one and the ones below, with the cursor in front of
    character `col`. -/
structure LineZipper (α : Type*) where
  above : List (List α)
  line : List α
  below : List (List α)
  col : ℕ

namespace LineZipper

variable {α : Type*} (sep : α) (z : LineZipper α)

def lines : List (List α) := z.above ++ z.line :: z.below

def before : List α := z.above.flatMap (· ++ [sep]) ++ z.line.take z.col

def after : List α := z.line.drop z.col ++ z.below.flatMap (sep :: ·)

/-- The cursor is not behind the end of its line. -/
def InLine : Prop := z.col ≤ z.line.length

theorem length_lines : z.lines.length = z.above.length + 1 + z.below.length := by
  rw [lines, List.length_append, List.length_cons]
  omega

theorem getElem?_lines_of_lt {i : ℕ} (h : i < z.above.length) : z.lines[i]? = z.above[i]? :=
  List.getElem?_append_left h

theorem getElem?_lines_self : z.lines[z.above.length]? = some z.line := by
  rw [lines, List.getElem?_append_right (Nat.le_refl _), Nat.sub_self]
  rfl

theorem getElem?_lines_add (i : ℕ) : z.lines[z.above.length + 1 + i]? = z.below[i]? := by
  rw [lines, List.getElem?_append_right (by omega),
    show z.above.length + 1 + i - z.above.length = i + 1 by omega]
  rfl

/-- A property of all lines, part by part. -/
theorem forall_lines {P : ℕ → List α → Prop} (habove : ∀ i l, z.above[i]? = some l → P i l)
    (hline : P z.above.length z.line)
    (hbelow : ∀ i l, z.below[i]? = some l → P (z.above.length + 1 + i) l) (i : ℕ) (l : List α)
    (h : z.lines[i]? = some l) : P i l := by
  obtain hi | rfl | hi := Nat.lt_trichotomy i z.above.length
  · rw [getElem?_lines_of_lt z hi] at h
    exact habove i l h
  · rw [getElem?_lines_self] at h
    exact Option.some.inj h ▸ hline
  · obtain ⟨k, rfl⟩ := Nat.exists_eq_add_of_le (Nat.succ_le_of_lt hi)
    exact hbelow k l ((z.getElem?_lines_add k).symm.trans h)

theorem intercalate_cons_eq (l : List α) (ls : List (List α)) :
    List.intercalate [sep] (l :: ls) = l ++ ls.flatMap (sep :: ·) := by
  induction ls generalizing l with
  | nil => simp
  | cons l' ls ih =>
    rw [List.intercalate_cons_cons, ih, List.flatMap_cons, List.append_assoc, List.singleton_append,
      List.cons_append]

/-- The text is what is on both sides of the cursor. -/
theorem intercalate_lines : List.intercalate [sep] z.lines = z.before sep ++ z.after sep := by
  have hline : z.line.take z.col ++ z.line.drop z.col = z.line := List.take_append_drop _ _
  have habove : ∀ ls : List (List α), List.intercalate [sep] (ls ++ z.line :: z.below) =
      ls.flatMap (· ++ [sep]) ++ List.intercalate [sep] (z.line :: z.below) := by
    intro ls
    induction ls with
    | nil => rfl
    | cons l ls ih =>
      have hcons : ∃ l' ls', ls ++ z.line :: z.below = l' :: ls' := by
        cases ls with
        | nil => exact ⟨_, _, rfl⟩
        | cons l' ls => exact ⟨_, _, rfl⟩
      obtain ⟨l', ls', hcons⟩ := hcons
      rw [List.cons_append, hcons, List.intercalate_cons_cons, ← hcons, ih, List.flatMap_cons,
        List.append_assoc (l ++ [sep]), List.append_assoc l]
  rw [lines, habove, intercalate_cons_eq, before, after, List.append_assoc, ← List.append_assoc
    (z.line.take z.col), hline]

/-- The number of characters in front of the cursor. -/
theorem length_before (h : z.InLine) :
    (z.before sep).length = (z.above.map (·.length + 1)).sum + z.col := by
  have hcol : (z.line.take z.col).length = z.col := List.length_take_of_le h
  rw [before, List.length_append, hcol, List.length_flatMap]
  congr 2
  exact List.map_congr_left fun l _ => List.length_append

section Operations

variable {z : LineZipper α}

def insert (z : LineZipper α) (a : α) : LineZipper α :=
  { z with line := z.line.insertIdx z.col a, col := z.col + 1 }

def split (z : LineZipper α) : LineZipper α :=
  ⟨z.above ++ [z.line.take z.col], z.line.drop z.col, z.below, 0⟩

def erase (z : LineZipper α) : LineZipper α :=
  { z with line := z.line.eraseIdx (z.col - 1), col := z.col - 1 }

/-- The line `prev` above the cursor's one is joined with it. -/
def merge (z : LineZipper α) (above : List (List α)) (prev : List α) : LineZipper α :=
  ⟨above, prev ++ z.line, z.below, prev.length⟩

theorem insertIdx_eq_take_drop (l : List α) {k : ℕ} (h : k ≤ l.length) (a : α) :
    l.insertIdx k a = l.take k ++ a :: l.drop k := by
  induction k generalizing l with
  | zero => rfl
  | succ k ih =>
    cases l with
    | nil => exact absurd h (Nat.not_succ_le_zero k)
    | cons b l =>
      rw [List.insertIdx_succ_cons, ih l (Nat.le_of_succ_le_succ h)]
      rfl

theorem before_insert (h : z.InLine) (a : α) :
    (z.insert a).before sep = z.before sep ++ [a] ∧ (z.insert a).after sep = z.after sep := by
  have hlen : (z.line.take z.col).length = z.col := List.length_take_of_le h
  have hline : (z.insert a).line = z.line.take z.col ++ [a] ++ z.line.drop z.col := by
    rw [insert, insertIdx_eq_take_drop _ h, List.append_assoc]
    rfl
  have hcol : (z.insert a).col = (z.line.take z.col ++ [a]).length := by
    rw [List.length_append, hlen]
    rfl
  refine ⟨?_, ?_⟩
  · rw [before, hline, hcol, List.take_left, before, List.append_assoc]
    rfl
  · rw [after, hline, hcol, List.drop_left, after]
    rfl

theorem before_split :
    z.split.before sep = z.before sep ++ [sep] ∧ z.split.after sep = z.after sep := by
  refine ⟨?_, ?_⟩
  · rw [before, split, List.flatMap_append, List.flatMap_singleton, List.take_zero, List.append_nil,
      before, List.append_assoc]
  · rw [after, split, List.drop_zero, after]

theorem before_erase (h : z.InLine) (hcol : 0 < z.col) :
    ∃ a, z.before sep = z.erase.before sep ++ [a] ∧ z.erase.after sep = z.after sep := by
  obtain ⟨k, hk⟩ := Nat.exists_eq_add_of_lt hcol
  have hlt : k < z.line.length := by
    have hle : z.col ≤ z.line.length := h
    omega
  have hcol' : z.col = k + 1 := by omega
  have hlen : (z.line.take k).length = k := List.length_take_of_le (Nat.le_of_lt hlt)
  have hline : z.erase.line = z.line.take k ++ z.line.drop (k + 1) := by
    rw [erase, hcol', Nat.add_sub_cancel, List.eraseIdx_eq_take_drop_succ]
  have hpos : z.erase.col = (z.line.take k).length := by
    rw [hlen, erase, hcol', Nat.add_sub_cancel]
  refine ⟨z.line[k], ?_, ?_⟩
  · rw [before, hcol', List.take_succ_eq_append_getElem hlt, before, hline, hpos, List.take_left,
      List.append_assoc]
    rfl
  · rw [after, hline, hpos, List.drop_left, after, hcol']
    rfl

theorem before_merge {above : List (List α)} {prev : List α} (h : z.above = above ++ [prev])
    (hcol : z.col = 0) :
    z.before sep = (z.merge above prev).before sep ++ [sep] ∧
      (z.merge above prev).after sep = z.after sep := by
  refine ⟨?_, ?_⟩
  · rw [before, h, hcol, List.take_zero, List.append_nil, List.flatMap_append,
      List.flatMap_singleton, before, merge, List.take_left, List.append_assoc]
  · rw [after, merge, List.drop_left, after, hcol, List.drop_zero]

end Operations

end LineZipper

end AuroraOS.Lib
