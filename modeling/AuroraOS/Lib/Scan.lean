import Mathlib.Data.List.Basic
import Mathlib.Data.List.TakeWhile
import Mathlib.Tactic.Common

/-!
# Scanning a text

Loops that move a position through a part of an array, and what they do to the text that is still to
be read. An access outside the array fails.

## Main definitions

- `scanWhile`, `scanInto` — skip elements, and copy them into a field of a fixed size
- `Between` — the text between two positions

## Main results

- `Between.scanWhile`, `Between.scanInto`
- `length_takeInto_rest_lt`
- `takeInto_fst`, `takeInto_snd`
-/

namespace AuroraOS.Lib

variable {α : Type}

/-- `while (i < end && p(s[i])) i++`, with `n` elements to the end. -/
def scanWhile (s : List α) (p : α → Bool) : ℕ → ℕ → Option ℕ
  | 0, i => some i
  | n + 1, i => do
    let c ← s[i]?
    if p c then scanWhile s p n (i + 1) else some i

/-- The same loop with a copy of what `f` keeps, which ends when `max` elements are kept. -/
def scanInto (s : List α) (p : α → Bool) (f : α → Option α) (max : ℕ) :
    ℕ → ℕ → List α → Option (List α × ℕ)
  | 0, i, out => some (out, i)
  | n + 1, i, out => do
    let c ← s[i]?
    if p c ∧ out.length < max then scanInto s p f max n (i + 1) (out ++ (f c).toList)
    else some (out, i)

/-- `i < end && s[i] == c`. -/
def scanAt [DecidableEq α] (s : List α) (e i : ℕ) (c : α) : Option Bool :=
  if i < e then do
    let b ← s[i]?
    some (b == c)
  else some false

/-- The `n` elements from `i` on, read at once. -/
def readSlice (s : List α) (i n : ℕ) : Option (List α) :=
  if i + n ≤ s.length then some ((s.drop i).take n) else none

/-- What `scanInto` keeps of a text, and what it leaves of it. -/
def takeInto (p : α → Bool) (f : α → Option α) (max : ℕ) : List α → List α → List α × List α
  | [], out => (out, [])
  | c :: l, out =>
    if p c ∧ out.length < max then takeInto p f max l (out ++ (f c).toList) else (out, c :: l)

section Texts

variable {p : α → Bool} {f : α → Option α} {max : ℕ} {l l' out : List α} {c : α}

theorem not_of_dropWhile_eq_cons (h : l.dropWhile p = c :: l') : p c = false := by
  have hne : l.dropWhile p ≠ [] := by rw [h]; exact List.cons_ne_nil c l'
  have hhead := List.head_dropWhile_not p hne
  simpa only [h, List.head_cons] using hhead

theorem length_dropWhile_le (p : α → Bool) (l : List α) : (l.dropWhile p).length ≤ l.length :=
  (List.dropWhile_suffix p).length_le

theorem length_takeInto_rest_le (l out : List α) :
    (takeInto p f max l out).2.length ≤ l.length := by
  induction l generalizing out with
  | nil => exact Nat.le_refl _
  | cons c l ih =>
    rw [takeInto]
    split_ifs
    · exact Nat.le_succ_of_le (ih _)
    · exact Nat.le_refl _

/-- An element that is accepted is read. -/
theorem length_takeInto_rest_lt (hc : p c = true) (hmax : 0 < max) :
    (takeInto p f max (c :: l) []).2.length < (c :: l).length := by
  rw [takeInto, if_pos ⟨hc, hmax⟩]
  exact Nat.lt_succ_of_le (length_takeInto_rest_le _ _)

theorem length_scanInto_le {s out' : List α} {n i j : ℕ}
    (h : scanInto s p f max n i out = some (out', j)) (hout : out.length ≤ max) :
    out'.length ≤ max := by
  induction n generalizing i out with
  | zero =>
    obtain ⟨rfl, -⟩ := Prod.mk.inj (Option.some.inj h)
    exact hout
  | succ n ih =>
    obtain ⟨c, -, h⟩ := Option.bind_eq_some_iff.mp h
    split_ifs at h with hc
    · refine ih h ?_
      have hf : (f c).toList.length ≤ 1 := by cases f c <;> simp
      rw [List.length_append]
      omega
    · obtain ⟨rfl, -⟩ := Prod.mk.inj (Option.some.inj h)
      exact hout

theorem takeInto_fst (hout : out.length ≤ max) : (takeInto p f max l out).1 =
    out ++ ((l.takeWhile p).filterMap f).take (max - out.length) := by
  induction l generalizing out with
  | nil => rw [takeInto, List.takeWhile_nil, List.filterMap_nil, List.take_nil, List.append_nil]
  | cons c l ih =>
    rw [takeInto]
    split_ifs with hc
    · rw [List.takeWhile_cons_of_pos hc.1]
      cases hf : f c with
      | none =>
        rw [List.filterMap_cons_none hf, Option.toList_none, List.append_nil, ih hout]
      | some b =>
        have hlen : (out ++ [b]).length = out.length + 1 := by simp
        rw [List.filterMap_cons_some hf, Option.toList_some, ih (by omega), hlen,
          show max - out.length = max - (out.length + 1) + 1 by omega, List.take_succ_cons,
          List.append_assoc, List.singleton_append]
    · obtain hp | hfull := not_and_or.mp hc
      · rw [List.takeWhile_cons_of_neg hp, List.filterMap_nil, List.take_nil, List.append_nil]
      · rw [show max - out.length = 0 by omega, List.take_zero, List.append_nil]

theorem takeInto_snd_dropWhile : (takeInto p f max l out).2.dropWhile p = l.dropWhile p := by
  induction l generalizing out with
  | nil => rfl
  | cons c l ih =>
    rw [takeInto]
    split_ifs with hc
    · rw [ih, List.dropWhile_cons_of_pos hc.1]
    · rfl

/-- Where every element is kept, what is left starts behind the `max` elements. -/
theorem takeInto_snd (hf : ∀ c, (f c).isSome) : (takeInto p f max l out).2 =
    (l.takeWhile p).drop (max - out.length) ++ l.dropWhile p := by
  induction l generalizing out with
  | nil => rw [takeInto, List.takeWhile_nil, List.drop_nil, List.dropWhile_nil, List.append_nil]
  | cons c l ih =>
    rw [takeInto]
    split_ifs with hc
    · obtain ⟨b, hb⟩ := Option.isSome_iff_exists.mp (hf c)
      have hlen : (out ++ [b]).length = out.length + 1 := by simp
      rw [List.takeWhile_cons_of_pos hc.1, List.dropWhile_cons_of_pos hc.1, hb, Option.toList_some,
        ih, hlen, show max - out.length = max - (out.length + 1) + 1 by omega, List.drop_succ_cons]
    · obtain hp | hfull := not_and_or.mp hc
      · rw [List.takeWhile_cons_of_neg hp, List.dropWhile_cons_of_neg hp, List.drop_nil,
          List.nil_append]
      · rw [show max - out.length = 0 by omega, List.drop_zero, List.takeWhile_append_dropWhile]

/-- A text behind which nothing more is dropped. -/
theorem dropWhile_append_of_stop (hstop : l'.dropWhile p = l') :
    (l ++ l').dropWhile p = l.dropWhile p ++ l' := by
  rw [List.dropWhile_append]
  split_ifs with hempty
  · rw [hstop, List.isEmpty_iff.mp hempty, List.nil_append]
  · rfl

theorem takeWhile_append_of_stop (hall : ∀ c ∈ l, p c = true) (hstop : l'.dropWhile p = l') :
    (l ++ l').takeWhile p = l := by
  have hnone : l'.takeWhile p = [] := by
    have happend := List.takeWhile_append_dropWhile (p := p) (l := l')
    rw [hstop] at happend
    exact List.append_left_eq_self.mp happend
  rw [List.takeWhile_append_of_pos hall, hnone, List.append_nil]

end Texts

/-- The text between the positions `i` and `e` is `l`. -/
structure Between (s : List α) (i e : ℕ) (l : List α) : Prop where
  eq : (s.take e).drop i = l
  le : i ≤ e
  le_length : e ≤ s.length

namespace Between

variable {s l l₁ l₂ out : List α} {i e : ℕ} {c : α}

theorem whole (s : List α) : Between s 0 s.length s :=
  ⟨by rw [List.take_length, List.drop_zero], Nat.zero_le _, Nat.le_refl _⟩

theorem of_le (s : List α) (hi : i ≤ s.length) : Between s i s.length (s.drop i) :=
  ⟨by rw [List.take_length], hi, Nat.le_refl _⟩

theorem length_eq (h : Between s i e l) : i + l.length = e := by
  have hle := h.le
  have hlength := h.le_length
  rw [← h.eq, List.length_drop, List.length_take]
  omega

theorem not_lt (h : Between s i e []) : ¬i < e := by
  have hlen := h.length_eq
  rw [List.length_nil] at hlen
  omega

theorem lt (h : Between s i e (c :: l)) : i < e := by
  have hlen := h.length_eq
  rw [List.length_cons] at hlen
  omega

/-- The text in two parts. -/
theorem split (h : Between s i e (l₁ ++ l₂)) :
    Between s i (i + l₁.length) l₁ ∧ Between s (i + l₁.length) e l₂ := by
  have hlen := h.length_eq
  have hle := h.le_length
  rw [List.length_append] at hlen
  refine ⟨⟨?_, by omega, by omega⟩, ⟨?_, by omega, hle⟩⟩
  · have heq := congrArg (List.take l₁.length) h.eq
    rw [List.take_left, List.drop_take, List.take_take, Nat.min_eq_left (by omega)] at heq
    rw [List.drop_take, Nat.add_sub_cancel_left, heq]
  · rw [← List.drop_drop, h.eq, List.drop_left]

/-- The first part of the text, read at once. -/
theorem slice (h : Between s i e (l₁ ++ l₂)) : (s.drop i).take l₁.length = l₁ := by
  have heq := h.split.1.eq
  rwa [List.drop_take, Nat.add_sub_cancel_left] at heq

/-- The text behind its first elements. -/
theorem drop (h : Between s i e l) {n : ℕ} (hn : n ≤ l.length) :
    Between s (i + n) e (l.drop n) := by
  have hsplit :=
    (split (show Between s i e (l.take n ++ l.drop n) by rwa [List.take_append_drop])).2
  rwa [List.length_take, Nat.min_eq_left hn] at hsplit

theorem readSlice (h : Between s i e l) {n : ℕ} (hn : n ≤ l.length) :
    Lib.readSlice s i n = some (l.take n) := by
  have hlen := h.length_eq
  have hle := h.le_length
  have heq := congrArg (List.take n) h.eq
  rw [List.drop_take, List.take_take, Nat.min_eq_left (by omega)] at heq
  rw [Lib.readSlice, if_pos (by omega), heq]

theorem uncons (h : Between s i e (c :: l)) : s[i]? = some c ∧ Between s (i + 1) e l := by
  refine ⟨?_, (split (show Between s i e ([c] ++ l) from h)).2⟩
  have hget : ((s.take e).drop i)[0]? = some c := by rw [h.eq]; rfl
  rw [List.getElem?_drop, Nat.add_zero, List.getElem?_take_of_lt h.lt] at hget
  exact hget

protected theorem scanWhile (h : Between s i e l) (p : α → Bool) :
    ∃ j, scanWhile s p (e - i) i = some j ∧ Between s j e (l.dropWhile p) := by
  induction l generalizing i with
  | nil =>
    have hzero : e - i = 0 := Nat.sub_eq_zero_of_le (Nat.le_of_not_lt h.not_lt)
    exact ⟨i, by rw [hzero]; rfl, h⟩
  | cons c l ih =>
    obtain ⟨hget, hrest⟩ := h.uncons
    have hlt := h.lt
    rw [show e - i = e - (i + 1) + 1 by omega, scanWhile, hget, Option.bind_eq_bind,
      Option.bind_some, List.dropWhile_cons]
    split_ifs
    · exact ih hrest
    · exact ⟨i, rfl, h⟩

/-- Where a loop that skips elements ends. -/
theorem scanWhile_eq (h : Between s i e l) (p : α → Bool) :
    Lib.scanWhile s p (e - i) i = some (i + (l.takeWhile p).length) ∧
      Between s i (i + (l.takeWhile p).length) (l.takeWhile p) ∧
      Between s (i + (l.takeWhile p).length) e (l.dropWhile p) := by
  obtain ⟨j, hscan, hb⟩ := h.scanWhile p
  have hsplit : Between s i e (l.takeWhile p ++ l.dropWhile p) := by
    rwa [List.takeWhile_append_dropWhile]
  have hlen := hsplit.length_eq
  have hlen' := hb.length_eq
  rw [List.length_append] at hlen
  have hj : j = i + (l.takeWhile p).length := by omega
  exact ⟨hj ▸ hscan, hsplit.split⟩

protected theorem scanInto (h : Between s i e l) (p : α → Bool) (f : α → Option α) (max : ℕ)
    (out : List α) :
    ∃ j, scanInto s p f max (e - i) i out = some ((takeInto p f max l out).1, j) ∧
      Between s j e (takeInto p f max l out).2 := by
  induction l generalizing i out with
  | nil =>
    have hzero : e - i = 0 := Nat.sub_eq_zero_of_le (Nat.le_of_not_lt h.not_lt)
    exact ⟨i, by rw [hzero]; rfl, h⟩
  | cons c l ih =>
    obtain ⟨hget, hrest⟩ := h.uncons
    have hlt := h.lt
    rw [show e - i = e - (i + 1) + 1 by omega, scanInto, hget, Option.bind_eq_bind,
      Option.bind_some, takeInto]
    split_ifs
    · exact ih hrest _
    · exact ⟨i, rfl, h⟩

theorem scanAt_nil [DecidableEq α] (h : Between s i e []) (b : α) :
    scanAt s e i b = some false := if_neg h.not_lt

theorem scanAt_cons [DecidableEq α] (h : Between s i e (c :: l)) (b : α) :
    scanAt s e i b = some (c == b) := by
  rw [scanAt, if_pos h.lt, h.uncons.1]
  rfl

end Between

end AuroraOS.Lib
