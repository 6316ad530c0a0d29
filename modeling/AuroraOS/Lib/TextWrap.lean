import Mathlib.Data.List.Basic
import Mathlib.Data.List.ReduceOption
import Mathlib.Tactic.Common

/-!
# Words and lines

The words of a stream of characters, spaces and breaks, and their arrangement on lines. A stream may
also be cut between two words without a space.

## Main definitions

- `Piece`, `pieceItems` — a stream, and its words and breaks
- `Uncut` — no word is cut
- `Wrapped` — lines that show words in order, with single separators

## Main results

- `pieceItems_uncut`, `uncut_of_words_eq` — when the words are those of the stream without its cuts
- `Wrapped.words`, `Wrapped.ink`
-/

namespace AuroraOS.Lib

variable {α : Type}

/-- A piece of a stream. -/
inductive Piece (α : Type) where
  | char (c : α)
  | space
  | lineBreak
  | cut

/-- A word of a stream, unless it is empty, in front of what follows. -/
def closeWord (word : List α) (items : List (Option (List α))) : List (Option (List α)) :=
  if word = [] then items else some word :: items

/-- The words of a stream, behind the start `word` of one, with `none` for a break. -/
def pieceItems : List α → List (Piece α) → List (Option (List α))
  | word, [] => closeWord word []
  | word, .char c :: ps => pieceItems (word ++ [c]) ps
  | word, .space :: ps => closeWord word (pieceItems [] ps)
  | word, .lineBreak :: ps => closeWord word (none :: pieceItems [] ps)
  | word, .cut :: ps => closeWord word (pieceItems [] ps)

/-- A stream without its cuts. -/
def uncutPieces : List (Piece α) → List (Piece α)
  | [] => []
  | .cut :: ps => uncutPieces ps
  | p :: ps => p :: uncutPieces ps

/-- The next piece but cuts is a character. -/
def StartsWord : List (Piece α) → Prop
  | .char _ :: _ => True
  | .cut :: ps => StartsWord ps
  | _ => False

/-- A cut comes first, and a character behind it. -/
def CutFirst : List (Piece α) → Prop
  | .cut :: ps => StartsWord ps
  | _ => False

/-- No cut stands between two characters of a word. -/
def Uncut : List (Piece α) → Prop
  | [] => True
  | .char _ :: ps => ¬CutFirst ps ∧ Uncut ps
  | _ :: ps => Uncut ps

/-- The characters of a stream. -/
def pieceChars : List (Piece α) → List α
  | [] => []
  | .char c :: ps => c :: pieceChars ps
  | _ :: ps => pieceChars ps

section Items

variable {word w : List α} {items items' : List (Option (List α))} {ps : List (Piece α)}

theorem closeWord_nil (items : List (Option (List α))) : closeWord [] items = items := if_pos rfl

theorem closeWord_of_ne (h : word ≠ []) (items : List (Option (List α))) :
    closeWord word items = some word :: items := if_neg h

theorem closeWord_eq_append (word : List α) (items : List (Option (List α))) :
    closeWord word items = closeWord word [] ++ items := by
  rw [closeWord, closeWord]
  split_ifs
  · rfl
  · rfl

theorem mem_closeWord :
    some w ∈ closeWord word items ↔ (w = word ∧ word ≠ []) ∨ some w ∈ items := by
  rw [closeWord]
  split_ifs with hword
  · simp [hword]
  · simp [hword]

theorem reduceOption_closeWord (word : List α) (items : List (Option (List α))) :
    (closeWord word items).reduceOption.flatten = word ++ items.reduceOption.flatten := by
  rw [closeWord]
  split_ifs with hword
  · rw [hword, List.nil_append]
  · rw [List.reduceOption_cons_of_some, List.flatten_cons]

/-- A word that has started comes first. -/
theorem pieceItems_head (hword : word ≠ []) (ps : List (Piece α)) :
    ∃ w items, pieceItems word ps = some w :: items ∧ word <+: w := by
  induction ps generalizing word with
  | nil => exact ⟨word, [], closeWord_of_ne hword _, List.prefix_refl _⟩
  | cons p ps ih =>
    cases p with
    | char c =>
      obtain ⟨w, items, hitems, hinit⟩ := ih (List.append_ne_nil_of_right_ne_nil word
        (List.cons_ne_nil c []))
      exact ⟨w, items, hitems, (List.prefix_append word [c]).trans hinit⟩
    | space => exact ⟨word, _, closeWord_of_ne hword _, List.prefix_refl _⟩
    | lineBreak => exact ⟨word, _, closeWord_of_ne hword _, List.prefix_refl _⟩
    | cut => exact ⟨word, _, closeWord_of_ne hword _, List.prefix_refl _⟩

/-- Where no word starts, the word in front ends. -/
theorem pieceItems_uncut_of_not (h : ¬StartsWord ps) (word : List α) :
    pieceItems word (uncutPieces ps) = closeWord word (pieceItems [] (uncutPieces ps)) := by
  induction ps with
  | nil => rfl
  | cons p ps ih =>
    cases p with
    | char c => exact absurd trivial h
    | space =>
      show closeWord word _ = closeWord word (closeWord [] _)
      rw [closeWord_nil]
    | lineBreak =>
      show closeWord word _ = closeWord word (closeWord [] _)
      rw [closeWord_nil]
    | cut => exact ih h

theorem uncutPieces_of_startsWord (h : StartsWord ps) :
    ∃ c ps', uncutPieces ps = .char c :: ps' := by
  induction ps with
  | nil => exact h.elim
  | cons p ps ih =>
    cases p with
    | char c => exact ⟨c, _, rfl⟩
    | space => exact h.elim
    | lineBreak => exact h.elim
    | cut => exact ih h

/-- Where no word is cut, the cuts do not matter. -/
theorem pieceItems_uncut (h : Uncut ps) (hfirst : word ≠ [] → ¬CutFirst ps) :
    pieceItems word ps = pieceItems word (uncutPieces ps) := by
  induction ps generalizing word with
  | nil => rfl
  | cons p ps ih =>
    have hnil : Uncut ps → pieceItems [] ps = pieceItems [] (uncutPieces ps) := fun h =>
      ih h fun hne => absurd rfl hne
    cases p with
    | char c => exact ih h.2 fun _ => h.1
    | space => exact congrArg (closeWord word) (hnil h)
    | lineBreak => exact congrArg (fun items => closeWord word (none :: items)) (hnil h)
    | cut =>
      show closeWord word (pieceItems [] ps) = pieceItems word (uncutPieces ps)
      rw [hnil h]
      by_cases hword : word = []
      · rw [hword, closeWord_nil]
      · exact (pieceItems_uncut_of_not (hfirst hword) word).symm

theorem reduceOption_closeWord_inj
    (h : (closeWord word items).reduceOption = (closeWord word items').reduceOption) :
    items.reduceOption = items'.reduceOption := by
  rw [closeWord, closeWord] at h
  split_ifs at h
  · exact h
  · rw [List.reduceOption_cons_of_some, List.reduceOption_cons_of_some] at h
    exact (List.cons.inj h).2

/-- A word that is cut is in two parts. -/
theorem uncut_of_words_eq
    (h : (pieceItems word ps).reduceOption = (pieceItems word (uncutPieces ps)).reduceOption) :
    Uncut ps ∧ (word ≠ [] → ¬CutFirst ps) := by
  induction ps generalizing word with
  | nil => exact ⟨trivial, fun _ => id⟩
  | cons p ps ih =>
    cases p with
    | char c =>
      obtain ⟨huncut, hfirst⟩ := ih h
      exact ⟨⟨hfirst (List.append_ne_nil_of_right_ne_nil word (List.cons_ne_nil c [])), huncut⟩,
        fun _ => id⟩
    | space => exact ⟨(ih (reduceOption_closeWord_inj h)).1, fun _ => id⟩
    | lineBreak =>
      have h : (closeWord word (none :: pieceItems [] ps)).reduceOption =
        (closeWord word (none :: pieceItems [] (uncutPieces ps))).reduceOption := h
      have h' := reduceOption_closeWord_inj h
      rw [List.reduceOption_cons_of_none, List.reduceOption_cons_of_none] at h'
      exact ⟨(ih h').1, fun _ => id⟩
    | cut =>
      have h : (closeWord word (pieceItems [] ps)).reduceOption =
        (pieceItems word (uncutPieces ps)).reduceOption := h
      have hstart : word ≠ [] → ¬StartsWord ps := by
        intro hword hstart
        obtain ⟨c, ps', hps'⟩ := uncutPieces_of_startsWord hstart
        obtain ⟨w, items, hitems, hinit⟩ := pieceItems_head
          (List.append_ne_nil_of_right_ne_nil word (List.cons_ne_nil c [])) ps'
        rw [hps', pieceItems, closeWord_of_ne hword, hitems, List.reduceOption_cons_of_some,
          List.reduceOption_cons_of_some] at h
        have hlen := hinit.length_le
        rw [← (List.cons.inj h).1, List.length_append, List.length_singleton] at hlen
        omega
      refine ⟨?_, hstart⟩
      by_cases hword : word = []
      · subst hword
        rw [closeWord_nil] at h
        exact (ih h).1
      · rw [pieceItems_uncut_of_not (hstart hword) word] at h
        exact (ih (reduceOption_closeWord_inj h)).1

theorem pieceChars_uncutPieces (ps : List (Piece α)) :
    pieceChars (uncutPieces ps) = pieceChars ps := by
  induction ps with
  | nil => rfl
  | cons p ps ih =>
    cases p with
    | char c => exact congrArg (c :: ·) ih
    | space => exact ih
    | lineBreak => exact ih
    | cut => exact ih

/-- The words are made of the characters of the stream. -/
theorem flatten_pieceItems (word : List α) (ps : List (Piece α)) :
    (pieceItems word ps).reduceOption.flatten = word ++ pieceChars ps := by
  induction ps generalizing word with
  | nil => rw [pieceItems, reduceOption_closeWord]; rfl
  | cons p ps ih =>
    cases p with
    | char c => rw [pieceItems, ih, List.append_assoc]; rfl
    | space => rw [pieceItems, reduceOption_closeWord, ih]; rfl
    | lineBreak =>
      rw [pieceItems, reduceOption_closeWord, List.reduceOption_cons_of_none, ih]; rfl
    | cut => rw [pieceItems, reduceOption_closeWord, ih]; rfl

theorem ne_nil_of_mem_pieceItems (h : some w ∈ pieceItems word ps) : w ≠ [] := by
  induction ps generalizing word with
  | nil =>
    obtain ⟨rfl, hne⟩ | h := mem_closeWord.mp h
    · exact hne
    · exact absurd h List.not_mem_nil
  | cons p ps ih =>
    cases p with
    | char c => exact ih h
    | space =>
      obtain ⟨rfl, hne⟩ | h := mem_closeWord.mp h
      · exact hne
      · exact ih h
    | lineBreak =>
      obtain ⟨rfl, hne⟩ | h := mem_closeWord.mp h
      · exact hne
      · exact ih ((List.mem_cons.mp h).resolve_left (Option.some_ne_none w))
    | cut =>
      obtain ⟨rfl, hne⟩ | h := mem_closeWord.mp h
      · exact hne
      · exact ih h

/-- A word that has started is at most as long as its limit. -/
theorem length_le_of_pieceItems {n : ℕ} (h : ∀ w, some w ∈ pieceItems word ps → w.length ≤ n) :
    word.length ≤ n := by
  by_cases hword : word = []
  · rw [hword]
    exact Nat.zero_le n
  · obtain ⟨w, items, hitems, hinit⟩ := pieceItems_head hword ps
    exact Nat.le_trans hinit.length_le (h w (hitems ▸ List.mem_cons_self))

/-- A cut makes words shorter. -/
theorem length_le_of_uncut {n : ℕ} {word' : List α} (hle : word.length ≤ word'.length)
    (h : ∀ w, some w ∈ pieceItems word' (uncutPieces ps) → w.length ≤ n) :
    ∀ w, some w ∈ pieceItems word ps → w.length ≤ n := by
  have hword : word.length ≤ n := Nat.le_trans hle (length_le_of_pieceItems h)
  induction ps generalizing word word' with
  | nil =>
    intro w hw
    obtain ⟨rfl, -⟩ | hw := mem_closeWord.mp hw
    · exact hword
    · exact absurd hw List.not_mem_nil
  | cons p ps ih =>
    have hnil : ∀ word'', (∀ w, some w ∈ pieceItems word'' (uncutPieces ps) → w.length ≤ n) →
        ∀ w, some w ∈ pieceItems [] ps → w.length ≤ n := fun word'' h =>
      ih (Nat.zero_le _) h (Nat.zero_le n)
    cases p with
    | char c =>
      have hle' : (word ++ [c]).length ≤ (word' ++ [c]).length := by
        rw [List.length_append, List.length_append]
        exact Nat.add_le_add_right hle _
      exact ih hle' h (Nat.le_trans hle' (length_le_of_pieceItems h))
    | space =>
      intro w hw
      obtain ⟨rfl, -⟩ | hw := mem_closeWord.mp hw
      · exact hword
      · exact hnil [] (fun w hw => h w (mem_closeWord.mpr (Or.inr hw))) w hw
    | lineBreak =>
      intro w hw
      obtain ⟨rfl, -⟩ | hw := mem_closeWord.mp hw
      · exact hword
      · exact hnil []
          (fun w hw => h w (mem_closeWord.mpr (Or.inr (List.mem_cons_of_mem none hw)))) w
          ((List.mem_cons.mp hw).resolve_left (Option.some_ne_none w))
    | cut =>
      intro w hw
      obtain ⟨rfl, -⟩ | hw := mem_closeWord.mp hw
      · exact hword
      · exact hnil word' h w hw

end Items

section Lines

/-- The lines show the words, in order, with single separators between those of a line. -/
inductive Wrapped (sep : α) (cols : ℕ) : List (Option (List α)) → List (List α) → Prop
  | nil : Wrapped sep cols [] []
  | lineBreak {items lines} : Wrapped sep cols items lines → Wrapped sep cols (none :: items) lines
  | line {group items lines} : group ≠ [] → ([sep].intercalate group).length ≤ cols →
      Wrapped sep cols items lines →
      Wrapped sep cols (group.map some ++ items) ([sep].intercalate group :: lines)

theorem reduceOption_map_some (group : List (List α)) :
    (group.map some).reduceOption = group := by
  rw [List.reduceOption, List.filterMap_map]
  exact List.filterMap_some

theorem intercalate_append_singleton {group : List (List α)} (h : group ≠ []) (sep : α)
    (word : List α) :
    [sep].intercalate (group ++ [word]) = [sep].intercalate group ++ sep :: word := by
  induction group with
  | nil => exact absurd rfl h
  | cons first group ih =>
    cases group with
    | nil => simp
    | cons second group =>
      rw [List.cons_append, List.cons_append, List.intercalate_cons_cons, ← List.cons_append,
        ih (List.cons_ne_nil _ _), List.intercalate_cons_cons, List.append_assoc, List.append_assoc,
        List.append_assoc]

/-- Words that are shortened are whole when no character is lost. -/
theorem eq_of_length_flatMap {words : List (List α)} {f : List α → List α}
    (hinit : ∀ w, f w <+: w) (hlen : (words.flatMap f).length = words.flatten.length) :
    ∀ w ∈ words, f w = w := by
  have hle : ∀ words : List (List α), (words.flatMap f).length ≤ words.flatten.length := by
    intro words
    induction words with
    | nil => exact Nat.le_refl _
    | cons word words ih =>
      rw [List.flatMap_cons, List.flatten_cons, List.length_append, List.length_append]
      exact Nat.add_le_add (hinit word).length_le ih
  induction words with
  | nil => exact fun w hw => absurd hw List.not_mem_nil
  | cons word words ih =>
    rw [List.flatMap_cons, List.flatten_cons, List.length_append, List.length_append] at hlen
    have hword := (hinit word).length_le
    have hrest := hle words
    intro w hw
    obtain rfl | hw := List.mem_cons.mp hw
    · exact (hinit w).eq_of_length (by omega)
    · exact ih (by omega) w hw

variable [DecidableEq α] {sep : α} {cols : ℕ} {items : List (Option (List α))}
  {lines : List (List α)}

/-- The words can be read off the lines. -/
theorem Wrapped.words (h : Wrapped sep cols items lines) (hsep : ∀ w, some w ∈ items → sep ∉ w) :
    lines.flatMap (List.splitOn sep) = items.reduceOption := by
  induction h with
  | nil => rfl
  | lineBreak _ ih =>
    rw [List.reduceOption_cons_of_none]
    exact ih fun w hw => hsep w (List.mem_cons_of_mem none hw)
  | @line group items lines hgroup _ _ ih =>
    rw [List.flatMap_cons, List.reduceOption_append, reduceOption_map_some,
      ih fun w hw => hsep w (List.mem_append_right _ hw), List.splitOn_intercalate sep _ hgroup]
    exact fun w hw => hsep w (List.mem_append_left _ (List.mem_map_of_mem hw))

theorem countP_intercalate (sep : α) (group : List (List α)) :
    ([sep].intercalate group).countP (· ≠ sep) = group.flatten.countP (· ≠ sep) := by
  induction group with
  | nil => rfl
  | cons word group ih =>
    cases group with
    | nil => rw [List.intercalate_singleton, List.flatten_singleton]
    | cons word' group =>
      rw [List.intercalate_cons_cons, List.countP_append, List.countP_append, ih, List.flatten_cons,
        List.countP_append]
      simp

/-- No character is lost or added. -/
theorem Wrapped.ink (h : Wrapped sep cols items lines) :
    lines.flatten.countP (· ≠ sep) = items.reduceOption.flatten.countP (· ≠ sep) := by
  induction h with
  | nil => rfl
  | lineBreak _ ih => rwa [List.reduceOption_cons_of_none]
  | line _ _ _ ih =>
    rw [List.flatten_cons, List.countP_append, ih, countP_intercalate, List.reduceOption_append,
      reduceOption_map_some, List.flatten_append, List.countP_append]

end Lines

end AuroraOS.Lib
