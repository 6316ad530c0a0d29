import AuroraOS.Lib.LineZipper
import AuroraOS.Notes.Model

/-!
# Keystrokes edit a flat text

A valid note buffer shows lines with a cursor. Every key does to them what it does to the text that
they stand for, in place and within the lines.

## Main definitions

- `NoteBuffer.Valid`
- `NoteBuffer.text`, `NoteBuffer.cursor`
- `NoteBuffer.Shows` — the buffer holds lines with a cursor

## Main results

- `noteHandleKey_refines`
-/

namespace AuroraOS.Notes

open Lib

namespace NoteBuffer

variable {nb nb' : NoteBuffer} {i j k : ℕ} {s t : List UInt8} {z : LineZipper UInt8}

/-- Line `i` holds the string `s`. -/
def HoldsLine (nb : NoteBuffer) (i : ℕ) (s : List UInt8) : Prop :=
  ∃ line, nb.lines[i]? = some line ∧ line.Holds s

/-- The lines are strings, and the cursor is in one of them. -/
structure Valid (nb : NoteBuffer) : Prop where
  count_pos : 1 ≤ nb.lineCount
  count_le : nb.lineCount ≤ noteMaxLines
  line_lt : nb.curLine < nb.lineCount
  holds : ∀ i < nb.lineCount, ∃ s, nb.HoldsLine i s
  col_le : ∀ s, nb.HoldsLine nb.curLine s → nb.curCol ≤ s.length

/-- The lines as strings. -/
def texts (nb : NoteBuffer) : List (List UInt8) :=
  (nb.lines.toList.take nb.lineCount).map Buffer.str

/-- The lines joined by newlines. -/
def text (nb : NoteBuffer) : List UInt8 := List.intercalate [0x0a] nb.texts

/-- The offset of the cursor in the text. -/
def cursor (nb : NoteBuffer) : ℕ :=
  ((nb.texts.take nb.curLine).map (·.length + 1)).sum + nb.curCol

/-- The buffer holds the lines `z` and has its cursor there. -/
structure Shows (nb : NoteBuffer) (z : LineZipper UInt8) : Prop where
  count_eq : nb.lineCount = z.lines.length
  count_le : nb.lineCount ≤ noteMaxLines
  line_eq : nb.curLine = z.above.length
  col_eq : nb.curCol = z.col
  inLine : z.InLine
  holds : ∀ i s, z.lines[i]? = some s → nb.HoldsLine i s

/-- The buffer shows the lines of `z`, with the cursor anywhere in them. -/
def ShowsLines (nb : NoteBuffer) (z : LineZipper UInt8) : Prop :=
  ∃ z', z'.lines = z.lines ∧ nb.Shows z'

/-- The characters that are inserted as they are. -/
def Printable (c : UInt8) : Prop := 32 ≤ c ∧ c < 127

instance : DecidablePred Printable := fun c => inferInstanceAs (Decidable (32 ≤ c ∧ c < 127))

/-- What an accepted key does to a text with a cursor. -/
structure Edits (c : UInt8) (text text' : List UInt8) (cursor cursor' : ℕ) : Prop where
  insertion : Printable c ∨ c = 0x0a → text' = text.insertIdx cursor c ∧ cursor' = cursor + 1
  deletion : c = 0x08 → cursor = cursor' + 1 ∧ text' = text.eraseIdx cursor'
  motion : c ∈ [keyArrowLeft, keyArrowRight, keyArrowUp, keyArrowDown] → text' = text

/-- The edits that a buffer has no room for, and a deletion in front of the text. -/
structure AtLimit (nb : NoteBuffer) (c : UInt8) : Prop where
  insertion : Printable c → ∀ s, nb.HoldsLine nb.curLine s → 99 < s.length + 1
  newline : c = 0x0a → 200 < nb.lineCount + 1
  deletion : c = 0x08 → nb.cursor = 0 ∨ nb.curCol = 0 ∧ ∃ prev s,
    nb.HoldsLine (nb.curLine - 1) prev ∧ nb.HoldsLine nb.curLine s ∧ 99 < prev.length + s.length

/-- The buffer `nb'` is what a key makes of `nb`. -/
structure KeyEffect (nb : NoteBuffer) (c : UInt8) (accepted : Bool) (nb' : NoteBuffer) : Prop where
  valid : nb'.Valid
  edits : accepted = true → Edits c nb.text nb'.text nb.cursor nb'.cursor
  refused : accepted = false → nb'.text = nb.text ∧ nb'.cursor = nb.cursor ∧ nb.AtLimit c

section Lines

theorem HoldsLine.unique (h : nb.HoldsLine i s) (h' : nb.HoldsLine i t) : s = t := by
  obtain ⟨line, hline, hs⟩ := h
  obtain ⟨line', hline', ht⟩ := h'
  obtain rfl := Option.some.inj (hline.symm.trans hline')
  exact hs.unique ht

theorem HoldsLine.lineLen_eq (h : nb.HoldsLine i s) : nb.lineLen i = some s.length := by
  obtain ⟨line, hline, hs⟩ := h
  rw [lineLen, hline]
  exact hs.strlen_eq

theorem HoldsLine.length_lt (h : nb.HoldsLine i s) : s.length < noteMaxLineLen := by
  obtain ⟨_, -, hs⟩ := h
  exact hs.length_lt

/-- `nb'` has the number of lines and the cursor of `nb`. -/
structure SameCursor (nb nb' : NoteBuffer) : Prop where
  count_eq : nb'.lineCount = nb.lineCount
  curLine_eq : nb'.curLine = nb.curLine
  curCol_eq : nb'.curCol = nb.curCol

theorem SameCursor.refl (nb : NoteBuffer) : nb.SameCursor nb := ⟨rfl, rfl, rfl⟩

theorem SameCursor.trans {nb'' : NoteBuffer} (h : nb.SameCursor nb') (h' : nb'.SameCursor nb'') :
    nb.SameCursor nb'' :=
  ⟨h'.count_eq.trans h.count_eq, h'.curLine_eq.trans h.curLine_eq, h'.curCol_eq.trans h.curCol_eq⟩

/-- `nb'` is `nb` with the string `s` in line `i`. -/
structure SetsLine (nb : NoteBuffer) (i : ℕ) (s : List UInt8) (nb' : NoteBuffer) : Prop
    extends SameCursor nb nb' where
  line : nb'.HoldsLine i s
  others : ∀ j ≠ i, ∀ t, nb.HoldsLine j t → nb'.HoldsLine j t

theorem setLine_spec (nb : NoteBuffer) (hi : i < noteMaxLines) (line : Buffer noteMaxLineLen) :
    ∃ nb', nb.setLine i line = some nb' ∧ nb.SameCursor nb' ∧ nb'.lines[i]? = some line ∧
      ∀ j ≠ i, nb'.lines[j]? = nb.lines[j]? :=
  ⟨_, dif_pos hi, ⟨rfl, rfl, rfl⟩, Vector.getElem?_set_self hi,
    fun _ hj => Vector.getElem?_set_ne hi fun h => hj h.symm⟩

theorem exists_setLine (nb : NoteBuffer) {line : Buffer noteMaxLineLen} (hi : i < noteMaxLines)
    (h : line.Holds s) : ∃ nb', nb.setLine i line = some nb' ∧ nb.SetsLine i s nb' := by
  obtain ⟨nb', hset, hsame, hget, hothers⟩ := nb.setLine_spec hi line
  exact ⟨nb', hset, hsame, ⟨line, hget, h⟩, fun j hj t ⟨line', hline', ht⟩ =>
    ⟨line', (hothers j hj).trans hline', ht⟩⟩

theorem curCol_setLine {line : Buffer noteMaxLineLen} (h : nb.setLine i line = some nb') :
    nb'.curCol = nb.curCol := by
  rw [NoteBuffer.setLine, Option.dite_none_right_eq_some] at h
  obtain ⟨_, h⟩ := h
  rw [← Option.some.inj h]

theorem HoldsLine.copyLine (h : nb.HoldsLine j s) (hi : i < noteMaxLines) (hk : k ≤ s.length) :
    ∃ nb', nb.copyLine i j k = some nb' ∧ nb.SetsLine i (s.drop k) nb' := by
  obtain ⟨src, hsrc, hs⟩ := h
  have hlt := hs.length_lt
  have hdst : nb.lines[i]? = some nb.lines[i] := Vector.getElem?_eq_getElem hi
  obtain ⟨line, hcopy, hline⟩ := hs.strcpy hk (by omega) nb.lines[i]
  obtain ⟨nb', hset, hsets⟩ := nb.exists_setLine hi hline
  refine ⟨nb', ?_, hsets⟩
  rw [NoteBuffer.copyLine, hdst, hsrc, Option.bind_eq_bind, Option.bind_some, Option.bind_some]
  exact Option.bind_eq_some_iff.mpr ⟨line, hcopy, hset⟩

/-- The lines from `i - n` on move one down, the last one to `i`. -/
theorem moveDown_spec (n i : ℕ) (nb : NoteBuffer) (hn : n ≤ i) (hi : i < noteMaxLines)
    (h : ∀ j, i - n ≤ j → j < i → ∃ s, nb.HoldsLine j s) :
    ∃ nb', moveDown n i nb = some nb' ∧ nb.SameCursor nb' ∧
      (∀ j t, i - n ≤ j → j < i → nb.HoldsLine j t → nb'.HoldsLine (j + 1) t) ∧
      ∀ j t, j ≤ i - n ∨ i < j → nb.HoldsLine j t → nb'.HoldsLine j t := by
  induction n generalizing i nb with
  | zero =>
    exact ⟨nb, rfl, .refl nb, fun j t hj hlt => absurd hj (by omega), fun j t _ ht => ht⟩
  | succ n ih =>
    obtain ⟨s, hs⟩ := h (i - 1) (by omega) (by omega)
    obtain ⟨nb₁, hcopy, hset⟩ := hs.copyLine hi (Nat.zero_le _)
    rw [List.drop_zero] at hset
    obtain ⟨nb', hrest, hsame, hmoved, hkept⟩ := ih (i - 1) nb₁ (by omega) (by omega)
      fun j hj hlt => by
        obtain ⟨t, ht⟩ := h j (by omega) (by omega)
        exact ⟨t, hset.others j (by omega) t ht⟩
    refine ⟨nb', Option.bind_eq_some_iff.mpr ⟨nb₁, hcopy, hrest⟩, hset.toSameCursor.trans hsame,
      fun j t hj hlt ht => ?_,
      fun j t hj ht => hkept j t (by omega) (hset.others j (by omega) t ht)⟩
    obtain rfl | hlt' := Nat.eq_or_lt_of_le (Nat.le_pred_of_lt hlt)
    · -- the line that was copied first stays where it is
      obtain rfl := hs.unique ht
      have hi' : i - 1 + 1 = i := by omega
      exact hkept (i - 1 + 1) s (by omega) (hi'.symm ▸ hset.line)
    · exact hmoved j t (by omega) hlt' (hset.others j (by omega) t ht)

/-- The lines behind `i`, up to `i + n`, move one up. -/
theorem moveUp_spec (n i : ℕ) (nb : NoteBuffer) (hi : i + n < noteMaxLines)
    (h : ∀ j, i < j → j ≤ i + n → ∃ s, nb.HoldsLine j s) :
    ∃ nb', moveUp n i nb = some nb' ∧ nb.SameCursor nb' ∧
      (∀ j t, i ≤ j → j < i + n → nb.HoldsLine (j + 1) t → nb'.HoldsLine j t) ∧
      ∀ j t, j < i → nb.HoldsLine j t → nb'.HoldsLine j t := by
  induction n generalizing i nb with
  | zero =>
    exact ⟨nb, rfl, .refl nb, fun j t hj hlt => absurd hj (by omega), fun j t _ ht => ht⟩
  | succ n ih =>
    obtain ⟨s, hs⟩ := h (i + 1) (by omega) (by omega)
    obtain ⟨nb₁, hcopy, hset⟩ := hs.copyLine (by omega : i < noteMaxLines) (Nat.zero_le _)
    rw [List.drop_zero] at hset
    obtain ⟨nb', hrest, hsame, hmoved, hkept⟩ := ih (i + 1) nb₁ (by omega) fun j hj hlt => by
      obtain ⟨t, ht⟩ := h j (by omega) (by omega)
      exact ⟨t, hset.others j (by omega) t ht⟩
    refine ⟨nb', Option.bind_eq_some_iff.mpr ⟨nb₁, hcopy, hrest⟩, hset.toSameCursor.trans hsame,
      fun j t hj hlt ht => ?_,
      fun j t hj ht => hkept j t (by omega) (hset.others j (by omega) t ht)⟩
    obtain rfl | hlt' := Nat.eq_or_lt_of_le hj
    · obtain rfl := hs.unique ht
      exact hkept i s (by omega) hset.line
    · exact hmoved j t (by omega) (by omega) (hset.others (j + 1) (by omega) t ht)

end Lines

section Shows

theorem Shows.exists_line (h : nb.Shows z) (hi : i < nb.lineCount) :
    ∃ s, z.lines[i]? = some s ∧ nb.HoldsLine i s := by
  have hlt : i < z.lines.length := h.count_eq ▸ hi
  exact ⟨_, List.getElem?_eq_getElem hlt, h.holds i _ (List.getElem?_eq_getElem hlt)⟩

theorem Shows.holds_above (h : nb.Shows z) (hs : z.above[i]? = some s) :
    i < nb.curLine ∧ nb.HoldsLine i s := by
  have hi : i < z.above.length := (List.getElem?_eq_some_iff.mp hs).1
  exact ⟨h.line_eq ▸ hi, h.holds i s ((z.getElem?_lines_of_lt hi).trans hs)⟩

theorem Shows.holds_line (h : nb.Shows z) : nb.HoldsLine nb.curLine z.line :=
  h.holds _ _ (by rw [h.line_eq, z.getElem?_lines_self])

theorem Shows.holds_below (h : nb.Shows z) (hs : z.below[i]? = some s) :
    nb.curLine + 1 + i < nb.lineCount ∧ nb.HoldsLine (nb.curLine + 1 + i) s := by
  have hi : i < z.below.length := (List.getElem?_eq_some_iff.mp hs).1
  have hlen := z.length_lines
  have hcount := h.count_eq
  rw [h.line_eq]
  exact ⟨by omega, h.holds _ s ((z.getElem?_lines_add i).trans hs)⟩

theorem Shows.line_lt (h : nb.Shows z) : nb.curLine < nb.lineCount := by
  have hcount := h.count_eq
  have hline := h.line_eq
  have hlen := z.length_lines
  omega

theorem Shows.lt_max (h : nb.Shows z) (hi : i < nb.lineCount) : i < noteMaxLines :=
  Nat.lt_of_lt_of_le hi h.count_le

/-- The lines are shown when they are held part by part. -/
theorem shows_of_parts (hcount : nb.lineCount = nb.curLine + 1 + z.below.length)
    (hle : nb.lineCount ≤ noteMaxLines) (hline : nb.curLine = z.above.length)
    (hcol : nb.curCol = z.col) (hin : z.InLine)
    (habove : ∀ i s, z.above[i]? = some s → nb.HoldsLine i s)
    (hcur : nb.HoldsLine nb.curLine z.line)
    (hbelow : ∀ i s, z.below[i]? = some s → nb.HoldsLine (nb.curLine + 1 + i) s) : nb.Shows z where
  count_eq := by rw [hcount, hline, z.length_lines]
  count_le := hle
  line_eq := hline
  col_eq := hcol
  inLine := hin
  holds := z.forall_lines habove (hline ▸ hcur) fun i s hs => hline ▸ hbelow i s hs

theorem Shows.count_split (h : nb.Shows z) : nb.lineCount = nb.curLine + 1 + z.below.length := by
  rw [h.count_eq, h.line_eq, z.length_lines]

/-- The current line is replaced, with the cursor still in it. -/
theorem Shows.setLine (h : nb.Shows z) {line : Buffer noteMaxLineLen} (hline : line.Holds s)
    {col : ℕ} (hcol : col ≤ s.length) :
    ∃ nb', nb.setLine nb.curLine line = some nb' ∧
      NoteBuffer.Shows { nb' with curCol := col, dirty := true } ⟨z.above, s, z.below, col⟩ := by
  obtain ⟨nb', hset, hsets⟩ := nb.exists_setLine (h.lt_max h.line_lt) hline
  have hcur : nb'.curLine = nb.curLine := hsets.curLine_eq
  have hcount : nb'.lineCount = nb.lineCount := hsets.count_eq
  refine ⟨nb', hset, shows_of_parts ?_ (hcount.le.trans h.count_le) (hcur.trans h.line_eq) rfl hcol
    (fun i t ht => ?_) ?_ fun i t ht => ?_⟩
  · exact hcount.trans (hcur.symm ▸ h.count_split)
  · obtain ⟨hi, ht⟩ := h.holds_above ht
    exact hsets.others i (by omega) t ht
  · exact hcur.symm ▸ hsets.line
  · obtain ⟨-, ht⟩ := h.holds_below ht
    exact hcur.symm ▸ hsets.others _ (by omega) t ht

end Shows

section Valid

theorem HoldsLine.getElem?_texts (h : nb.HoldsLine i s) (hi : i < nb.lineCount) :
    nb.texts[i]? = some s := by
  obtain ⟨line, hline, hs⟩ := h
  rw [texts, List.getElem?_map, List.getElem?_take_of_lt hi, Vector.getElem?_toList, hline,
    Option.map_some, hs.str_eq]

theorem length_texts_le (nb : NoteBuffer) : nb.texts.length ≤ nb.lineCount := by
  rw [texts, List.length_map]
  exact List.length_take_le _ _

theorem Shows.texts_eq (h : nb.Shows z) : nb.texts = z.lines := by
  refine List.ext_getElem? fun i => ?_
  by_cases hi : i < nb.lineCount
  · obtain ⟨s, hget, hs⟩ := h.exists_line hi
    rw [hs.getElem?_texts hi, hget]
  · rw [List.getElem?_eq_none (by have := nb.length_texts_le; omega),
      List.getElem?_eq_none (h.count_eq ▸ Nat.le_of_not_lt hi)]

theorem Shows.text_eq (h : nb.Shows z) : nb.text = z.before 0x0a ++ z.after 0x0a := by
  rw [text, h.texts_eq, z.intercalate_lines]

theorem Shows.cursor_eq (h : nb.Shows z) : nb.cursor = (z.before 0x0a).length := by
  have habove : z.lines.take z.above.length = z.above := List.take_left
  rw [cursor, h.texts_eq, h.line_eq, habove, h.col_eq, z.length_before _ h.inLine]

theorem Shows.valid (h : nb.Shows z) : nb.Valid where
  count_pos := by
    have hlt := h.line_lt
    omega
  count_le := h.count_le
  line_lt := h.line_lt
  holds := fun i hi => by
    obtain ⟨s, -, hs⟩ := h.exists_line hi
    exact ⟨s, hs⟩
  col_le := fun s hs => by
    rw [hs.unique h.holds_line, h.col_eq]
    exact h.inLine

/-- A buffer with the lines `ls` shows them where its cursor is. -/
theorem exists_shows_of_lines {ls : List (List UInt8)} (hcount : nb.lineCount = ls.length)
    (hle : nb.lineCount ≤ noteMaxLines) (hs : ls[nb.curLine]? = some s)
    (hcol : nb.curCol ≤ s.length) (holds : ∀ i t, ls[i]? = some t → nb.HoldsLine i t) :
    ∃ z : LineZipper UInt8, z.lines = ls ∧ nb.Shows z := by
  obtain ⟨hlt, hget⟩ := List.getElem?_eq_some_iff.mp hs
  have hlines : ls.take nb.curLine ++ s :: ls.drop (nb.curLine + 1) = ls := by
    rw [← hget, ← List.drop_eq_getElem_cons, List.take_append_drop]
  exact ⟨⟨ls.take nb.curLine, s, ls.drop (nb.curLine + 1), nb.curCol⟩, hlines, {
    count_eq := by rw [LineZipper.lines, hlines, hcount]
    count_le := hle
    line_eq := (List.length_take_of_le (Nat.le_of_lt hlt)).symm
    col_eq := rfl
    inLine := hcol
    holds := fun i t ht => holds i t (by rwa [LineZipper.lines, hlines] at ht) }⟩

/-- A valid buffer shows its lines. -/
theorem Valid.exists_shows (h : nb.Valid) : ∃ z, nb.Shows z := by
  have hget : ∀ i < nb.lineCount, ∃ s, nb.texts[i]? = some s ∧ nb.HoldsLine i s := fun i hi => by
    obtain ⟨s, hs⟩ := h.holds i hi
    exact ⟨s, hs.getElem?_texts hi, hs⟩
  have hlen : nb.texts.length = nb.lineCount := by
    refine Nat.le_antisymm nb.length_texts_le (Nat.le_of_not_lt fun hlt => ?_)
    obtain ⟨s, hs, -⟩ := hget nb.texts.length hlt
    rw [List.getElem?_eq_none (Nat.le_refl _)] at hs
    exact Option.some_ne_none s hs.symm
  obtain ⟨s, hs, hholds⟩ := hget nb.curLine h.line_lt
  obtain ⟨z, -, hz⟩ := exists_shows_of_lines hlen.symm h.count_le hs (h.col_le s hholds)
    fun i t ht => by
      obtain ⟨u, hu, hholds⟩ := hget i (hlen ▸ (List.getElem?_eq_some_iff.mp ht).1)
      exact Option.some.inj (ht.symm.trans hu) ▸ hholds
  exact ⟨z, hz⟩

theorem holdsLine_empty (hi : i < noteMaxLines) : NoteBuffer.empty.HoldsLine i [] :=
  ⟨Buffer.zeros noteMaxLineLen, Vector.getElem?_replicate.trans (if_pos hi),
    (Buffer.filled_zeros noteMaxLineLen).holds (by decide)⟩

theorem shows_empty : NoteBuffer.empty.Shows ⟨[], [], [], 0⟩ where
  count_eq := rfl
  count_le := by decide
  line_eq := rfl
  col_eq := rfl
  inLine := Nat.zero_le 0
  holds := fun i s hs => by
    cases i with
    | zero => exact Option.some.inj hs ▸ holdsLine_empty (by decide)
    | succ i => exact absurd hs (by simp [LineZipper.lines])

theorem valid_empty : NoteBuffer.empty.Valid := shows_empty.valid

theorem ShowsLines.text_eq (h : nb'.ShowsLines z) (hz : nb.Shows z) : nb'.text = nb.text := by
  obtain ⟨z', hlines, h⟩ := h
  rw [text, text, h.texts_eq, hz.texts_eq, hlines]

theorem ShowsLines.valid (h : nb.ShowsLines z) : nb.Valid := by
  obtain ⟨z', -, h⟩ := h
  exact h.valid

end Valid

section Keys

variable {c : UInt8}

theorem Shows.noteInsert (h : nb.Shows z) (hc : c ≠ 0) (hfit : z.line.length < noteMaxLineLen - 1) :
    ∃ nb', Notes.noteInsert nb c = some (true, nb') ∧ nb'.Shows (z.insert c) := by
  obtain ⟨line, hget, hline⟩ := h.holds_line
  have hcol : nb.curCol ≤ z.line.length := h.col_eq ▸ h.inLine
  obtain ⟨gap, line', hgap, hput, hline'⟩ := hline.openGap hcol (by omega) hc
  have hlen : (z.line.insertIdx nb.curCol c).length = z.line.length + 1 :=
    List.length_insertIdx_of_le_length hcol c
  obtain ⟨nb', hset, hshows⟩ := h.setLine hline'
    (show nb.curCol + 1 ≤ (z.line.insertIdx nb.curCol c).length by omega)
  refine ⟨{ nb' with curCol := nb.curCol + 1, dirty := true }, ?_, ?_⟩
  · rw [Notes.noteInsert, hget, Option.bind_eq_bind, Option.bind_some, hline.strlen_eq,
      Option.bind_eq_bind, Option.bind_some, if_pos hfit]
    refine Option.bind_eq_some_iff.mpr ⟨gap, hgap, ?_⟩
    refine Option.bind_eq_some_iff.mpr ⟨line', hput, ?_⟩
    exact Option.bind_eq_some_iff.mpr ⟨nb', hset, by rw [curCol_setLine hset]⟩
  · rw [LineZipper.insert, ← h.col_eq]
    exact hshows

theorem Shows.noteInsert_full (h : nb.Shows z) (hfull : ¬z.line.length < noteMaxLineLen - 1) :
    Notes.noteInsert nb c = some (false, nb) := by
  obtain ⟨line, hget, hline⟩ := h.holds_line
  rw [Notes.noteInsert, hget, Option.bind_eq_bind, Option.bind_some, hline.strlen_eq,
    Option.bind_eq_bind, Option.bind_some, if_neg hfull]

/-- The rows after Enter: the ones below the cursor's one have moved, and it is cut in two. -/
theorem Shows.exists_newline (h : nb.Shows z) (hroom : nb.lineCount < noteMaxLines) :
    ∃ nb', nb.SameCursor nb' ∧ Notes.noteNewline nb = some (true, { nb' with
        lineCount := nb.lineCount + 1, curLine := nb.curLine + 1, curCol := 0, dirty := true }) ∧
      (∀ i t, i < nb.curLine → nb.HoldsLine i t → nb'.HoldsLine i t) ∧
      nb'.HoldsLine nb.curLine (z.line.take nb.curCol) ∧
      nb'.HoldsLine (nb.curLine + 1) (z.line.drop nb.curCol) ∧
      ∀ i t, nb.curLine < i → i < nb.lineCount → nb.HoldsLine i t → nb'.HoldsLine (i + 1) t := by
  have hlt := h.line_lt
  have hcol : nb.curCol ≤ z.line.length := h.col_eq ▸ h.inLine
  -- the lines below move down
  obtain ⟨nb₁, hmove, hsame₁, hmoved, hkept⟩ := moveDown_spec
    (nb.lineCount - (nb.curLine + 1)) nb.lineCount nb (Nat.sub_le _ _) hroom fun j _ hj => by
      obtain ⟨s, -, hs⟩ := h.exists_line hj
      exact ⟨s, hs⟩
  -- the end of the line goes to the next one
  have hline₁ := hkept nb.curLine z.line (by omega) h.holds_line
  obtain ⟨nb₂, hcopy, hset₂⟩ := hline₁.copyLine (show nb.curLine + 1 < noteMaxLines by omega) hcol
  have hsame₂ := hsame₁.trans hset₂.toSameCursor
  -- and the line ends at the cursor
  obtain ⟨cur, hget, hcur⟩ := hset₂.others nb.curLine (by omega) _ hline₁
  obtain ⟨cur', hput, hcur'⟩ := hcur.truncate hcol
  obtain ⟨nb₃, hset, hset₃⟩ := nb₂.exists_setLine (h.lt_max hlt) hcur'
  have hsame := hsame₂.trans hset₃.toSameCursor
  refine ⟨nb₃, hsame, ?_, fun i t hi ht => ?_, hset₃.line, ?_, fun i t hi hlt ht => ?_⟩
  · rw [Notes.noteNewline, if_neg (by omega), ← hsame.count_eq, ← hsame.curLine_eq]
    refine Option.bind_eq_some_iff.mpr ⟨nb₁, by rwa [hsame.count_eq, hsame.curLine_eq], ?_⟩
    refine Option.bind_eq_some_iff.mpr ⟨nb₂, ?_, ?_⟩
    · rw [hsame₁.curLine_eq, hsame₁.curCol_eq]
      exact hcopy
    · rw [hsame₂.curLine_eq, hsame₂.curCol_eq]
      refine Option.bind_eq_some_iff.mpr ⟨cur, hget, ?_⟩
      refine Option.bind_eq_some_iff.mpr ⟨cur', hput, ?_⟩
      exact Option.bind_eq_some_iff.mpr ⟨nb₃, hset, rfl⟩
  · exact hset₃.others i (by omega) t (hset₂.others i (by omega) t (hkept i t (by omega) ht))
  · exact hset₃.others _ (by omega) _ hset₂.line
  · exact hset₃.others _ (by omega) t (hset₂.others _ (by omega) t
      (hmoved i t (by omega) hlt ht))

theorem Shows.noteNewline (h : nb.Shows z) (hroom : nb.lineCount < noteMaxLines) :
    ∃ nb', Notes.noteNewline nb = some (true, nb') ∧ nb'.Shows z.split := by
  obtain ⟨nb', -, hrun, hkept, hline, hnext, hmoved⟩ := h.exists_newline hroom
  have hcount := h.count_split
  refine ⟨_, hrun, shows_of_parts ?_ hroom ?_ rfl (Nat.zero_le _) (fun i t ht => ?_) ?_
    fun i t ht => ?_⟩
  · show nb.lineCount + 1 = nb.curLine + 1 + 1 + z.below.length
    omega
  · show nb.curLine + 1 = (z.above ++ [z.line.take z.col]).length
    rw [h.line_eq, List.length_append, List.length_singleton]
  · have hi : i < (z.above ++ [z.line.take z.col]).length := (List.getElem?_eq_some_iff.mp ht).1
    rw [List.length_append, List.length_singleton] at hi
    obtain hi | rfl := Nat.lt_succ_iff_lt_or_eq.mp hi
    · obtain ⟨hi', ht⟩ := h.holds_above ((List.getElem?_append_left hi).symm.trans ht)
      exact hkept i t hi' ht
    · have hself : z.split.above[z.above.length]? = some (z.line.take z.col) :=
        List.getElem?_concat_length
      have ht' := Option.some.inj (hself.symm.trans ht)
      rwa [h.col_eq, ht', h.line_eq] at hline
  · rw [h.col_eq] at hnext
    exact hnext
  · obtain ⟨hi, ht⟩ := h.holds_below ht
    have hmoved' := hmoved _ t (by omega) hi ht
    rwa [show nb.curLine + 1 + i + 1 = nb.curLine + 1 + 1 + i by omega] at hmoved'

theorem Shows.noteNewline_full (hfull : ¬nb.lineCount < noteMaxLines) :
    Notes.noteNewline nb = some (false, nb) := if_pos (by omega)

theorem Shows.noteBackspace_erase (h : nb.Shows z) (hcol : 0 < nb.curCol) :
    ∃ nb', Notes.noteBackspace nb = some (true, nb') ∧ nb'.Shows z.erase := by
  obtain ⟨line, hget, hline⟩ := h.holds_line
  have hle : nb.curCol ≤ z.line.length := h.col_eq ▸ h.inLine
  obtain ⟨line', hgap, hline'⟩ := hline.closeGap (show nb.curCol - 1 < z.line.length by omega)
  have hlen : (z.line.eraseIdx (nb.curCol - 1)).length = z.line.length - 1 :=
    List.length_eraseIdx_of_lt (by omega)
  obtain ⟨nb', hset, hshows⟩ := h.setLine hline'
    (show nb.curCol - 1 ≤ (z.line.eraseIdx (nb.curCol - 1)).length by omega)
  refine ⟨{ nb' with curCol := nb.curCol - 1, dirty := true }, ?_, ?_⟩
  · rw [Notes.noteBackspace, if_pos hcol, hget, Option.bind_eq_bind, Option.bind_some,
      hline.strlen_eq, Option.bind_eq_bind, Option.bind_some]
    refine Option.bind_eq_some_iff.mpr ⟨line', hgap, ?_⟩
    exact Option.bind_eq_some_iff.mpr ⟨nb', hset, by rw [curCol_setLine hset]⟩
  · rw [LineZipper.erase, ← h.col_eq]
    exact hshows

/-- The rows after a line is joined with the one above: the ones below it have moved. -/
theorem Shows.exists_merge (h : nb.Shows z) {above : List (List UInt8)} {prev : List UInt8}
    (habove : z.above = above ++ [prev]) (hcol : nb.curCol = 0)
    (hfit : prev.length + z.line.length < noteMaxLineLen) :
    ∃ nb', nb.SameCursor nb' ∧ Notes.noteBackspace nb = some (true, { nb' with
        lineCount := nb.lineCount - 1, curLine := nb.curLine - 1, curCol := prev.length,
        dirty := true }) ∧
      (∀ i t, i < nb.curLine - 1 → nb.HoldsLine i t → nb'.HoldsLine i t) ∧
      nb'.HoldsLine (nb.curLine - 1) (prev ++ z.line) ∧
      ∀ i t, nb.curLine ≤ i → i + 1 < nb.lineCount → nb.HoldsLine (i + 1) t →
        nb'.HoldsLine i t := by
  have hlt := h.line_lt
  have hpos : nb.curLine = above.length + 1 := by
    rw [h.line_eq, habove, List.length_append, List.length_singleton]
  obtain ⟨-, hprev⟩ : above.length < nb.curLine ∧ nb.HoldsLine above.length prev :=
    h.holds_above (habove ▸ List.getElem?_concat_length)
  rw [show above.length = nb.curLine - 1 by omega] at hprev
  obtain ⟨up, hup, hupHolds⟩ := hprev
  obtain ⟨cur, hcur, hcurHolds⟩ := h.holds_line
  have hprevLen := HoldsLine.lineLen_eq ⟨up, hup, hupHolds⟩
  have hthisLen := h.holds_line.lineLen_eq
  -- the line goes behind the one above
  obtain ⟨line, hcat, hline⟩ := hupHolds.strcat hcurHolds hfit
  obtain ⟨nb₁, hset, hset₁⟩ := nb.exists_setLine
    (h.lt_max (show nb.curLine - 1 < nb.lineCount by omega)) hline
  -- and the ones below move up
  have hcount := h.count_le
  obtain ⟨nb₂, hmove, hsame₂, hmoved, hkept⟩ := moveUp_spec
    (nb.lineCount - 1 - nb.curLine) nb.curLine nb₁ (by omega) fun j hj hle => by
      obtain ⟨s, -, hs⟩ := h.exists_line (show j < nb.lineCount by omega)
      exact ⟨s, hset₁.others j (by omega) s hs⟩
  have hsame := hset₁.toSameCursor.trans hsame₂
  refine ⟨nb₂, hsame, ?_, fun i t hi ht => ?_, ?_, fun i t hi hlt ht => ?_⟩
  · rw [Notes.noteBackspace, if_neg (by omega), if_pos (by omega)]
    refine Option.bind_eq_some_iff.mpr ⟨_, hprevLen, ?_⟩
    refine Option.bind_eq_some_iff.mpr ⟨_, hthisLen, ?_⟩
    rw [if_pos hfit]
    refine Option.bind_eq_some_iff.mpr ⟨up, hup, ?_⟩
    refine Option.bind_eq_some_iff.mpr ⟨cur, hcur, ?_⟩
    refine Option.bind_eq_some_iff.mpr ⟨line, hcat, ?_⟩
    refine Option.bind_eq_some_iff.mpr ⟨nb₁, hset, ?_⟩
    refine Option.bind_eq_some_iff.mpr ⟨nb₂, ?_, by rw [hsame.count_eq, hsame.curLine_eq]⟩
    rw [hset₁.count_eq, hset₁.curLine_eq]
    exact hmove
  · exact hkept i t (by omega) (hset₁.others i (by omega) t ht)
  · exact hkept _ _ (by omega) hset₁.line
  · exact hmoved i t hi (by omega) (hset₁.others _ (by omega) t ht)

theorem Shows.noteBackspace_merge (h : nb.Shows z) {above : List (List UInt8)}
    {prev : List UInt8} (habove : z.above = above ++ [prev]) (hcol : nb.curCol = 0)
    (hfit : prev.length + z.line.length < noteMaxLineLen) :
    ∃ nb', Notes.noteBackspace nb = some (true, nb') ∧ nb'.Shows (z.merge above prev) := by
  obtain ⟨nb', -, hrun, hkept, hline, hmoved⟩ := h.exists_merge habove hcol hfit
  have hcount := h.count_split
  have hle := h.count_le
  have hpos : nb.curLine = above.length + 1 := by
    rw [h.line_eq, habove, List.length_append, List.length_singleton]
  refine ⟨_, hrun, shows_of_parts ?_ (Nat.le_trans (Nat.sub_le _ _) hle) ?_ rfl ?_
    (fun i t ht => ?_) hline fun i t ht => ?_⟩
  · show nb.lineCount - 1 = nb.curLine - 1 + 1 + z.below.length
    omega
  · show nb.curLine - 1 = above.length
    omega
  · show prev.length ≤ (prev ++ z.line).length
    rw [List.length_append]
    exact Nat.le_add_right _ _
  · have hi : i < above.length := (List.getElem?_eq_some_iff.mp ht).1
    have hi' : z.above[i]? = some t := by rw [habove, List.getElem?_append_left hi, ← ht]; rfl
    exact hkept i t (by omega) (h.holds_above hi').2
  · obtain ⟨hi, ht⟩ := h.holds_below ht
    have hmoved' := hmoved (nb.curLine + i) t (by omega) (by omega)
      (by rwa [show nb.curLine + i + 1 = nb.curLine + 1 + i by omega])
    rwa [show nb.curLine + i = nb.curLine - 1 + 1 + i by omega] at hmoved'

theorem Shows.noteBackspace_full (h : nb.Shows z) {above : List (List UInt8)} {prev : List UInt8}
    (habove : z.above = above ++ [prev]) (hcol : nb.curCol = 0)
    (hfull : ¬prev.length + z.line.length < noteMaxLineLen) :
    Notes.noteBackspace nb = some (false, nb) := by
  have hpos : nb.curLine = above.length + 1 := by
    rw [h.line_eq, habove, List.length_append, List.length_singleton]
  have hprev : nb.HoldsLine above.length prev :=
    (h.holds_above (habove ▸ List.getElem?_concat_length)).2
  rw [show above.length = nb.curLine - 1 by omega] at hprev
  rw [Notes.noteBackspace, if_neg (by omega), if_pos (by omega)]
  refine Option.bind_eq_some_iff.mpr ⟨_, hprev.lineLen_eq, ?_⟩
  refine Option.bind_eq_some_iff.mpr ⟨_, h.holds_line.lineLen_eq, ?_⟩
  rw [if_neg hfull]

theorem noteBackspace_start (hcol : nb.curCol = 0) (hline : nb.curLine = 0) :
    Notes.noteBackspace nb = some (false, nb) := by
  rw [Notes.noteBackspace, if_neg (by omega), if_neg (by omega)]

/-- The cursor moves to a place in some line. -/
theorem Shows.moveTo (h : nb.Shows z) (hi : i < nb.lineCount) (hs : nb.HoldsLine i s) {col : ℕ}
    (hcol : col ≤ s.length) :
    ShowsLines { nb with curLine := i, curCol := col } z := by
  obtain ⟨t, hget, ht⟩ := h.exists_line hi
  obtain rfl := hs.unique ht
  exact exists_shows_of_lines h.count_eq h.count_le hget hcol h.holds

theorem Shows.showsLines (h : nb.Shows z) : nb.ShowsLines z := ⟨z, rfl, h⟩

theorem Shows.noteLeft (h : nb.Shows z) :
    ∃ nb', Notes.noteLeft nb = some (true, nb') ∧ nb'.ShowsLines z := by
  have hlt := h.line_lt
  have hcol : nb.curCol ≤ z.line.length := h.col_eq ▸ h.inLine
  rw [Notes.noteLeft]
  split_ifs with hpos hline
  · exact ⟨_, rfl, h.moveTo hlt h.holds_line (by omega)⟩
  · obtain ⟨s, -, hs⟩ := h.exists_line (show nb.curLine - 1 < nb.lineCount by omega)
    exact ⟨_, Option.bind_eq_some_iff.mpr ⟨_, hs.lineLen_eq, rfl⟩,
      h.moveTo (by omega) hs (Nat.le_refl _)⟩
  · exact ⟨nb, rfl, h.showsLines⟩

theorem Shows.noteRight (h : nb.Shows z) :
    ∃ nb', Notes.noteRight nb = some (true, nb') ∧ nb'.ShowsLines z := by
  have hlt := h.line_lt
  rw [Notes.noteRight, h.holds_line.lineLen_eq, Option.bind_eq_bind, Option.bind_some]
  split_ifs with hcol hline
  · exact ⟨_, rfl, h.moveTo hlt h.holds_line hcol⟩
  · obtain ⟨s, -, hs⟩ := h.exists_line (show nb.curLine + 1 < nb.lineCount by omega)
    exact ⟨_, rfl, h.moveTo (by omega) hs (Nat.zero_le _)⟩
  · exact ⟨nb, rfl, h.showsLines⟩

theorem Shows.noteGoto (h : nb.Shows z) (hi : i < nb.lineCount) :
    ∃ nb', Notes.noteGoto nb i = some (true, nb') ∧ nb'.ShowsLines z := by
  obtain ⟨s, -, hs⟩ := h.exists_line hi
  refine ⟨_, Option.bind_eq_some_iff.mpr ⟨_, hs.lineLen_eq, rfl⟩, h.moveTo hi hs ?_⟩
  split_ifs with hcol
  · exact Nat.le_refl _
  · omega

theorem Shows.noteUp (h : nb.Shows z) :
    ∃ nb', Notes.noteUp nb = some (true, nb') ∧ nb'.ShowsLines z := by
  have hlt := h.line_lt
  rw [Notes.noteUp]
  split_ifs with hline
  · exact h.noteGoto (by omega)
  · exact ⟨nb, rfl, h.showsLines⟩

theorem Shows.noteDown (h : nb.Shows z) :
    ∃ nb', Notes.noteDown nb = some (true, nb') ∧ nb'.ShowsLines z := by
  rw [Notes.noteDown]
  split_ifs with hline
  · exact h.noteGoto (by omega)
  · exact ⟨nb, rfl, h.showsLines⟩

end Keys

section Refinement

variable {z' : LineZipper UInt8} {c : UInt8}

theorem Shows.inserted (h : nb.Shows z) (h' : nb'.Shows z')
    (hbefore : z'.before 0x0a = z.before 0x0a ++ [c]) (hafter : z'.after 0x0a = z.after 0x0a) :
    nb'.text = nb.text.insertIdx nb.cursor c ∧ nb'.cursor = nb.cursor + 1 := by
  refine ⟨?_, ?_⟩
  · rw [h'.text_eq, h.text_eq, h.cursor_eq, hbefore, hafter,
      LineZipper.insertIdx_eq_take_drop _ (by rw [List.length_append]; exact Nat.le_add_right _ _),
      List.take_left, List.drop_left, List.append_assoc]
    rfl
  · rw [h'.cursor_eq, h.cursor_eq, hbefore, List.length_append, List.length_singleton]

theorem Shows.deleted (h : nb.Shows z) (h' : nb'.Shows z')
    (hbefore : z.before 0x0a = z'.before 0x0a ++ [c]) (hafter : z'.after 0x0a = z.after 0x0a) :
    nb.cursor = nb'.cursor + 1 ∧ nb'.text = nb.text.eraseIdx nb'.cursor := by
  refine ⟨?_, ?_⟩
  · rw [h'.cursor_eq, h.cursor_eq, hbefore, List.length_append, List.length_singleton]
  · rw [h'.text_eq, h.text_eq, h'.cursor_eq, hbefore, hafter, List.append_assoc,
      List.eraseIdx_append_of_length_le (Nat.le_refl _), Nat.sub_self]
    rfl

theorem keyEffect_refused (h : nb.Valid) (hlimit : nb.AtLimit c) : KeyEffect nb c false nb :=
  ⟨h, fun hne => absurd hne Bool.false_ne_true, fun _ => ⟨rfl, rfl, hlimit⟩⟩

theorem Shows.newline_effect (h : nb.Shows z) :
    ∃ accepted nb', Notes.noteNewline nb = some (accepted, nb') ∧
      KeyEffect nb 0x0a accepted nb' := by
  by_cases hroom : nb.lineCount < noteMaxLines
  · obtain ⟨nb', hrun, h'⟩ := h.noteNewline hroom
    obtain ⟨hbefore, hafter⟩ := z.before_split 0x0a
    exact ⟨true, nb', hrun, h'.valid, fun _ => {
      insertion := fun _ => h.inserted h' hbefore hafter
      deletion := fun hc => absurd hc (by decide)
      motion := fun hc => absurd hc (by decide) }, fun hne => absurd hne.symm Bool.false_ne_true⟩
  · refine ⟨false, nb, noteNewline_full hroom, keyEffect_refused h.valid
      ⟨fun hc => absurd hc.1 (by decide), fun _ => ?_, fun hc => absurd hc (by decide)⟩⟩
    exact Nat.lt_succ_of_le (Nat.le_of_not_lt hroom)

theorem Shows.insert_effect (h : nb.Shows z) (hc : Printable c) :
    ∃ accepted nb', Notes.noteInsert nb c = some (accepted, nb') ∧
      KeyEffect nb c accepted nb' := by
  have hne : ∀ b : UInt8, b < 32 ∨ 127 ≤ b → c ≠ b := fun b hb hcb => by
    subst hcb
    obtain hb | hb := hb
    · exact absurd hc.1 (UInt8.not_le.mpr hb)
    · exact absurd hc.2 (UInt8.not_lt.mpr hb)
  by_cases hfit : z.line.length < noteMaxLineLen - 1
  · obtain ⟨nb', hrun, h'⟩ := h.noteInsert (hne 0 (Or.inl (by decide))) hfit
    obtain ⟨hbefore, hafter⟩ := LineZipper.before_insert 0x0a h.inLine c
    exact ⟨true, nb', hrun, h'.valid, fun _ => {
      insertion := fun _ => h.inserted h' hbefore hafter
      deletion := fun h8 => absurd h8 (hne 0x08 (Or.inl (by decide)))
      motion := fun harrow => by
        simp only [List.mem_cons, List.not_mem_nil, or_false] at harrow
        obtain harrow | harrow | harrow | harrow := harrow
        all_goals exact absurd harrow (hne _ (Or.inr (by decide))) },
      fun hne => absurd hne.symm Bool.false_ne_true⟩
  · refine ⟨false, nb, h.noteInsert_full hfit, keyEffect_refused h.valid
      ⟨fun _ s hs => ?_, fun hc => absurd hc (hne _ (Or.inl (by decide))),
        fun hc => absurd hc (hne _ (Or.inl (by decide)))⟩⟩
    rw [hs.unique h.holds_line]
    exact Nat.lt_succ_of_le (Nat.le_of_not_lt hfit)

theorem Shows.backspace_effect (h : nb.Shows z) :
    ∃ accepted nb', Notes.noteBackspace nb = some (accepted, nb') ∧
      KeyEffect nb 0x08 accepted nb' := by
  have haccepted : ∀ nb' z' b, nb'.Shows z' → z.before 0x0a = z'.before 0x0a ++ [b] →
      z'.after 0x0a = z.after 0x0a → KeyEffect nb 0x08 true nb' := fun nb' z' b h' hbefore hafter =>
    ⟨h'.valid, fun _ => {
      insertion := fun hc => absurd hc (by decide)
      deletion := fun _ => h.deleted h' hbefore hafter
      motion := fun hc => absurd hc (by decide) }, fun hne => absurd hne.symm Bool.false_ne_true⟩
  have hrefused : (nb.cursor = 0 ∨ nb.curCol = 0 ∧ ∃ prev s, nb.HoldsLine (nb.curLine - 1) prev ∧
      nb.HoldsLine nb.curLine s ∧ 99 < prev.length + s.length) → KeyEffect nb 0x08 false nb :=
    fun hlimit => keyEffect_refused h.valid
      ⟨fun hc => absurd hc.1 (by decide), fun hc => absurd hc (by decide), fun _ => hlimit⟩
  obtain hcol | hcol := Nat.eq_zero_or_pos nb.curCol
  · obtain habove | ⟨above, prev, habove⟩ := List.eq_nil_or_concat' z.above
    · -- nothing before the cursor
      have hline : nb.curLine = 0 := by rw [h.line_eq, habove, List.length_nil]
      refine ⟨false, nb, noteBackspace_start hcol hline, hrefused (Or.inl ?_)⟩
      rw [cursor, hline, hcol]
      rfl
    · by_cases hfit : prev.length + z.line.length < noteMaxLineLen
      · obtain ⟨nb', hrun, h'⟩ := h.noteBackspace_merge habove hcol hfit
        obtain ⟨hbefore, hafter⟩ := LineZipper.before_merge 0x0a habove (h.col_eq ▸ hcol)
        exact ⟨true, nb', hrun, haccepted nb' _ _ h' hbefore hafter⟩
      · refine ⟨false, nb, h.noteBackspace_full habove hcol hfit,
          hrefused (Or.inr ⟨hcol, prev, z.line, ?_, h.holds_line, ?_⟩)⟩
        · have hprev := (h.holds_above (habove ▸ List.getElem?_concat_length)).2
          rwa [show above.length = nb.curLine - 1 by
            rw [h.line_eq, habove, List.length_append, List.length_singleton,
              Nat.add_sub_cancel]] at hprev
        · exact Nat.lt_of_succ_le (Nat.le_of_not_lt hfit)
  · obtain ⟨nb', hrun, h'⟩ := h.noteBackspace_erase hcol
    obtain ⟨b, hbefore, hafter⟩ := LineZipper.before_erase 0x0a h.inLine (h.col_eq ▸ hcol)
    exact ⟨true, nb', hrun, haccepted nb' _ b h' hbefore hafter⟩

theorem ShowsLines.effect (hz : nb.Shows z) (h : nb'.ShowsLines z)
    (hc : c ∈ [keyArrowLeft, keyArrowRight, keyArrowUp, keyArrowDown]) :
    KeyEffect nb c true nb' := by
  have hne : ¬Printable c ∧ c ≠ 0x0a ∧ c ≠ 0x08 := by
    simp only [List.mem_cons, List.not_mem_nil, or_false] at hc
    obtain rfl | rfl | rfl | rfl := hc
    all_goals exact ⟨by decide, by decide, by decide⟩
  exact ⟨h.valid, fun _ => {
    insertion := fun h => absurd h (not_or.mpr ⟨hne.1, hne.2.1⟩)
    deletion := fun h => absurd h hne.2.2
    motion := fun _ => h.text_eq hz }, fun hne => absurd hne.symm Bool.false_ne_true⟩

/-- Every key edits the text of a valid buffer in place, and leaves it valid. -/
theorem Valid.keyEffect (h : nb.Valid) (c : UInt8) :
    ∃ accepted nb', noteHandleKey nb c = some (accepted, nb') ∧ KeyEffect nb c accepted nb' := by
  obtain ⟨z, hz⟩ := h.exists_shows
  rw [noteHandleKey]
  split_ifs with hnl hbs hleft hright hup hdown hprint
  · exact hnl ▸ hz.newline_effect
  · exact hbs ▸ hz.backspace_effect
  · obtain ⟨nb', hrun, h'⟩ := hz.noteLeft
    exact ⟨true, nb', hrun, h'.effect hz (by simp [hleft])⟩
  · obtain ⟨nb', hrun, h'⟩ := hz.noteRight
    exact ⟨true, nb', hrun, h'.effect hz (by simp [hright])⟩
  · obtain ⟨nb', hrun, h'⟩ := hz.noteUp
    exact ⟨true, nb', hrun, h'.effect hz (by simp [hup])⟩
  · obtain ⟨nb', hrun, h'⟩ := hz.noteDown
    exact ⟨true, nb', hrun, h'.effect hz (by simp [hdown])⟩
  · exact hz.insert_effect hprint
  · exact ⟨false, nb, rfl, keyEffect_refused h
      ⟨fun hc => absurd hc hprint, fun hc => absurd hc hnl, fun hc => absurd hc hbs⟩⟩

end Refinement

end NoteBuffer

open NoteBuffer

/-- `note_handle_key` refines the editing of a flat text. -/
theorem noteHandleKey_refines {nb : NoteBuffer} (h : nb.Valid) (c : UInt8) :
    ∃ accepted nb', noteHandleKey nb c = some (accepted, nb') ∧ KeyEffect nb c accepted nb' :=
  h.keyEffect c

/-- A backspace at the start of the second line. -/
theorem noteHandleKey_refines_join : ∃ (nb : NoteBuffer) (accepted : Bool) (nb' : NoteBuffer),
    nb.text = [0x61, 0x0a] ∧ nb.cursor = 2 ∧ noteHandleKey nb 0x08 = some (accepted, nb') ∧
      KeyEffect nb 0x08 accepted nb' := by
  obtain ⟨nb₁, -, h₁⟩ := shows_empty.noteInsert (c := 0x61) (by decide) (by decide)
  obtain ⟨nb, -, h⟩ := h₁.noteNewline (by rw [h₁.count_eq]; decide)
  obtain ⟨accepted, nb', hrun, heffect⟩ := noteHandleKey_refines h.valid 0x08
  exact ⟨nb, accepted, nb', h.text_eq, h.cursor_eq, hrun, heffect⟩

end AuroraOS.Notes
