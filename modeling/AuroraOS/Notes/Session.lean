import AuroraOS.Notes.Files
import AuroraOS.Notes.Vim

/-!
# The text editor window

`key_texteditor` of `kernel/wm.c`: the field for the name of the file, the two modes of the editor,
and saving. Every key of a session stays within the lines of the buffer, and only saving changes the
disk.

## Main definitions

- `TexteditorState` — `struct texteditor_state`
- `keyTexteditor`
- `texteditorKeys` — the keys of a session

## Main results

- `texteditorKeys_editing`
-/

namespace AuroraOS.Notes

open Lib NoteBuffer Fat16

section Window

/-- `TEXTEDITOR_FILENAME_MAX`. -/
def texteditorFilenameMax : ℕ := 32

/-- `CTRL_KEY('s')`. -/
def ctrlS : UInt8 := ascii 's' - ascii 'a' + 1

/-- Escape. -/
def keyEscape : UInt8 := 27

/-- `struct texteditor_state`, with the first `filename_len` characters of `filename`. -/
structure TexteditorState where
  pickingFilename : Bool
  filename : List UInt8
  edit : VimState
  loaded : Bool
  filename_lt : filename.length < texteditorFilenameMax

variable (fuel : ℕ)

/-- `key_texteditor` in the field for the name; `none` where `note_load` does not return. -/
def keyPickingFilename (st : TexteditorState) (c : UInt8) (v : Volume) :
    Option (TexteditorState × Volume) :=
  if c = 0x0a then
    if st.filename = [] then some (st, v)
    else do
      let (nb, v) ← noteLoad fuel 0 st.filename v
      some ({ st with pickingFilename := false, edit := ⟨nb, .normal, 0⟩, loaded := true }, v)
  else if c = 0x08 then
    some ({ st with
      filename := st.filename.dropLast
      filename_lt := by
        rw [List.length_dropLast]
        exact (Nat.sub_le _ _).trans_lt st.filename_lt }, v)
  else if h : (32 ≤ c ∧ c < 127) ∧ st.filename.length < texteditorFilenameMax - 1 then
    some ({ st with
      filename := st.filename ++ [c]
      filename_lt := by
        rw [List.length_append, List.length_singleton]
        exact Nat.add_lt_of_lt_sub h.2 }, v)
  else some (st, v)

/-- Escape in insert mode: the cursor does not stay behind the last character. -/
def vimLeaveInsert (nb : NoteBuffer) : Option NoteBuffer := do
  let len ← nb.lineLen nb.curLine
  some (if 0 < nb.curCol ∧ len ≤ nb.curCol then { nb with curCol := nb.curCol - 1 } else nb)

/-- `key_texteditor`; `tmp` is what the stack holds where a command swaps two lines. `none` where an
    access leaves the lines, and where the driver does not return. -/
def keyTexteditor (tmp : Buffer noteMaxLineLen) (st : TexteditorState) (c : UInt8) (v : Volume) :
    Option (TexteditorState × Volume) :=
  if st.pickingFilename then keyPickingFilename fuel st c v
  else if c = ctrlS then do
    let (_, nb, v) ← noteSave fuel 0 st.filename st.edit.nb v
    some ({ st with edit := { st.edit with nb := nb } }, v)
  else if st.edit.vimMode = .normal then do
    let (_, edit) ← vimHandleNormalKey tmp st.edit c
    some ({ st with edit := edit }, v)
  else if c = keyEscape then do
    let nb ← vimLeaveInsert st.edit.nb
    some ({ st with edit := { st.edit with nb := nb, vimMode := .normal } }, v)
  else do
    let nb ← noteApplyKey st.edit.nb c
    some ({ st with edit := { st.edit with nb := nb } }, v)

/-- The keys of a session, each with what the stack holds. -/
def texteditorKeys :
    List (UInt8 × Buffer noteMaxLineLen) → TexteditorState → Volume →
      Option (TexteditorState × Volume)
  | [], st, v => some (st, v)
  | key :: keys, st, v =>
    (keyTexteditor fuel key.2 st key.1 v).bind fun next => texteditorKeys keys next.1 next.2

end Window

section Editing

/-- The window shows the file, in a valid buffer. -/
structure TexteditorState.Editing (st : TexteditorState) (filename : List UInt8) : Prop where
  open_eq : st.pickingFilename = false
  filename_eq : st.filename = filename
  valid : st.edit.nb.Valid

variable {fuel : ℕ} {tmp : Buffer noteMaxLineLen} {st : TexteditorState} {filename : List UInt8}
  {c : UInt8} {v : Volume}

theorem NoteBuffer.Valid.vimLeaveInsert {nb : NoteBuffer} (h : nb.Valid) :
    ∃ nb', Notes.vimLeaveInsert nb = some nb' ∧ nb'.Valid := by
  obtain ⟨s, hs, hcol⟩ := h.holds_line
  refine ⟨_, Option.bind_eq_some_iff.mpr ⟨_, hs.lineLen_eq, rfl⟩, ?_⟩
  split_ifs
  · exact h.moveTo h.line_lt hs ((Nat.sub_le _ _).trans hcol)
  · exact h

/-- Saving keeps the text. -/
theorem NoteBuffer.Valid.clean {nb : NoteBuffer} (h : nb.Valid) (ok : Bool) :
    (if ok then { nb with dirty := false } else nb).Valid := by
  cases ok with
  | false => exact h
  | true => exact ⟨h.count_pos, h.count_le, h.line_lt, h.holds, h.col_le⟩

theorem keyTexteditor_save (h : st.Editing filename) :
    (∃ st' v', keyTexteditor fuel tmp st ctrlS v = some (st', v') ∧ st'.Editing filename) ∨
      fat16WriteFile fuel 0 filename st.edit.nb.text v = none := by
  obtain ⟨hopen, rfl, hvalid⟩ := h
  rw [keyTexteditor, if_neg (Bool.eq_false_iff.mp hopen), if_pos rfl, noteSave_eq hvalid]
  cases fat16WriteFile fuel 0 st.filename st.edit.nb.text v with
  | none => exact .inr rfl
  | some r => exact .inl ⟨_, _, rfl, hopen, rfl, hvalid.clean r.1⟩

/-- A key that does not save edits the buffer, in either mode. -/
theorem keyTexteditor_edit (h : st.Editing filename) (hc : c ≠ ctrlS) :
    ∃ st', keyTexteditor fuel tmp st c v = some (st', v) ∧ st'.Editing filename := by
  rw [keyTexteditor, if_neg (Bool.eq_false_iff.mp h.open_eq), if_neg hc]
  split_ifs with hnormal hescape
  · obtain ⟨handled, edit, hkey, hvalid⟩ := @vimHandleNormalKey_valid st.edit tmp h.valid c
    rw [hkey]
    exact ⟨_, rfl, h.open_eq, h.filename_eq, hvalid⟩
  · obtain ⟨nb, hleave, hvalid⟩ := h.valid.vimLeaveInsert
    rw [hleave]
    exact ⟨_, rfl, h.open_eq, h.filename_eq, hvalid⟩
  · obtain ⟨nb, hkey, hvalid⟩ := h.valid.noteApplyKey c
    rw [hkey]
    exact ⟨_, rfl, h.open_eq, h.filename_eq, hvalid⟩

/-- In a session on an open file no key leaves the lines of the buffer, whatever the keys are; the
    session goes on as long as the driver returns from saving, and without saving it leaves the disk
    alone. -/
theorem texteditorKeys_editing (h : st.Editing filename)
    (keys : List (UInt8 × Buffer noteMaxLineLen)) (fuel : ℕ) (v : Volume) :
    (∃ st' v', texteditorKeys fuel keys st v = some (st', v') ∧ st'.Editing filename ∧
      ((∀ key ∈ keys, key.1 ≠ ctrlS) → v' = v)) ∨
    ∃ before tmp after st₁ v₁, keys = before ++ (ctrlS, tmp) :: after ∧
      texteditorKeys fuel before st v = some (st₁, v₁) ∧ st₁.Editing filename ∧
      fat16WriteFile fuel 0 filename st₁.edit.nb.text v₁ = none := by
  induction keys generalizing st v with
  | nil => exact .inl ⟨st, v, rfl, h, fun _ => rfl⟩
  | cons key keys ih =>
    obtain ⟨c, tmp⟩ := key
    -- a key either stops the session or leaves an open file behind
    have hkey : (∃ st₁ v₁, keyTexteditor fuel tmp st c v = some (st₁, v₁) ∧
        st₁.Editing filename ∧ (c ≠ ctrlS → v₁ = v)) ∨
        c = ctrlS ∧ fat16WriteFile fuel 0 filename st.edit.nb.text v = none := by
      by_cases hc : c = ctrlS
      · subst hc
        obtain ⟨st₁, v₁, hrun, h₁⟩ | hstuck := @keyTexteditor_save fuel tmp st filename v h
        · exact .inl ⟨st₁, v₁, hrun, h₁, fun hne => absurd rfl hne⟩
        · exact .inr ⟨rfl, hstuck⟩
      · obtain ⟨st₁, hrun, h₁⟩ := @keyTexteditor_edit fuel tmp st filename c v h hc
        exact .inl ⟨st₁, v, hrun, h₁, fun _ => rfl⟩
    obtain ⟨st₁, v₁, hrun, h₁, hsame⟩ | ⟨rfl, hstuck⟩ := hkey
    · have hnext : ∀ rest, texteditorKeys fuel ((c, tmp) :: rest) st v =
          texteditorKeys fuel rest st₁ v₁ := by
        intro rest
        rw [texteditorKeys, hrun, Option.bind_some]
      obtain ⟨st', v', hrest, h', hdisk⟩ | ⟨before, tmp', after, st₂, v₂, rfl, hrest⟩ := ih h₁ v₁
      · refine .inl ⟨st', v', (hnext keys).trans hrest, h', ?_⟩
        intro hkeys
        obtain ⟨hc, hkeys⟩ := List.forall_mem_cons.mp hkeys
        exact (hdisk hkeys).trans (hsame hc)
      · exact .inr ⟨(c, tmp) :: before, tmp', after, st₂, v₂, rfl, (hnext before).trans hrest.1,
          hrest.2⟩
    · exact .inr ⟨[], tmp, keys, st, v, rfl, rfl, h, hstuck⟩

/-- The window on a new file `n`. -/
def newNote : TexteditorState := ⟨false, chars "n", ⟨.empty, .normal, 0⟩, true, by decide⟩

theorem texteditorKeys_editing_newNote :
    (∃ st' v', texteditorKeys 4 [(ascii 'i', .zeros _), (ctrlS, .zeros _)] newNote
        (blankVolume 1) = some (st', v') ∧ st'.Editing (chars "n") ∧
      ((∀ key ∈ [(ascii 'i', Buffer.zeros noteMaxLineLen), (ctrlS, .zeros _)], key.1 ≠ ctrlS) →
        v' = blankVolume 1)) ∨
    ∃ before tmp after st₁ v₁,
      [(ascii 'i', Buffer.zeros noteMaxLineLen), (ctrlS, .zeros _)] =
        before ++ (ctrlS, tmp) :: after ∧
      texteditorKeys 4 before newNote (blankVolume 1) = some (st₁, v₁) ∧
      st₁.Editing (chars "n") ∧ fat16WriteFile 4 0 (chars "n") st₁.edit.nb.text v₁ = none :=
  texteditorKeys_editing ⟨rfl, rfl, valid_empty⟩ _ 4 (blankVolume 1)

end Editing

end AuroraOS.Notes
