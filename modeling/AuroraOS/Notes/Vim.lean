import AuroraOS.Lib.Ascii
import AuroraOS.Notes.Editing

/-!
# Normal mode

The normal mode of the windowed editor in `kernel/wm.c`, over the keys of the note buffer. Every key
leaves the buffer valid, and the editing commands do to the lines what they are for, but the one
that opens a line above: it opens the line below.

## Main definitions

- `VimState` — the editing part of `struct texteditor_state`
- `vimHandleNormalKey`
- `VimCommand`, `VimCommand.Meets` — the editing commands and what they are for

## Main results

- `vimHandleNormalKey_valid`
- `vimCommand_meets_iff`
-/

namespace AuroraOS.Notes

open Lib NoteBuffer

/-- `enum vim_mode`. -/
inductive VimMode where
  | normal
  | insert
deriving DecidableEq

/-- The editing part of `struct texteditor_state`. -/
structure VimState where
  nb : NoteBuffer
  vimMode : VimMode
  /-- 0, or the first key of a command of two -/
  vimPending : UInt8

/-- `vim_is_word_char`. -/
def vimIsWordChar (c : UInt8) : Bool :=
  (ascii 'a' ≤ c && c ≤ ascii 'z') || (ascii 'A' ≤ c && c ≤ ascii 'Z') ||
    (ascii '0' ≤ c && c ≤ ascii '9') || c == ascii '_'

/-- A space or a tab. -/
def vimIsBlank (c : UInt8) : Bool := c == ascii ' ' || c == 0x09

section Motions

variable (line : Buffer noteMaxLineLen)

/-- The first loop of `vim_move_word_forward`, with `n` characters to the end of the line. -/
def vimSkipRun (startedWord startedPunct : Bool) : ℕ → ℕ → Option ℕ
  | 0, col => some col
  | n + 1, col => do
    let c ← line.get col
    let isWord := vimIsWordChar c
    let isPunct := !isWord && !vimIsBlank c
    if startedWord && !isWord then some col
    else if startedPunct && !isPunct then some col
    else vimSkipRun startedWord startedPunct n (col + 1)

/-- The second loop of `vim_move_word_forward`, with `n` characters to the end of the line. -/
def vimSkipBlanks : ℕ → ℕ → Option ℕ
  | 0, col => some col
  | n + 1, col => do
    let c ← line.get col
    if vimIsBlank c then vimSkipBlanks n (col + 1) else some col

/-- The first loop of `vim_move_word_backward`. -/
def vimSkipBlanksBack : ℕ → Option ℕ
  | 0 => some 0
  | col + 1 => do
    let c ← line.get col
    if vimIsBlank c then vimSkipBlanksBack col else some (col + 1)

/-- The second loop of `vim_move_word_backward`. -/
def vimSkipRunBack (isWord : Bool) : ℕ → Option ℕ
  | 0 => some 0
  | col + 1 => do
    let c ← line.get col
    if vimIsBlank c then some (col + 1)
    else if vimIsWordChar c != isWord then some (col + 1)
    else vimSkipRunBack isWord col

end Motions

/-- `vim_move_word_forward`. -/
def vimMoveWordForward (nb : NoteBuffer) : Option NoteBuffer := do
  let line ← nb.lines[nb.curLine]?
  let len ← line.strlen
  if nb.curCol ≥ len then
    some (if nb.curLine < nb.lineCount - 1 then { nb with curLine := nb.curLine + 1, curCol := 0 }
      else nb)
  else do
    let c ← line.get nb.curCol
    let startedWord := vimIsWordChar c
    let startedPunct := !startedWord && !vimIsBlank c
    let col ← vimSkipRun line startedWord startedPunct (len - nb.curCol) nb.curCol
    let col ← vimSkipBlanks line (len - col) col
    some (if col ≥ len ∧ nb.curLine < nb.lineCount - 1 then
        { nb with curLine := nb.curLine + 1, curCol := 0 }
      else { nb with curCol := col })

/-- `vim_move_word_backward` behind its first `if`. -/
def vimMoveBackInLine (nb : NoteBuffer) : Option NoteBuffer := do
  let line ← nb.lines[nb.curLine]?
  let col ← vimSkipBlanksBack line nb.curCol
  if col > 0 then do
    let c ← line.get (col - 1)
    let col ← vimSkipRunBack line (vimIsWordChar c) col
    some { nb with curCol := col }
  else some { nb with curCol := col }

/-- `vim_move_word_backward`. -/
def vimMoveWordBackward (nb : NoteBuffer) : Option NoteBuffer :=
  if nb.curCol = 0 then
    if nb.curLine = 0 then some nb
    else do
      let col ← nb.lineLen (nb.curLine - 1)
      let nb := { nb with curLine := nb.curLine - 1, curCol := col }
      if col = 0 then some nb else vimMoveBackInLine nb
  else vimMoveBackInLine nb

/-- `vim_delete_line`. -/
def vimDeleteLine (nb : NoteBuffer) : Option NoteBuffer :=
  if nb.lineCount ≤ 1 then do
    let nb ← nb.setChar 0 0 0
    some { nb with curCol := 0, dirty := true }
  else do
    let nb ← nb.moveUp (nb.lineCount - 1 - nb.curLine) nb.curLine
    let lineCount := nb.lineCount - 1
    let curLine := if nb.curLine ≥ lineCount then lineCount - 1 else nb.curLine
    let len ← nb.lineLen curLine
    let curCol := if nb.curCol > len then len else nb.curCol
    some { nb with
      lineCount := lineCount, curLine := curLine, curCol := curCol, dirty := true }

/-- The buffer behind `note_handle_key`, whose answer is not looked at. -/
def noteApplyKey (nb : NoteBuffer) (c : UInt8) : Option NoteBuffer := do
  let (_, nb) ← noteHandleKey nb c
  some nb

/-- `vim_handle_normal_key` for `x`. -/
def vimDeleteChar (nb : NoteBuffer) : Option NoteBuffer := do
  let len ← nb.lineLen nb.curLine
  if nb.curCol < len then noteApplyKey { nb with curCol := nb.curCol + 1 } 0x08 else some nb

/-- `vim_handle_normal_key` for `o`. -/
def vimOpenBelow (nb : NoteBuffer) : Option NoteBuffer := do
  let len ← nb.lineLen nb.curLine
  noteApplyKey { nb with curCol := len } 0x0a

/-- The swap of the current line with the one above, by way of `tmp`. -/
def vimSwapLines (tmp : Buffer noteMaxLineLen) (nb : NoteBuffer) : Option NoteBuffer := do
  let prev ← nb.lines[nb.curLine - 1]?
  let tmp ← tmp.strcpy prev 0
  let nb ← nb.copyLine (nb.curLine - 1) nb.curLine 0
  let cur ← nb.lines[nb.curLine]?
  let cur ← cur.strcpy tmp 0
  let nb ← nb.setLine nb.curLine cur
  some { nb with curLine := nb.curLine - 1 }

/-- `vim_handle_normal_key` for `O`, with what is in `tmp` before. -/
def vimOpenAbove (tmp : Buffer noteMaxLineLen) (nb : NoteBuffer) : Option NoteBuffer := do
  let nb ← noteApplyKey { nb with curCol := 0 } 0x0a
  if nb.curLine > 0 then vimSwapLines tmp nb else some nb

/-- `vim_handle_normal_key` for `$`. -/
def vimLineEnd (nb : NoteBuffer) : Option NoteBuffer := do
  let len ← nb.lineLen nb.curLine
  some { nb with curCol := if len > 0 then len - 1 else len }

/-- `vim_handle_normal_key` for `a`. -/
def vimAppend (nb : NoteBuffer) : Option NoteBuffer := do
  let len ← nb.lineLen nb.curLine
  some (if nb.curCol < len then { nb with curCol := nb.curCol + 1 } else nb)

/-- `vim_handle_normal_key` for `A`. -/
def vimAppendAtEnd (nb : NoteBuffer) : Option NoteBuffer := do
  let len ← nb.lineLen nb.curLine
  some { nb with curCol := len }

/-- The key is consumed, with the buffer `nb` and the mode `mode` behind it. -/
def VimState.consumed (st : VimState) (nb : Option NoteBuffer) (mode : VimMode) :
    Option (Bool × VimState) := do
  let nb ← nb
  some (true, { st with nb := nb, vimMode := mode })

/-- The `switch` of `vim_handle_normal_key`. -/
def vimSwitch (tmp : Buffer noteMaxLineLen) (st : VimState) (c : UInt8) :
    Option (Bool × VimState) :=
  let nb := st.nb
  if c = ascii 'h' ∨ c = keyArrowLeft then st.consumed (noteApplyKey nb keyArrowLeft) st.vimMode
  else if c = ascii 'l' ∨ c = keyArrowRight then
    st.consumed (noteApplyKey nb keyArrowRight) st.vimMode
  else if c = ascii 'k' ∨ c = keyArrowUp then st.consumed (noteApplyKey nb keyArrowUp) st.vimMode
  else if c = ascii 'j' ∨ c = keyArrowDown then
    st.consumed (noteApplyKey nb keyArrowDown) st.vimMode
  else if c = ascii '0' then st.consumed (some { nb with curCol := 0 }) st.vimMode
  else if c = ascii '$' then st.consumed (vimLineEnd nb) st.vimMode
  else if c = ascii 'w' then st.consumed (vimMoveWordForward nb) st.vimMode
  else if c = ascii 'b' then st.consumed (vimMoveWordBackward nb) st.vimMode
  else if c = ascii 'G' then
    st.consumed (some { nb with curLine := nb.lineCount - 1, curCol := 0 }) st.vimMode
  else if c = ascii 'g' then some (true, { st with vimPending := ascii 'g' })
  else if c = ascii 'x' then st.consumed (vimDeleteChar nb) st.vimMode
  else if c = ascii 'd' then some (true, { st with vimPending := ascii 'd' })
  else if c = ascii 'i' then st.consumed (some nb) .insert
  else if c = ascii 'a' then st.consumed (vimAppend nb) .insert
  else if c = ascii 'I' then st.consumed (some { nb with curCol := 0 }) .insert
  else if c = ascii 'A' then st.consumed (vimAppendAtEnd nb) .insert
  else if c = ascii 'o' then st.consumed (vimOpenBelow nb) .insert
  else if c = ascii 'O' then st.consumed (vimOpenAbove tmp nb) .insert
  else some (false, st)

/-- `vim_handle_normal_key`. -/
def vimHandleNormalKey (tmp : Buffer noteMaxLineLen) (st : VimState) (c : UInt8) :
    Option (Bool × VimState) :=
  if st.vimPending = ascii 'g' then
    let st := { st with vimPending := 0 }
    st.consumed (some (if c = ascii 'g' then { st.nb with curLine := 0, curCol := 0 } else st.nb))
      st.vimMode
  else if st.vimPending = ascii 'd' then
    let st := { st with vimPending := 0 }
    st.consumed (if c = ascii 'd' then vimDeleteLine st.nb else some st.nb) st.vimMode
  else vimSwitch tmp st c

/-- The keys `cs` one after the other. -/
def vimHandleKeys (tmp : Buffer noteMaxLineLen) : VimState → List UInt8 → Option VimState
  | st, [] => some st
  | st, c :: cs => do
    let (_, st) ← vimHandleNormalKey tmp st c
    vimHandleKeys tmp st cs

/-- The editing commands. -/
inductive VimCommand where
  | openAbove
  | openBelow
  | deleteLine
  | deleteChar
deriving DecidableEq

namespace VimCommand

/-- The keys of a command. -/
def keys : VimCommand → List UInt8
  | openAbove => chars "O"
  | openBelow => chars "o"
  | deleteLine => chars "dd"
  | deleteChar => chars "x"

/-- What a command is for. -/
def Meets (nb nb' : NoteBuffer) : VimCommand → Prop
  | openAbove =>
    if nb.lineCount < noteMaxLines then
      nb'.texts = nb.texts.insertIdx nb.curLine [] ∧ nb'.curLine = nb.curLine
    else nb'.texts = nb.texts
  | openBelow =>
    if nb.lineCount < noteMaxLines then
      nb'.texts = nb.texts.insertIdx (nb.curLine + 1) [] ∧ nb'.curLine = nb.curLine + 1
    else nb'.texts = nb.texts
  | deleteLine =>
    nb'.texts = if nb.lineCount = 1 then [[]] else nb.texts.eraseIdx nb.curLine
  | deleteChar =>
    nb'.texts = nb.texts.modify nb.curLine (List.eraseIdx · nb.curCol) ∧
      nb'.curLine = nb.curLine ∧ nb'.curCol = nb.curCol

/-- Opening a line above finds the line empty, or nothing to move on a full buffer. -/
def Harmless (nb : NoteBuffer) (cmd : VimCommand) : Prop :=
  cmd = openAbove →
    if nb.lineCount < noteMaxLines then nb.HoldsLine nb.curLine []
    else nb.curLine = 0 ∨ ∃ s, nb.HoldsLine (nb.curLine - 1) s ∧ nb.HoldsLine nb.curLine s

end VimCommand

section Motions

variable {line : Buffer noteMaxLineLen} {s : List UInt8}

theorem vimSkipRun_le (h : line.Holds s) (startedWord startedPunct : Bool) (n col : ℕ)
    (hn : col + n = s.length) :
    ∃ col', vimSkipRun line startedWord startedPunct n col = some col' ∧ col' ≤ s.length := by
  induction n generalizing col with
  | zero => exact ⟨col, rfl, hn.le⟩
  | succ n ih =>
    have hlt : col < s.length := by omega
    rw [vimSkipRun, h.get_eq hlt, List.getElem?_eq_getElem hlt, Option.bind_eq_bind,
      Option.bind_some]
    dsimp only
    split_ifs
    · exact ⟨col, rfl, hlt.le⟩
    · exact ⟨col, rfl, hlt.le⟩
    · exact ih (col + 1) (by omega)

theorem vimSkipBlanks_le (h : line.Holds s) (n col : ℕ) (hn : col + n = s.length) :
    ∃ col', vimSkipBlanks line n col = some col' ∧ col' ≤ s.length := by
  induction n generalizing col with
  | zero => exact ⟨col, rfl, hn.le⟩
  | succ n ih =>
    have hlt : col < s.length := by omega
    rw [vimSkipBlanks, h.get_eq hlt, List.getElem?_eq_getElem hlt, Option.bind_eq_bind,
      Option.bind_some]
    split_ifs
    · exact ih (col + 1) (by omega)
    · exact ⟨col, rfl, hlt.le⟩

theorem vimSkipBlanksBack_le (h : line.Holds s) (col : ℕ) (hcol : col ≤ s.length) :
    ∃ col', vimSkipBlanksBack line col = some col' ∧ col' ≤ s.length := by
  induction col with
  | zero => exact ⟨0, rfl, hcol⟩
  | succ col ih =>
    rw [vimSkipBlanksBack, h.get_eq hcol, List.getElem?_eq_getElem hcol, Option.bind_eq_bind,
      Option.bind_some]
    split_ifs
    · exact ih (Nat.le_of_succ_le hcol)
    · exact ⟨col + 1, rfl, hcol⟩

theorem vimSkipRunBack_le (h : line.Holds s) (isWord : Bool) (col : ℕ) (hcol : col ≤ s.length) :
    ∃ col', vimSkipRunBack line isWord col = some col' ∧ col' ≤ s.length := by
  induction col with
  | zero => exact ⟨0, rfl, hcol⟩
  | succ col ih =>
    rw [vimSkipRunBack, h.get_eq hcol, List.getElem?_eq_getElem hcol, Option.bind_eq_bind,
      Option.bind_some]
    split_ifs
    · exact ⟨col + 1, rfl, hcol⟩
    · exact ⟨col + 1, rfl, hcol⟩
    · exact ih (Nat.le_of_succ_le hcol)

end Motions

namespace NoteBuffer

variable {nb : NoteBuffer} {z : LineZipper UInt8} {s : List UInt8} {i col : ℕ}

section Cursor

/-- The cursor moves within its line. -/
theorem Shows.withCol (h : nb.Shows z) (hcol : col ≤ z.line.length) :
    NoteBuffer.Shows { nb with curCol := col } { z with col := col } where
  count_eq := h.count_eq
  count_le := h.count_le
  line_eq := h.line_eq
  col_eq := rfl
  inLine := hcol
  holds := h.holds

theorem Valid.moveTo (h : nb.Valid) (hi : i < nb.lineCount) (hs : nb.HoldsLine i s)
    (hcol : col ≤ s.length) : Valid { nb with curLine := i, curCol := col } := by
  obtain ⟨z, hz⟩ := h.exists_shows
  exact (hz.moveTo hi hs hcol).valid

theorem Valid.holds_line (h : nb.Valid) :
    ∃ s, nb.HoldsLine nb.curLine s ∧ nb.curCol ≤ s.length := by
  obtain ⟨s, hs⟩ := h.holds nb.curLine h.line_lt
  exact ⟨s, hs, h.col_le s hs⟩

/-- The cursor moves to the start of a line. -/
theorem Valid.startOf (h : nb.Valid) (hi : i < nb.lineCount) :
    Valid { nb with curLine := i, curCol := 0 } := by
  obtain ⟨s, hs⟩ := h.holds i hi
  exact h.moveTo hi hs (Nat.zero_le _)

theorem Valid.vimMoveWordForward (h : nb.Valid) :
    ∃ nb', Notes.vimMoveWordForward nb = some nb' ∧ nb'.Valid := by
  obtain ⟨s, hs, hcol⟩ := h.holds_line
  obtain ⟨line, hget, hline⟩ := hs
  have hnext : nb.curLine < nb.lineCount - 1 →
      Valid { nb with curLine := nb.curLine + 1, curCol := 0 } := fun hlt => h.startOf (by omega)
  rw [Notes.vimMoveWordForward, hget, Option.bind_eq_bind, Option.bind_some, hline.strlen_eq,
    Option.bind_eq_bind, Option.bind_some]
  split_ifs with hend hlt
  · exact ⟨_, rfl, hnext hlt⟩
  · exact ⟨_, rfl, h⟩
  · have hlt : nb.curCol < s.length := Nat.lt_of_not_le hend
    rw [hline.get_eq hlt, List.getElem?_eq_getElem hlt, Option.bind_eq_bind, Option.bind_some]
    obtain ⟨col₁, hrun, hle₁⟩ := vimSkipRun_le hline (vimIsWordChar s[nb.curCol])
      (!vimIsWordChar s[nb.curCol] && !vimIsBlank s[nb.curCol]) (s.length - nb.curCol) nb.curCol
      (by omega)
    obtain ⟨col₂, hblanks, hle₂⟩ := vimSkipBlanks_le hline (s.length - col₁) col₁ (by omega)
    refine ⟨_, Option.bind_eq_some_iff.mpr ⟨col₁, hrun,
      Option.bind_eq_some_iff.mpr ⟨col₂, hblanks, rfl⟩⟩, ?_⟩
    split_ifs with hwrap
    · exact hnext hwrap.2
    · exact h.moveTo h.line_lt ⟨line, hget, hline⟩ hle₂

theorem Valid.vimMoveBackInLine (h : nb.Valid) :
    ∃ nb', Notes.vimMoveBackInLine nb = some nb' ∧ nb'.Valid := by
  obtain ⟨s, hs, hcol⟩ := h.holds_line
  have hmove : ∀ col ≤ s.length, Valid { nb with curCol := col } := fun col hle =>
    h.moveTo h.line_lt hs hle
  obtain ⟨line, hget, hline⟩ := hs
  obtain ⟨col₁, hblanks, hle₁⟩ := vimSkipBlanksBack_le hline nb.curCol hcol
  rw [Notes.vimMoveBackInLine, hget, Option.bind_eq_bind, Option.bind_some, hblanks,
    Option.bind_eq_bind, Option.bind_some]
  split_ifs with hpos
  · have hlt : col₁ - 1 < s.length := by omega
    obtain ⟨col₂, hrun, hle₂⟩ := vimSkipRunBack_le hline (vimIsWordChar s[col₁ - 1]) col₁ hle₁
    rw [hline.get_eq hlt, List.getElem?_eq_getElem hlt, Option.bind_eq_bind, Option.bind_some]
    exact ⟨_, Option.bind_eq_some_iff.mpr ⟨col₂, hrun, rfl⟩, hmove col₂ hle₂⟩
  · exact ⟨_, rfl, hmove col₁ hle₁⟩

theorem Valid.vimMoveWordBackward (h : nb.Valid) :
    ∃ nb', Notes.vimMoveWordBackward nb = some nb' ∧ nb'.Valid := by
  have hlt := h.line_lt
  rw [Notes.vimMoveWordBackward]
  split_ifs with hcol hline
  · exact ⟨nb, rfl, h⟩
  · obtain ⟨s, hs⟩ := h.holds (nb.curLine - 1) (by omega)
    have hprev := h.moveTo (by omega) hs (Nat.le_refl _)
    rw [hs.lineLen_eq, Option.bind_eq_bind, Option.bind_some]
    split_ifs
    · exact ⟨_, rfl, hprev⟩
    · exact hprev.vimMoveBackInLine
  · exact h.vimMoveBackInLine

theorem Valid.vimLineEnd (h : nb.Valid) :
    ∃ nb', Notes.vimLineEnd nb = some nb' ∧ nb'.Valid := by
  obtain ⟨s, hs, -⟩ := h.holds_line
  refine ⟨_, Option.bind_eq_some_iff.mpr ⟨_, hs.lineLen_eq, rfl⟩, h.moveTo h.line_lt hs ?_⟩
  split_ifs
  · exact Nat.sub_le _ _
  · exact Nat.le_refl _

theorem Valid.vimAppend (h : nb.Valid) :
    ∃ nb', Notes.vimAppend nb = some nb' ∧ nb'.Valid := by
  obtain ⟨s, hs, -⟩ := h.holds_line
  refine ⟨_, Option.bind_eq_some_iff.mpr ⟨_, hs.lineLen_eq, rfl⟩, ?_⟩
  split_ifs with hlt
  · exact h.moveTo h.line_lt hs hlt
  · exact h

theorem Valid.vimAppendAtEnd (h : nb.Valid) :
    ∃ nb', Notes.vimAppendAtEnd nb = some nb' ∧ nb'.Valid := by
  obtain ⟨s, hs, -⟩ := h.holds_line
  exact ⟨_, Option.bind_eq_some_iff.mpr ⟨_, hs.lineLen_eq, rfl⟩,
    h.moveTo h.line_lt hs (Nat.le_refl _)⟩

theorem Valid.noteApplyKey (h : nb.Valid) (c : UInt8) :
    ∃ nb', Notes.noteApplyKey nb c = some nb' ∧ nb'.Valid := by
  obtain ⟨_, nb', hkey, heffect⟩ := h.keyEffect c
  exact ⟨nb', Option.bind_eq_some_iff.mpr ⟨_, hkey, rfl⟩, heffect.valid⟩

end Cursor

section Edits

theorem Shows.newline (h : nb.Shows z) (hroom : nb.lineCount < noteMaxLines) :
    ∃ nb', Notes.noteApplyKey nb 0x0a = some nb' ∧ nb'.Shows z.split := by
  obtain ⟨nb', hrun, h'⟩ := h.noteNewline hroom
  exact ⟨nb', Option.bind_eq_some_iff.mpr ⟨_, hrun, rfl⟩, h'⟩

theorem noteApplyKey_newline_full (hfull : ¬nb.lineCount < noteMaxLines) :
    Notes.noteApplyKey nb 0x0a = some nb :=
  Option.bind_eq_some_iff.mpr ⟨_, Shows.noteNewline_full hfull, rfl⟩

theorem Shows.vimDeleteChar (h : nb.Shows z) :
    ∃ nb', Notes.vimDeleteChar nb = some nb' ∧
      nb'.Shows { z with line := z.line.eraseIdx z.col } := by
  have hlen := h.holds_line.lineLen_eq
  obtain hlt | hge := Nat.lt_or_ge nb.curCol z.line.length
  · have hcol : nb.curCol + 1 ≤ z.line.length := hlt
    obtain ⟨nb', hrun, h'⟩ := (h.withCol hcol).noteBackspace_erase (Nat.succ_pos _)
    rw [LineZipper.erase, Nat.add_sub_cancel, h.col_eq] at h'
    refine ⟨nb', Option.bind_eq_some_iff.mpr ⟨_, hlen, ?_⟩, h'⟩
    rw [if_pos hlt]
    exact Option.bind_eq_some_iff.mpr ⟨_, hrun, rfl⟩
  · -- behind the last character there is nothing to delete
    refine ⟨nb, Option.bind_eq_some_iff.mpr ⟨_, hlen, if_neg (Nat.not_lt.mpr hge)⟩, ?_⟩
    rwa [List.eraseIdx_of_length_le (h.col_eq ▸ hge)]

theorem Shows.vimOpenBelow (h : nb.Shows z) (hroom : nb.lineCount < noteMaxLines) :
    ∃ nb', Notes.vimOpenBelow nb = some nb' ∧
      nb'.Shows ⟨z.above ++ [z.line], [], z.below, 0⟩ := by
  obtain ⟨nb', hrun, h'⟩ := (h.withCol (Nat.le_refl _)).newline hroom
  rw [LineZipper.split, List.take_length, List.drop_length] at h'
  exact ⟨nb', Option.bind_eq_some_iff.mpr ⟨_, h.holds_line.lineLen_eq, hrun⟩, h'⟩

theorem Shows.vimOpenBelow_full (h : nb.Shows z) (hfull : ¬nb.lineCount < noteMaxLines) :
    ∃ nb', Notes.vimOpenBelow nb = some nb' ∧ nb'.Shows { z with col := z.line.length } :=
  ⟨_, Option.bind_eq_some_iff.mpr ⟨_, h.holds_line.lineLen_eq, noteApplyKey_newline_full hfull⟩,
    h.withCol (Nat.le_refl _)⟩

/-- The current line changes places with the one above, and the cursor follows it. -/
theorem Shows.vimSwapLines {above below : List (List UInt8)} {prev line : List UInt8}
    (h : nb.Shows ⟨above ++ [prev], line, below, col⟩) (tmp : Buffer noteMaxLineLen) :
    ∃ nb', Notes.vimSwapLines tmp nb = some nb' ∧
      nb'.Shows ⟨above, line, prev :: below, col⟩ := by
  have hpos : nb.curLine = above.length + 1 := by
    rw [h.line_eq, List.length_append, List.length_singleton]
  have hlt := h.line_lt
  obtain ⟨-, hprev⟩ : above.length < nb.curLine ∧ nb.HoldsLine above.length prev :=
    h.holds_above List.getElem?_concat_length
  rw [show above.length = nb.curLine - 1 by omega] at hprev
  obtain ⟨up, hup, hupHolds⟩ := hprev
  obtain ⟨tmp', htmp, htmpHolds⟩ := hupHolds.strcpy (Nat.zero_le _) hupHolds.length_lt tmp
  rw [List.drop_zero] at htmpHolds
  obtain ⟨nb₁, hcopy, hset₁⟩ := h.holds_line.copyLine
    (h.lt_max (show nb.curLine - 1 < nb.lineCount by omega)) (Nat.zero_le _)
  rw [List.drop_zero] at hset₁
  obtain ⟨cur, hcur, -⟩ := hset₁.others nb.curLine (by omega) _ h.holds_line
  obtain ⟨cur', hback, hcur'⟩ := htmpHolds.strcpy (Nat.zero_le _) htmpHolds.length_lt cur
  rw [List.drop_zero] at hcur'
  obtain ⟨nb₂, hset, hset₂⟩ := nb₁.exists_setLine (h.lt_max hlt) hcur'
  have hsame := hset₁.toSameCursor.trans hset₂.toSameCursor
  refine ⟨{ nb₂ with curLine := nb.curLine - 1 }, ?_, shows_of_parts ?_ ?_ ?_ ?_ h.inLine
    (fun i t ht => ?_) ?_ fun i t ht => ?_⟩
  · refine Option.bind_eq_some_iff.mpr ⟨up, hup, ?_⟩
    refine Option.bind_eq_some_iff.mpr ⟨tmp', htmp, ?_⟩
    refine Option.bind_eq_some_iff.mpr ⟨nb₁, hcopy, ?_⟩
    rw [hset₁.curLine_eq]
    refine Option.bind_eq_some_iff.mpr ⟨cur, hcur, ?_⟩
    refine Option.bind_eq_some_iff.mpr ⟨cur', hback, ?_⟩
    exact Option.bind_eq_some_iff.mpr ⟨nb₂, hset, by rw [hsame.curLine_eq]⟩
  · have hcount := h.count_split
    have hcount₂ := hsame.count_eq
    show nb₂.lineCount = nb.curLine - 1 + 1 + (below.length + 1)
    rw [hcount₂]
    simp only at hcount
    omega
  · exact hsame.count_eq.trans_le h.count_le
  · show nb.curLine - 1 = above.length
    omega
  · exact hsame.curCol_eq.trans h.col_eq
  · have hi : i < above.length := (List.getElem?_eq_some_iff.mp ht).1
    obtain ⟨-, ht⟩ := h.holds_above ((List.getElem?_append_left hi).trans ht)
    exact hset₂.others i (by omega) t (hset₁.others i (by omega) t ht)
  · show nb₂.HoldsLine (nb.curLine - 1) line
    exact hset₂.others _ (by omega) _ hset₁.line
  · cases i with
    | zero =>
      obtain rfl := Option.some.inj ht
      exact (show nb.curLine - 1 + 1 + 0 = nb.curLine by omega) ▸ hset₂.line
    | succ i =>
      obtain ⟨-, ht⟩ := h.holds_below ht
      rw [show nb.curLine + 1 + i = nb.curLine - 1 + 1 + (i + 1) by omega] at ht
      show nb₂.HoldsLine (nb.curLine - 1 + 1 + (i + 1)) t
      exact hset₂.others _ (by omega) t (hset₁.others _ (by omega) t ht)

theorem Shows.vimOpenAbove (h : nb.Shows z) (hroom : nb.lineCount < noteMaxLines)
    (tmp : Buffer noteMaxLineLen) :
    ∃ nb', Notes.vimOpenAbove tmp nb = some nb' ∧
      nb'.Shows ⟨z.above, z.line, [] :: z.below, 0⟩ := by
  obtain ⟨nb₁, hrun, h₁⟩ := (h.withCol (Nat.zero_le _)).newline hroom
  rw [LineZipper.split, List.take_zero, List.drop_zero] at h₁
  obtain ⟨nb', hswap, h'⟩ := h₁.vimSwapLines tmp
  refine ⟨nb', Option.bind_eq_some_iff.mpr ⟨nb₁, hrun, ?_⟩, h'⟩
  rw [if_pos (by rw [h₁.line_eq, List.length_append]; exact Nat.succ_pos _)]
  exact hswap

theorem Shows.vimOpenAbove_full (h : nb.Shows z) (hfull : ¬nb.lineCount < noteMaxLines)
    (tmp : Buffer noteMaxLineLen) :
    ∃ nb', Notes.vimOpenAbove tmp nb = some nb' ∧
      (z.above = [] → nb'.Shows { z with col := 0 }) ∧
      ∀ above prev, z.above = above ++ [prev] → nb'.Shows ⟨above, z.line, prev :: z.below, 0⟩ := by
  have h₀ := h.withCol (Nat.zero_le z.line.length)
  have hrun : Notes.noteApplyKey { nb with curCol := 0 } 0x0a = some { nb with curCol := 0 } :=
    noteApplyKey_newline_full hfull
  obtain habove | ⟨above, prev, habove⟩ := List.eq_nil_or_concat' z.above
  · have hline : nb.curLine = 0 := by rw [h.line_eq, habove, List.length_nil]
    refine ⟨_, Option.bind_eq_some_iff.mpr ⟨_, hrun, if_neg hline.not_gt⟩, fun _ => h₀,
      fun above prev habove' => ?_⟩
    exact absurd (habove.symm.trans habove') (List.append_ne_nil_of_right_ne_nil _ (by simp)).symm
  · rw [habove] at h₀
    obtain ⟨nb', hswap, h'⟩ := h₀.vimSwapLines tmp
    refine ⟨nb', Option.bind_eq_some_iff.mpr ⟨_, hrun, ?_⟩, fun hnil => ?_,
      fun above' prev' habove' => ?_⟩
    · rw [if_pos (by rw [h₀.line_eq, List.length_append]; exact Nat.succ_pos _)]
      exact hswap
    · exact absurd (habove.symm.trans hnil) (List.append_ne_nil_of_right_ne_nil _ (by simp))
    · obtain ⟨rfl, hprev⟩ := List.append_inj' (habove.symm.trans habove') rfl
      obtain rfl := List.singleton_inj.mp hprev
      exact h'

theorem Shows.vimDeleteLine_only (h : nb.Shows z) (hone : nb.lineCount ≤ 1) :
    ∃ nb', Notes.vimDeleteLine nb = some nb' ∧ nb'.Shows ⟨[], [], [], 0⟩ := by
  have hlt := h.line_lt
  have hline : nb.curLine = 0 := by omega
  obtain ⟨row, hget, hrow⟩ := hline ▸ h.holds_line
  obtain ⟨row', hput, hrow'⟩ := hrow.truncate (Nat.zero_le _)
  obtain ⟨nb', hset, hsets⟩ := nb.exists_setLine (h.lt_max (hline ▸ hlt)) hrow'
  have hset' : nb.setChar 0 0 0 = some nb' := by
    rw [setChar]
    exact Option.bind_eq_some_iff.mpr ⟨row, hget,
      Option.bind_eq_some_iff.mpr ⟨row', hput, hset⟩⟩
  refine ⟨{ nb' with curCol := 0, dirty := true }, ?_, shows_of_parts ?_ ?_ ?_ rfl (Nat.zero_le _)
    (fun i t ht => absurd ht (by simp)) ?_ fun i t ht => absurd ht (by simp)⟩
  · rw [Notes.vimDeleteLine, if_pos hone]
    exact Option.bind_eq_some_iff.mpr ⟨nb', hset', rfl⟩
  · show nb'.lineCount = nb'.curLine + 1 + 0
    rw [hsets.count_eq, hsets.curLine_eq]
    omega
  · exact hsets.count_eq.trans_le h.count_le
  · exact hsets.curLine_eq.trans hline
  · exact (hsets.curLine_eq.trans hline).symm ▸ hsets.line

theorem Shows.vimDeleteLine (h : nb.Shows z) (hmany : 1 < nb.lineCount) :
    ∃ nb', Notes.vimDeleteLine nb = some nb' ∧
      ∃ z', z'.lines = z.above ++ z.below ∧ nb'.Shows z' := by
  have hlt := h.line_lt
  have hcount := h.count_split
  have hle := h.count_le
  obtain ⟨nb₁, hmove, hsame, hmoved, hkept⟩ := moveUp_spec (nb.lineCount - 1 - nb.curLine)
    nb.curLine nb (by omega) fun j _ hj => by
      obtain ⟨s, -, hs⟩ := h.exists_line (show j < nb.lineCount by omega)
      exact ⟨s, hs⟩
  have hlen : (z.above ++ z.below).length = nb.lineCount - 1 := by
    rw [List.length_append, ← h.line_eq]
    omega
  have hholds : ∀ i t, (z.above ++ z.below)[i]? = some t → nb₁.HoldsLine i t := fun i t ht => by
    obtain hi | hi := Nat.lt_or_ge i z.above.length
    · rw [List.getElem?_append_left hi] at ht
      obtain ⟨hi, ht⟩ := h.holds_above ht
      exact hkept i t hi ht
    · rw [List.getElem?_append_right hi] at ht
      obtain ⟨hi', ht⟩ := h.holds_below ht
      rw [← h.line_eq] at hi hi' ht
      exact hmoved i t hi (by omega)
        ((show nb.curLine + 1 + (i - nb.curLine) = i + 1 by omega) ▸ ht)
  -- the cursor stays on its row if there is one
  obtain ⟨row, hrow, hrowLt⟩ : ∃ row, row = (if nb₁.curLine ≥ nb₁.lineCount - 1 then
      nb₁.lineCount - 1 - 1 else nb₁.curLine) ∧ row < (z.above ++ z.below).length := by
    refine ⟨_, rfl, ?_⟩
    rw [hsame.count_eq, hsame.curLine_eq, hlen]
    split_ifs
    · omega
    · omega
  have hget := List.getElem?_eq_getElem hrowLt
  have hline := hholds row _ hget
  refine ⟨{ nb₁ with
    lineCount := nb₁.lineCount - 1, curLine := row, dirty := true,
    curCol := if nb₁.curCol > (z.above ++ z.below)[row].length then
      (z.above ++ z.below)[row].length else nb₁.curCol }, ?_,
    exists_shows_of_lines ?_ ?_ hget ?_ hholds⟩
  · rw [Notes.vimDeleteLine, if_neg (by omega)]
    refine Option.bind_eq_some_iff.mpr ⟨nb₁, hmove, ?_⟩
    dsimp only
    rw [← hrow]
    exact Option.bind_eq_some_iff.mpr ⟨_, hline.lineLen_eq, rfl⟩
  · rw [hlen, hsame.count_eq]
  · show nb₁.lineCount - 1 ≤ noteMaxLines
    rw [hsame.count_eq]
    omega
  · show (if nb₁.curCol > (z.above ++ z.below)[row].length then
      (z.above ++ z.below)[row].length else nb₁.curCol) ≤ (z.above ++ z.below)[row].length
    split_ifs <;> omega

theorem Valid.vimDeleteChar (h : nb.Valid) :
    ∃ nb', Notes.vimDeleteChar nb = some nb' ∧ nb'.Valid := by
  obtain ⟨z, hz⟩ := h.exists_shows
  obtain ⟨nb', hrun, h'⟩ := hz.vimDeleteChar
  exact ⟨nb', hrun, h'.valid⟩

theorem Valid.vimDeleteLine (h : nb.Valid) :
    ∃ nb', Notes.vimDeleteLine nb = some nb' ∧ nb'.Valid := by
  obtain ⟨z, hz⟩ := h.exists_shows
  obtain hmany | hone := Nat.lt_or_ge 1 nb.lineCount
  · obtain ⟨nb', hrun, _, -, h'⟩ := hz.vimDeleteLine hmany
    exact ⟨nb', hrun, h'.valid⟩
  · obtain ⟨nb', hrun, h'⟩ := hz.vimDeleteLine_only hone
    exact ⟨nb', hrun, h'.valid⟩

theorem Valid.vimOpenBelow (h : nb.Valid) :
    ∃ nb', Notes.vimOpenBelow nb = some nb' ∧ nb'.Valid := by
  obtain ⟨z, hz⟩ := h.exists_shows
  by_cases hroom : nb.lineCount < noteMaxLines
  · obtain ⟨nb', hrun, h'⟩ := hz.vimOpenBelow hroom
    exact ⟨nb', hrun, h'.valid⟩
  · obtain ⟨nb', hrun, h'⟩ := hz.vimOpenBelow_full hroom
    exact ⟨nb', hrun, h'.valid⟩

theorem Valid.vimOpenAbove (h : nb.Valid) (tmp : Buffer noteMaxLineLen) :
    ∃ nb', Notes.vimOpenAbove tmp nb = some nb' ∧ nb'.Valid := by
  obtain ⟨z, hz⟩ := h.exists_shows
  by_cases hroom : nb.lineCount < noteMaxLines
  · obtain ⟨nb', hrun, h'⟩ := hz.vimOpenAbove hroom tmp
    exact ⟨nb', hrun, h'.valid⟩
  · obtain ⟨nb', hrun, hfirst, hlater⟩ := hz.vimOpenAbove_full hroom tmp
    obtain habove | ⟨above, prev, habove⟩ := List.eq_nil_or_concat' z.above
    · exact ⟨nb', hrun, (hfirst habove).valid⟩
    · exact ⟨nb', hrun, (hlater above prev habove).valid⟩

end Edits

end NoteBuffer

section Keys

variable {st : VimState} {tmp : Buffer noteMaxLineLen}

/-- A key is handled, with a valid buffer behind it. -/
def KeepsValid (r : Option (Bool × VimState)) : Prop :=
  ∃ handled st', r = some (handled, st') ∧ st'.nb.Valid

theorem KeepsValid.ite {p : Prop} [Decidable p] {a b : Option (Bool × VimState)}
    (ha : KeepsValid a) (hb : KeepsValid b) : KeepsValid (if p then a else b) := by
  by_cases hp : p
  · rwa [if_pos hp]
  · rwa [if_neg hp]

theorem VimState.consumed_valid {nb : Option NoteBuffer} (h : ∃ nb', nb = some nb' ∧ nb'.Valid)
    (mode : VimMode) : KeepsValid (st.consumed nb mode) := by
  obtain ⟨nb', rfl, h'⟩ := h
  exact ⟨true, _, rfl, h'⟩

theorem vimSwitch_valid (h : st.nb.Valid) (c : UInt8) : KeepsValid (vimSwitch tmp st c) := by
  have hlt := h.line_lt
  have hstart : Valid { st.nb with curCol := 0 } := h.startOf h.line_lt
  refine .ite (VimState.consumed_valid (h.noteApplyKey _) _) ?_
  refine .ite (VimState.consumed_valid (h.noteApplyKey _) _) ?_
  refine .ite (VimState.consumed_valid (h.noteApplyKey _) _) ?_
  refine .ite (VimState.consumed_valid (h.noteApplyKey _) _) ?_
  refine .ite (VimState.consumed_valid ⟨_, rfl, hstart⟩ _) ?_
  refine .ite (VimState.consumed_valid h.vimLineEnd _) ?_
  refine .ite (VimState.consumed_valid h.vimMoveWordForward _) ?_
  refine .ite (VimState.consumed_valid h.vimMoveWordBackward _) ?_
  refine .ite (VimState.consumed_valid ⟨_, rfl, h.startOf (by omega)⟩ _) ?_
  refine .ite ⟨true, _, rfl, h⟩ ?_
  refine .ite (VimState.consumed_valid h.vimDeleteChar _) ?_
  refine .ite ⟨true, _, rfl, h⟩ ?_
  refine .ite (VimState.consumed_valid ⟨_, rfl, h⟩ _) ?_
  refine .ite (VimState.consumed_valid h.vimAppend _) ?_
  refine .ite (VimState.consumed_valid ⟨_, rfl, hstart⟩ _) ?_
  refine .ite (VimState.consumed_valid h.vimAppendAtEnd _) ?_
  refine .ite (VimState.consumed_valid h.vimOpenBelow _) ?_
  exact .ite (VimState.consumed_valid (h.vimOpenAbove tmp) _) ⟨false, st, rfl, h⟩

/-- Every key leaves a valid buffer valid. -/
theorem vimHandleNormalKey_valid (h : st.nb.Valid) (c : UInt8) :
    KeepsValid (vimHandleNormalKey tmp st c) := by
  have hlt := h.line_lt
  refine .ite (VimState.consumed_valid ⟨_, rfl, ?_⟩ _)
    (.ite (VimState.consumed_valid ?_ _) (vimSwitch_valid h c))
  · split_ifs
    · exact h.startOf (by omega)
    · exact h
  · split_ifs
    · exact h.vimDeleteLine
    · exact ⟨_, rfl, h⟩

end Keys

namespace VimCommand

variable {nb : NoteBuffer} {z : LineZipper UInt8} {tmp : Buffer noteMaxLineLen}

/-- What the keys of a command do to the buffer. -/
def effect (tmp : Buffer noteMaxLineLen) (nb : NoteBuffer) : VimCommand → Option NoteBuffer
  | openAbove => vimOpenAbove tmp nb
  | openBelow => vimOpenBelow nb
  | deleteLine => vimDeleteLine nb
  | deleteChar => vimDeleteChar nb

theorem vimHandleKeys_keys (tmp : Buffer noteMaxLineLen) {st : VimState}
    (hpending : st.vimPending = 0) (cmd : VimCommand) :
    (vimHandleKeys tmp st cmd.keys).map VimState.nb = cmd.effect tmp st.nb := by
  have hg : ¬st.vimPending = ascii 'g' := by rw [hpending]; decide
  have hd : ¬st.vimPending = ascii 'd' := by rw [hpending]; decide
  cases cmd with
  | openAbove =>
    show ((vimHandleNormalKey tmp st (ascii 'O')).bind fun r => some r.2).map VimState.nb = _
    rw [vimHandleNormalKey, if_neg hg, if_neg hd]
    show ((st.consumed (vimOpenAbove tmp st.nb) _).bind _).map _ = vimOpenAbove tmp st.nb
    cases vimOpenAbove tmp st.nb <;> rfl
  | openBelow =>
    show ((vimHandleNormalKey tmp st (ascii 'o')).bind fun r => some r.2).map VimState.nb = _
    rw [vimHandleNormalKey, if_neg hg, if_neg hd]
    show ((st.consumed (vimOpenBelow st.nb) _).bind _).map _ = vimOpenBelow st.nb
    cases vimOpenBelow st.nb <;> rfl
  | deleteLine =>
    show ((vimHandleNormalKey tmp st (ascii 'd')).bind fun r =>
      vimHandleKeys tmp r.2 [ascii 'd']).map VimState.nb = _
    rw [vimHandleNormalKey, if_neg hg, if_neg hd]
    show ((VimState.consumed _ (vimDeleteLine st.nb) _).bind _).map _ = vimDeleteLine st.nb
    cases vimDeleteLine st.nb <;> rfl
  | deleteChar =>
    show ((vimHandleNormalKey tmp st (ascii 'x')).bind fun r => some r.2).map VimState.nb = _
    rw [vimHandleNormalKey, if_neg hg, if_neg hd]
    show ((st.consumed (vimDeleteChar st.nb) _).bind _).map _ = vimDeleteChar st.nb
    cases vimDeleteChar st.nb <;> rfl

theorem insertIdx_lines (z : LineZipper UInt8) (l : List UInt8) :
    z.lines.insertIdx z.above.length l = z.above ++ l :: z.line :: z.below := by
  have hlen : z.above.length ≤ z.lines.length := by
    rw [z.length_lines]
    omega
  rw [LineZipper.insertIdx_eq_take_drop _ hlen, LineZipper.lines, List.take_left, List.drop_left]

theorem insertIdx_lines_succ (z : LineZipper UInt8) (l : List UInt8) :
    z.lines.insertIdx (z.above.length + 1) l = z.above ++ z.line :: l :: z.below := by
  have hlen : z.above.length + 1 ≤ z.lines.length := by
    rw [z.length_lines]
    omega
  have hlines : z.lines = (z.above ++ [z.line]) ++ z.below := by
    rw [LineZipper.lines, List.append_assoc, List.singleton_append]
  have habove : z.above.length + 1 = (z.above ++ [z.line]).length := by
    rw [List.length_append, List.length_singleton]
  rw [LineZipper.insertIdx_eq_take_drop _ hlen, hlines, habove, List.take_left, List.drop_left,
    List.append_assoc, List.singleton_append]

/-- Opening a line above puts the line below, and swaps two lines of a full buffer. -/
theorem meets_openAbove_iff (h : nb.Shows z) {nb' : NoteBuffer}
    (hrun : vimOpenAbove tmp nb = some nb') :
    openAbove.Meets nb nb' ↔ openAbove.Harmless nb := by
  by_cases hroom : nb.lineCount < noteMaxLines
  · obtain ⟨nb₁, hrun₁, h'⟩ := h.vimOpenAbove hroom tmp
    obtain rfl := Option.some.inj (hrun.symm.trans hrun₁)
    rw [Meets, if_pos hroom, h.texts_eq, h'.texts_eq, h'.line_eq, h.line_eq, insertIdx_lines,
      LineZipper.lines, Harmless]
    constructor
    · rintro ⟨hlines, -⟩ -
      obtain ⟨hline, -⟩ := List.cons.inj (List.append_cancel_left hlines)
      rw [if_pos hroom, h.line_eq]
      exact hline ▸ h.line_eq ▸ h.holds_line
    · intro hempty
      have hline := hempty rfl
      rw [if_pos hroom] at hline
      rw [h.holds_line.unique hline]
      exact ⟨rfl, rfl⟩
  · obtain ⟨nb₁, hrun₁, hfirst, hlater⟩ := h.vimOpenAbove_full hroom tmp
    obtain rfl := Option.some.inj (hrun.symm.trans hrun₁)
    rw [Meets, if_neg hroom, h.texts_eq, Harmless, if_neg hroom]
    obtain habove | ⟨above, prev, habove⟩ := List.eq_nil_or_concat' z.above
    · have hline : nb.curLine = 0 := by rw [h.line_eq, habove, List.length_nil]
      exact ⟨fun _ _ => Or.inl hline, fun _ => (hfirst habove).texts_eq⟩
    · have hpos : nb.curLine = above.length + 1 := by
        rw [h.line_eq, habove, List.length_append, List.length_singleton]
      have hprev : nb.HoldsLine (nb.curLine - 1) prev := by
        have hprev := (h.holds_above (habove ▸ List.getElem?_concat_length)).2
        rwa [show above.length = nb.curLine - 1 by omega] at hprev
      rw [(hlater above prev habove).texts_eq, LineZipper.lines, LineZipper.lines, habove,
        List.append_assoc, List.singleton_append, List.append_cancel_left_eq]
      constructor
      · intro hlines _
        obtain ⟨hline, -⟩ := List.cons.inj hlines
        exact Or.inr ⟨z.line, hline ▸ hprev, h.holds_line⟩
      · intro hsame
        obtain hzero | ⟨s, hs, hs'⟩ := hsame rfl
        · omega
        · rw [hprev.unique hs, h.holds_line.unique hs']

theorem meets_openBelow (h : nb.Shows z) {nb' : NoteBuffer} (hrun : vimOpenBelow nb = some nb') :
    openBelow.Meets nb nb' := by
  by_cases hroom : nb.lineCount < noteMaxLines
  · obtain ⟨nb₁, hrun₁, h'⟩ := h.vimOpenBelow hroom
    obtain rfl := Option.some.inj (hrun.symm.trans hrun₁)
    rw [Meets, if_pos hroom, h.texts_eq, h'.texts_eq, h'.line_eq, h.line_eq, insertIdx_lines_succ,
      LineZipper.lines, List.length_append, List.append_assoc]
    exact ⟨rfl, rfl⟩
  · obtain ⟨nb₁, hrun₁, h'⟩ := h.vimOpenBelow_full hroom
    obtain rfl := Option.some.inj (hrun.symm.trans hrun₁)
    rw [Meets, if_neg hroom, h.texts_eq, h'.texts_eq]
    rfl

theorem meets_deleteLine (h : nb.Shows z) {nb' : NoteBuffer} (hrun : vimDeleteLine nb = some nb') :
    deleteLine.Meets nb nb' := by
  have hlt := h.line_lt
  rw [Meets]
  obtain hmany | hone := Nat.lt_or_ge 1 nb.lineCount
  · obtain ⟨nb₁, hrun₁, z', hz', h'⟩ := h.vimDeleteLine hmany
    obtain rfl := Option.some.inj (hrun.symm.trans hrun₁)
    rw [if_neg hmany.ne', h'.texts_eq, hz', h.texts_eq, h.line_eq, LineZipper.lines,
      List.eraseIdx_append_of_length_le (Nat.le_refl _), Nat.sub_self, List.eraseIdx_cons_zero]
  · obtain ⟨nb₁, hrun₁, h'⟩ := h.vimDeleteLine_only hone
    obtain rfl := Option.some.inj (hrun.symm.trans hrun₁)
    rw [if_pos (by omega), h'.texts_eq]
    rfl

theorem meets_deleteChar (h : nb.Shows z) {nb' : NoteBuffer} (hrun : vimDeleteChar nb = some nb') :
    deleteChar.Meets nb nb' := by
  obtain ⟨nb₁, hrun₁, h'⟩ := h.vimDeleteChar
  obtain rfl := Option.some.inj (hrun.symm.trans hrun₁)
  refine ⟨?_, h'.line_eq.trans h.line_eq.symm, h'.col_eq.trans h.col_eq.symm⟩
  rw [h'.texts_eq, h.texts_eq, h.line_eq, h.col_eq, LineZipper.lines, LineZipper.lines,
    List.modify_eq_take_drop, List.take_left, List.drop_left]
  rfl

theorem harmless_of_ne {cmd : VimCommand} (h : cmd ≠ openAbove) : cmd.Harmless nb :=
  fun hcmd => absurd hcmd h

theorem meets_iff (tmp : Buffer noteMaxLineLen) (h : nb.Valid) (cmd : VimCommand) :
    ∃ nb', cmd.effect tmp nb = some nb' ∧ nb'.Valid ∧ (cmd.Meets nb nb' ↔ cmd.Harmless nb) := by
  obtain ⟨z, hz⟩ := h.exists_shows
  cases cmd with
  | openAbove =>
    obtain ⟨nb', hrun, h'⟩ := h.vimOpenAbove tmp
    exact ⟨nb', hrun, h', meets_openAbove_iff hz hrun⟩
  | openBelow =>
    obtain ⟨nb', hrun, h'⟩ := h.vimOpenBelow
    exact ⟨nb', hrun, h', iff_of_true (meets_openBelow hz hrun) (harmless_of_ne (by decide))⟩
  | deleteLine =>
    obtain ⟨nb', hrun, h'⟩ := h.vimDeleteLine
    exact ⟨nb', hrun, h', iff_of_true (meets_deleteLine hz hrun) (harmless_of_ne (by decide))⟩
  | deleteChar =>
    obtain ⟨nb', hrun, h'⟩ := h.vimDeleteChar
    exact ⟨nb', hrun, h', iff_of_true (meets_deleteChar hz hrun) (harmless_of_ne (by decide))⟩

end VimCommand

open VimCommand

/-- The editing commands do what they are for unless a line is to be opened above one with text in
    it, or, on a full buffer, above one that follows a different line. -/
theorem vimCommand_meets_iff {st : VimState} (h : st.nb.Valid) (hpending : st.vimPending = 0)
    (tmp : Buffer noteMaxLineLen) (cmd : VimCommand) :
    (∃ st', vimHandleKeys tmp st cmd.keys = some st' ∧ st'.nb.Valid ∧ cmd.Meets st.nb st'.nb) ↔
      cmd.Harmless st.nb := by
  obtain ⟨nb', heffect, hvalid, hmeets⟩ := VimCommand.meets_iff tmp h cmd
  rw [← vimHandleKeys_keys tmp hpending, Option.map_eq_some_iff] at heffect
  obtain ⟨st₁, hrun, hnb⟩ := heffect
  subst hnb
  constructor
  · rintro ⟨st', hrun', -, hst'⟩
    obtain rfl := Option.some.inj (hrun.symm.trans hrun')
    exact hmeets.mp hst'
  · exact fun hharmless => ⟨st₁, hrun, hvalid, hmeets.mpr hharmless⟩

/-- A buffer with the one line `x`. -/
def oneCharNote : NoteBuffer :=
  { NoteBuffer.empty with
    lines := NoteBuffer.empty.lines.set 0 ⟨ascii 'x' :: List.replicate 99 0, rfl⟩ (by decide) }

theorem oneCharNote_shows : oneCharNote.Shows ⟨[], chars "x", [], 0⟩ :=
  shows_of_parts rfl (by decide) rfl rfl (Nat.zero_le _) (fun i t ht => absurd ht (by simp))
    ⟨_, Vector.getElem?_set_self (by decide), by decide, List.replicate 98 0, rfl⟩
    fun i t ht => absurd ht (by simp)

theorem vimCommand_meets_iff_oneCharNote :
    (∃ st', vimHandleKeys (Buffer.zeros _) ⟨oneCharNote, .normal, 0⟩ deleteLine.keys = some st' ∧
      st'.nb.Valid ∧ deleteLine.Meets oneCharNote st'.nb) ↔ deleteLine.Harmless oneCharNote :=
  vimCommand_meets_iff oneCharNote_shows.valid rfl (Buffer.zeros _) deleteLine

/-- On the one line `x`, the line opens below. -/
theorem vimOpenAbove_opens_below :
    ¬∀ (st : VimState) (tmp : Buffer noteMaxLineLen) (cmd : VimCommand), st.nb.Valid →
      st.vimPending = 0 → ∃ st', vimHandleKeys tmp st cmd.keys = some st' ∧ st'.nb.Valid ∧
        cmd.Meets st.nb st'.nb := by
  intro hall
  have hshows := oneCharNote_shows
  obtain ⟨st', hrun, -, hmeets⟩ := hall ⟨oneCharNote, .normal, 0⟩ (Buffer.zeros _) openAbove
    hshows.valid rfl
  have heffect := vimHandleKeys_keys (Buffer.zeros _)
    (rfl : (⟨oneCharNote, .normal, 0⟩ : VimState).vimPending = 0) openAbove
  rw [hrun, Option.map_some] at heffect
  have hempty := (meets_openAbove_iff hshows heffect.symm).mp hmeets rfl
  rw [if_pos (by decide)] at hempty
  exact absurd (hshows.holds_line.unique hempty) (by decide)

end AuroraOS.Notes
