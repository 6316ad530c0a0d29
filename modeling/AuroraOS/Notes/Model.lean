import AuroraOS.Lib.CString

/-!
# The note buffer

The editing core of `kernel/noteedit.c`. A line is a buffer of its own: an access outside it, or
outside the array of lines, fails.

## Main definitions

- `NoteBuffer` — `struct note_buffer`
- `noteHandleKey`
-/

namespace AuroraOS.Notes

open Lib

/-- `NOTE_MAX_LINES`. -/
def noteMaxLines : ℕ := 200

/-- `NOTE_MAX_LINE_LEN`. -/
def noteMaxLineLen : ℕ := 100

/-- `struct note_buffer`. -/
structure NoteBuffer where
  lines : Vector (Buffer noteMaxLineLen) noteMaxLines
  lineCount : ℕ
  curLine : ℕ
  curCol : ℕ
  dirty : Bool

/-- `KEY_ARROW_UP`. -/
def keyArrowUp : UInt8 := 0xff

/-- `KEY_ARROW_DOWN`. -/
def keyArrowDown : UInt8 := 0xfe

/-- `KEY_ARROW_LEFT`. -/
def keyArrowLeft : UInt8 := 0xfd

/-- `KEY_ARROW_RIGHT`. -/
def keyArrowRight : UInt8 := 0xfc

/-- The buffer that `note_load` starts with. -/
def NoteBuffer.empty : NoteBuffer :=
  ⟨Vector.replicate noteMaxLines (Buffer.zeros noteMaxLineLen), 1, 0, 0, false⟩

namespace NoteBuffer

def setLine (nb : NoteBuffer) (i : ℕ) (line : Buffer noteMaxLineLen) : Option NoteBuffer :=
  if h : i < noteMaxLines then some { nb with lines := nb.lines.set i line h } else none

/-- `nb->lines[line][col] = c`. -/
def setChar (nb : NoteBuffer) (line col : ℕ) (c : UInt8) : Option NoteBuffer := do
  let row ← nb.lines[line]?
  let row ← row.set col c
  nb.setLine line row

/-- `strlen(nb->lines[i])`. -/
def lineLen (nb : NoteBuffer) (i : ℕ) : Option ℕ := do
  let line ← nb.lines[i]?
  line.strlen

/-- `strcpy(nb->lines[i], nb->lines[j] + k)`. -/
def copyLine (nb : NoteBuffer) (i j k : ℕ) : Option NoteBuffer := do
  let dst ← nb.lines[i]?
  let src ← nb.lines[j]?
  let line ← dst.strcpy src k
  nb.setLine i line

/-- `n` turns of `strcpy(nb->lines[i], nb->lines[i - 1])`, with `i` going down. -/
def moveDown : ℕ → ℕ → NoteBuffer → Option NoteBuffer
  | 0, _, nb => some nb
  | n + 1, i, nb => do
    let nb ← nb.copyLine i (i - 1) 0
    moveDown n (i - 1) nb

/-- `n` turns of `strcpy(nb->lines[i], nb->lines[i + 1])`, with `i` going up. -/
def moveUp : ℕ → ℕ → NoteBuffer → Option NoteBuffer
  | 0, _, nb => some nb
  | n + 1, i, nb => do
    let nb ← nb.copyLine i (i + 1) 0
    moveUp n (i + 1) nb

end NoteBuffer

/-- `note_handle_key` for Enter. -/
def noteNewline (nb : NoteBuffer) : Option (Bool × NoteBuffer) :=
  if nb.lineCount ≥ noteMaxLines then some (false, nb)
  else do
    let nb ← nb.moveDown (nb.lineCount - (nb.curLine + 1)) nb.lineCount
    let nb ← nb.copyLine (nb.curLine + 1) nb.curLine nb.curCol
    let cur ← nb.lines[nb.curLine]?
    let cur ← cur.set nb.curCol 0
    let nb ← nb.setLine nb.curLine cur
    some (true, { nb with
      lineCount := nb.lineCount + 1, curLine := nb.curLine + 1, curCol := 0, dirty := true })

/-- `note_handle_key` for Backspace. -/
def noteBackspace (nb : NoteBuffer) : Option (Bool × NoteBuffer) :=
  if nb.curCol > 0 then do
    let line ← nb.lines[nb.curLine]?
    let len ← line.strlen
    let line ← line.closeGap (len - (nb.curCol - 1)) (nb.curCol - 1)
    let nb ← nb.setLine nb.curLine line
    some (true, { nb with curCol := nb.curCol - 1, dirty := true })
  else if nb.curLine > 0 then do
    let prevLen ← nb.lineLen (nb.curLine - 1)
    let thisLen ← nb.lineLen nb.curLine
    if prevLen + thisLen < noteMaxLineLen then do
      let prev ← nb.lines[nb.curLine - 1]?
      let cur ← nb.lines[nb.curLine]?
      let line ← prev.strcat cur
      let nb ← nb.setLine (nb.curLine - 1) line
      let nb ← nb.moveUp (nb.lineCount - 1 - nb.curLine) nb.curLine
      some (true, { nb with
        lineCount := nb.lineCount - 1, curLine := nb.curLine - 1, curCol := prevLen,
        dirty := true })
    else some (false, nb)
  else some (false, nb)

/-- `note_handle_key` for the left arrow. -/
def noteLeft (nb : NoteBuffer) : Option (Bool × NoteBuffer) :=
  if nb.curCol > 0 then some (true, { nb with curCol := nb.curCol - 1 })
  else if nb.curLine > 0 then do
    let len ← nb.lineLen (nb.curLine - 1)
    some (true, { nb with curLine := nb.curLine - 1, curCol := len })
  else some (true, nb)

/-- `note_handle_key` for the right arrow. -/
def noteRight (nb : NoteBuffer) : Option (Bool × NoteBuffer) := do
  let len ← nb.lineLen nb.curLine
  if nb.curCol < len then some (true, { nb with curCol := nb.curCol + 1 })
  else if nb.curLine < nb.lineCount - 1 then
    some (true, { nb with curLine := nb.curLine + 1, curCol := 0 })
  else some (true, nb)

/-- The cursor moves to line `i`, its column back to the line's end if it is behind it. -/
def noteGoto (nb : NoteBuffer) (i : ℕ) : Option (Bool × NoteBuffer) := do
  let len ← nb.lineLen i
  some (true, { nb with curLine := i, curCol := if nb.curCol > len then len else nb.curCol })

/-- `note_handle_key` for the up arrow. -/
def noteUp (nb : NoteBuffer) : Option (Bool × NoteBuffer) :=
  if nb.curLine > 0 then noteGoto nb (nb.curLine - 1) else some (true, nb)

/-- `note_handle_key` for the down arrow. -/
def noteDown (nb : NoteBuffer) : Option (Bool × NoteBuffer) :=
  if nb.curLine < nb.lineCount - 1 then noteGoto nb (nb.curLine + 1) else some (true, nb)

/-- `note_handle_key` for a printable character. -/
def noteInsert (nb : NoteBuffer) (c : UInt8) : Option (Bool × NoteBuffer) := do
  let line ← nb.lines[nb.curLine]?
  let len ← line.strlen
  if len < noteMaxLineLen - 1 then do
    let line ← line.openGap (len + 1 - nb.curCol) len
    let line ← line.set nb.curCol c
    let nb ← nb.setLine nb.curLine line
    some (true, { nb with curCol := nb.curCol + 1, dirty := true })
  else some (false, nb)

/-- `note_handle_key`, `none` where an access leaves the lines. -/
def noteHandleKey (nb : NoteBuffer) (c : UInt8) : Option (Bool × NoteBuffer) :=
  if c = 0x0a then noteNewline nb
  else if c = 0x08 then noteBackspace nb
  else if c = keyArrowLeft then noteLeft nb
  else if c = keyArrowRight then noteRight nb
  else if c = keyArrowUp then noteUp nb
  else if c = keyArrowDown then noteDown nb
  else if 32 ≤ c ∧ c < 127 then noteInsert nb c
  else some (false, nb)

end AuroraOS.Notes
