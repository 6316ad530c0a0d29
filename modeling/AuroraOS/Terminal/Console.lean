import Mathlib.Data.Nat.Notation
import Mathlib.Algebra.Group.Nat.Defs
import Mathlib.Logic.Function.Basic

/-!
# The text console

Model of `console.c`: the console on the screen, which scrolls by copying rows, and the grid of a
terminal window, which counts its rows up and stores them in a ring. Drawing is left out.

## Main definitions

- `Console`, `VConsole`, `Term`
- `consolePutchar`, `consoleClear`, `consoleRedirectTo`
- `VConsole.lastRow` — the last rows of the ring as a screen
-/

namespace AuroraOS.Terminal

/-- `CON_MAX_ROWS`. -/
abbrev conMaxRows : ℕ := 90

/-- `CON_MAX_COLS`. -/
abbrev conMaxCols : ℕ := 220

/-- `VCON_ROWS`. -/
abbrev vconRows : ℕ := 200

/-- `VCON_COLS`. -/
abbrev vconCols : ℕ := 160

/-- A grid of cells, by row and column. -/
abbrev Grid (α : Type) := ℕ → ℕ → α

/-- `grid[row][col] = v`. -/
def Grid.set {α : Type} (grid : Grid α) (row col : ℕ) (v : α) : Grid α :=
  Function.update grid row (Function.update (grid row) col v)

theorem Grid.set_apply {α : Type} (grid : Grid α) (row col : ℕ) (v : α) (i j : ℕ) :
    grid.set row col v i j = if i = row ∧ j = col then v else grid i j := by
  by_cases hi : i = row
  · subst hi
    by_cases hj : j = col
    · subst hj
      simp [Grid.set]
    · simp [Grid.set, hj]
  · simp [Grid.set, hi]

/-- The console on the screen. -/
structure Console where
  conCols : ℕ
  conRows : ℕ
  conX : ℕ
  conY : ℕ
  conColor : UInt32
  cellChar : Grid UInt8
  cellColor : Grid UInt32

/-- `struct vconsole`. -/
structure VConsole where
  cellChar : Grid UInt8
  cellColor : Grid UInt32
  cols : ℕ
  curX : ℕ
  curY : ℕ
  color : UInt32

/-- The console, and the grid that gets the output instead if there is one. -/
structure Term where
  con : Console
  redirectVc : Option VConsole

/-- `COL_FG`. -/
def colFg : UInt32 := 0xE4E6EB

/-- `console_init` for the sizes of screen and font. -/
def consoleInit (width height cw ch : ℕ) : Console where
  conCols := min ((width - 24) / cw) conMaxCols
  conRows := min ((height - 24) / (ch + 2)) conMaxRows
  conX := 0
  conY := 0
  conColor := colFg
  cellChar := fun _ _ => 0
  cellColor := fun _ _ => 0

/-- `vconsole_init`. -/
def vconsoleInit (cols : ℕ) : VConsole where
  cellChar := fun _ _ => 0
  cellColor := fun _ _ => 0
  cols := if cols > vconCols then vconCols else cols
  curX := 0
  curY := 0
  color := colFg

/-- `console_redirect_to`. -/
def consoleRedirectTo (vc : Option VConsole) (t : Term) : Term := { t with redirectVc := vc }

/-- `console_set_color`. -/
def consoleSetColor (color : UInt32) (t : Term) : Term :=
  match t.redirectVc with
  | some vc => { t with redirectVc := some { vc with color := color } }
  | none => { t with con := { t.con with conColor := color } }

/-- `console_clear`. -/
def consoleClear (t : Term) : Term :=
  match t.redirectVc with
  | some vc => { t with redirectVc := some { vc with
      cellChar := fun _ _ => 0, curX := 0, curY := 0 } }
  | none => { t with con := { t.con with cellChar := fun _ _ => 0, conX := 0, conY := 0 } }

/-- The next tab stop. -/
def tabStop (x : ℕ) : ℕ := (x + 4) / 4 * 4

/-- The loop of `con_scroll`: every row but the first is copied to the one above. -/
def copyRows {α : Type} (rows : ℕ) (grid : Grid α) : Grid α :=
  (List.range' 1 (rows - 1)).foldl (fun g row => Function.update g (row - 1) (g row)) grid

/-- `con_scroll`. -/
def conScroll (con : Console) : Console := { con with
  cellChar := Function.update (copyRows con.conRows con.cellChar) (con.conRows - 1) fun _ => 0
  cellColor := copyRows con.conRows con.cellColor }

/-- The cursor is behind the last column: it goes to the next row. -/
def Console.wrap (con : Console) : Console :=
  if con.conX ≥ con.conCols then { con with conX := 0, conY := con.conY + 1 } else con

/-- The cursor is below the last row: the rows scroll. -/
def Console.scroll (con : Console) : Console :=
  if con.conY ≥ con.conRows then { conScroll con with conY := con.conRows - 1 } else con

/-- `console_putchar` without a redirection. -/
def Console.putchar (con : Console) (c : UInt8) : Console :=
  if c = 10 then Console.scroll (Console.wrap { con with conX := 0, conY := con.conY + 1 })
  else if c = 13 then Console.scroll (Console.wrap { con with conX := 0 })
  else if c = 9 then Console.scroll (Console.wrap { con with conX := tabStop con.conX })
  else if c = 8 then
    if con.conX > 0 then
      { con with conX := con.conX - 1, cellChar := con.cellChar.set con.conY (con.conX - 1) 0 }
    else con
  else
    let con := con.wrap.scroll
    { con with
      cellChar := con.cellChar.set con.conY con.conX c
      cellColor := con.cellColor.set con.conY con.conX con.conColor
      conX := con.conX + 1 }

/-- `cur_y++` with the cursor back in the first column; an `int` that overflows is undefined. -/
def VConsole.nextRow (vc : VConsole) : Option VConsole :=
  if vc.curY + 1 < 2 ^ 31 then some { vc with curX := 0, curY := vc.curY + 1 } else none

/-- The cursor is behind the last column: it goes to the next row. -/
def VConsole.wrap (vc : VConsole) : Option VConsole :=
  if vc.curX ≥ vc.cols then vc.nextRow else some vc

/-- `vconsole_putchar`. -/
def vconsolePutchar (vc : VConsole) (c : UInt8) : Option VConsole :=
  if c = 10 then vc.nextRow.bind VConsole.wrap
  else if c = 13 then VConsole.wrap { vc with curX := 0 }
  else if c = 9 then VConsole.wrap { vc with curX := tabStop vc.curX }
  else if c = 8 then
    if vc.curX > 0 then
      some { vc with
        curX := vc.curX - 1
        cellChar := vc.cellChar.set (vc.curY % vconRows) (vc.curX - 1) 0 }
    else some vc
  else
    vc.wrap.map fun vc =>
      { vc with
        cellChar := vc.cellChar.set (vc.curY % vconRows) vc.curX c
        cellColor := vc.cellColor.set (vc.curY % vconRows) vc.curX vc.color
        curX := vc.curX + 1 }

/-- `console_putchar`. -/
def consolePutchar (t : Term) (c : UInt8) : Option Term :=
  match t.redirectVc with
  | some vc => (vconsolePutchar vc c).map fun vc => { t with redirectVc := some vc }
  | none => some { t with con := t.con.putchar c }

/-- `console_write`. -/
def consoleWrite (t : Term) (cs : List UInt8) : Option Term := cs.foldlM consolePutchar t

/-- The character at `row` and `col` of a screen of `rows` rows that shows the last rows of the
    ring; rows that were not reached yet are blank. -/
def VConsole.lastRow (vc : VConsole) (rows row col : ℕ) : UInt8 :=
  if vc.curY + 1 ≥ rows then vc.cellChar ((vc.curY + 1 - rows + row) % vconRows) col
  else if row ≤ vc.curY then vc.cellChar row col
  else 0

theorem copyRows_apply {α : Type} (rows : ℕ) (grid : Grid α) (row : ℕ) :
    copyRows rows grid row = if row + 1 < rows then grid (row + 1) else grid row := by
  have hloop : ∀ n, (List.range' 1 n).foldl (fun g row => Function.update g (row - 1) (g row)) grid
      = fun row => if row < n then grid (row + 1) else grid row := by
    intro n
    induction n with
    | zero => simp
    | succ n ih =>
      rw [List.range'_1_concat, List.foldl_append, ih]
      funext row
      simp only [List.foldl_cons, List.foldl_nil, Function.update_apply]
      grind
  rw [copyRows, hloop]
  simp only [show row < rows - 1 ↔ row + 1 < rows by omega]

end AuroraOS.Terminal
