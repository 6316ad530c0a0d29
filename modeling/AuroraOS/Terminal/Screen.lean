import AuroraOS.Lib.Logged
import AuroraOS.Terminal.Windowed
import Mathlib.Data.Int.Notation
import Mathlib.Order.Nat

/-!
# The cells of the screen

`console_putchar` without a redirection once more, with a log of what it touches in `cell_char` and
`cell_color`. For any output, with the screen cleared in between, the cursor stays on the screen,
the indices stay inside the arrays, and the cells are the last rows of the paper that was written
since the screen was cleared.

## Main definitions

- `Access`, `Traced.consolePutchar`
- `Output`, `Paper.layout`

## Main results

- `console_grid`
-/

namespace AuroraOS.Terminal

open AuroraOS.Lib AuroraOS.Lib.Logged

/-- An access to the arrays of the cells: to all of a row, or to one cell. -/
inductive Access where
  | row (row : ℤ)
  | cell (row col : ℤ)

/-- The access is inside `[CON_MAX_ROWS][CON_MAX_COLS]`. -/
def Access.InBounds : Access → Prop
  | .row i => 0 ≤ i ∧ i < conMaxRows
  | .cell i j => (0 ≤ i ∧ i < conMaxRows) ∧ 0 ≤ j ∧ j < conMaxCols

namespace Traced

/-- The cells that `con_redraw_all` reads. -/
def conRedrawAll (con : Console) : Logged Access Unit :=
  tellAll ((List.range con.conRows).flatMap fun (row : ℕ) =>
    (List.range con.conCols).map fun (col : ℕ) => .cell row col)

/-- `con_scroll`. -/
def conScroll (con : Console) : Logged Access Console := do
  tellAll ((List.range' 1 (con.conRows - 1)).flatMap fun (row : ℕ) =>
    [.row (row - 1), .row row])
  tell (.row (con.conRows - 1))
  conRedrawAll (Terminal.conScroll con)
  pure (Terminal.conScroll con)

/-- The cursor is below the last row: the rows scroll. -/
def scroll (con : Console) : Logged Access Console :=
  if con.conY ≥ con.conRows then do
    let con ← conScroll con
    pure { con with conY := con.conRows - 1 }
  else pure con

/-- `console_putchar` without a redirection. -/
def consolePutchar (con : Console) (c : UInt8) : Logged Access Console :=
  if c = 10 then scroll (Console.wrap { con with conX := 0, conY := con.conY + 1 })
  else if c = 13 then scroll (Console.wrap { con with conX := 0 })
  else if c = 9 then scroll (Console.wrap { con with conX := tabStop con.conX })
  else if c = 8 then
    if con.conX > 0 then do
      tell (.cell con.conY (con.conX - 1))
      pure { con with
        conX := con.conX - 1, cellChar := con.cellChar.set con.conY (con.conX - 1) 0 }
    else pure con
  else do
    let con ← scroll con.wrap
    tell (.cell con.conY con.conX)
    pure { con with
      cellChar := con.cellChar.set con.conY con.conX c
      cellColor := con.cellColor.set con.conY con.conX con.conColor
      conX := con.conX + 1 }

end Traced

/-- What the console is told. -/
inductive Output where
  | putchar (c : UInt8)
  | clear
  | setColor (color : UInt32)

/-- `console_putchar`, `console_clear` or `console_set_color`. -/
def consoleOutput (t : Term) : Output → Option Term
  | .putchar c => consolePutchar t c
  | .clear => some (consoleClear t)
  | .setColor color => some (consoleSetColor color t)

/-- The same on the screen, with the accesses. -/
def Traced.consoleOutput (con : Console) : Output → Logged Access Console
  | .putchar c => consolePutchar con c
  | .clear => pure (consoleClear ⟨con, none⟩).con
  | .setColor color => pure (consoleSetColor color ⟨con, none⟩).con

/-- A new sheet of paper for every `console_clear`; a color writes nothing. -/
def Paper.output (cols : ℕ) (p : Paper) : Output → Paper
  | .putchar c => p.putchar cols c
  | .clear => .blank
  | .setColor _ => p

/-- The paper after the whole output, whatever the height of the screen is. -/
def Paper.layout (cols : ℕ) (os : List Output) : Paper := os.foldl (Paper.output cols) .blank

/-- The cell at `row` and `col` of the last `rows` rows; what was not written is blank. -/
def Paper.lastRow (p : Paper) (rows row col : ℕ) : UInt8 :=
  (p.written (p.y - min p.y (rows - 1) + row) col).getD 0

/-- The state in which `console_init` and `console_clear` leave the console. -/
structure Console.Cleared (con : Console) : Prop where
  conX_eq : con.conX = 0
  conY_eq : con.conY = 0
  cell_eq : ∀ row col, con.cellChar row col = 0

theorem consoleInit_cleared (width height cw ch : ℕ) : (consoleInit width height cw ch).Cleared :=
  ⟨rfl, rfl, fun _ _ => rfl⟩

section value

variable {con : Console}

theorem value_scroll : (Traced.scroll con).value = some con.scroll := by
  rw [Traced.scroll, Console.scroll]
  split <;> rfl

theorem value_consolePutchar (c : UInt8) :
    (Traced.consolePutchar con c).value = some (con.putchar c) := by
  rw [Traced.consolePutchar, Console.putchar]
  split
  · exact value_scroll
  split
  · exact value_scroll
  split
  · exact value_scroll
  split
  · split <;> rfl
  · rw [value_bind, value_scroll]
    rfl

theorem value_consoleOutput (o : Output) :
    (Traced.consoleOutput con o).value = (consoleOutput ⟨con, none⟩ o).map Term.con := by
  cases o with
  | putchar c => exact value_consolePutchar c
  | clear => rfl
  | setColor color => rfl

end value

/-- A console that fits the arrays and shows the end of the paper. -/
structure OnScreen (cols rows : ℕ) (con : Console) (p : Paper) : Prop where
  cols_eq : con.conCols = cols
  rows_eq : con.conRows = rows
  x_le : p.x ≤ cols
  fresh : p.Fresh
  shows : Shows con p

section step

variable {cols rows : ℕ} {con : Console} {p : Paper}

theorem Paper.wrap_x_lt (hcols : 0 < cols) (p : Paper) : (p.wrap cols).x < cols := by
  rw [Paper.wrap]
  split
  · exact hcols
  · next h => exact Nat.lt_of_not_le h

theorem Paper.putchar_x_le (hcols : 0 < cols) (hx : p.x ≤ cols) (c : UInt8) :
    (p.putchar cols c).x ≤ cols := by
  rw [Paper.putchar]
  split
  · exact (wrap_x_lt hcols _).le
  split
  · exact (wrap_x_lt hcols _).le
  split
  · exact (wrap_x_lt hcols _).le
  split
  · split
    · exact (Nat.sub_le _ _).trans hx
    · exact hx
  · exact wrap_x_lt hcols p

/-- Scrolling touches rows of the screen only. -/
theorem scroll_inBounds (hrows : 0 < con.conRows) (hrows' : con.conRows ≤ conMaxRows)
    (hcols' : con.conCols ≤ conMaxCols) {e : Access} (he : e ∈ (Traced.scroll con).log) :
    e.InBounds := by
  rw [Traced.scroll] at he
  split at he
  · rw [mem_log_bind] at he
    obtain he | ⟨_, -, he⟩ := he
    · simp only [Traced.conScroll, Traced.conRedrawAll, mem_log_bind, log_tellAll, log_tell,
        value_tellAll, value_tell, log_pure, List.mem_flatMap, List.mem_range'_1, List.mem_cons,
        List.not_mem_nil, or_false, List.mem_map, List.mem_range, and_false, exists_const,
        true_and] at he
      obtain ⟨row, hrow, rfl | rfl⟩ | rfl | ⟨row, hrow, col, hcol, rfl⟩ := he
      · simp only [Access.InBounds]
        omega
      · simp only [Access.InBounds]
        omega
      · simp only [Access.InBounds]
        omega
      · have hr : row < con.conRows := hrow
        have hc : col < con.conCols := hcol
        simp only [Access.InBounds]
        omega
    · exact absurd he List.not_mem_nil
  · exact absurd he List.not_mem_nil

theorem consolePutchar_inBounds (hcols : 0 < cols) (hcols' : cols ≤ conMaxCols) (hrows : 0 < rows)
    (hrows' : rows ≤ conMaxRows) (h : OnScreen cols rows con p) (c : UInt8) {e : Access}
    (he : e ∈ (Traced.consolePutchar con c).log) : e.InBounds := by
  have hcon := h.cols_eq
  have hrow := h.rows_eq
  have hscroll : ∀ con' : Console, e ∈ (Traced.scroll con'.wrap).log →
      con'.conRows = con.conRows → con'.conCols = con.conCols → e.InBounds := by
    intro con' hmem hr hc
    obtain ⟨hr', hc'⟩ := wrap_size con'
    exact scroll_inBounds (by omega) (by omega) (by omega) hmem
  rw [Traced.consolePutchar] at he
  split at he
  · exact hscroll _ he rfl rfl
  split at he
  · exact hscroll _ he rfl rfl
  split at he
  · exact hscroll _ he rfl rfl
  have hx := h.shows.conX_eq
  have hy := h.shows.conY_eq
  have hxle := h.x_le
  split at he
  · split at he
    · rw [mem_log_bind] at he
      obtain he | ⟨_, -, he⟩ := he
      · rw [log_tell, List.mem_singleton] at he
        subst he
        simp only [Access.InBounds]
        omega
      · exact absurd he List.not_mem_nil
    · exact absurd he List.not_mem_nil
  · rw [mem_log_bind] at he
    obtain he | ⟨con', hcon', he⟩ := he
    · exact hscroll con he rfl rfl
    · rw [value_scroll, Option.some.injEq] at hcon'
      subst hcon'
      rw [mem_log_bind] at he
      obtain he | ⟨_, -, he⟩ := he
      · -- the cell where the cursor is after wrapping and scrolling
        have hwrap := shows_wrap (by omega) h.shows h.fresh
        have hlt := Paper.wrap_x_lt hcols p
        have hx' := hwrap.conX_eq
        have hy' := hwrap.conY_eq
        have hsize := (scroll_size con.wrap).1.trans (wrap_size con).1
        rw [hcon] at hx'
        rw [log_tell, List.mem_singleton] at he
        subst he
        simp only [Access.InBounds]
        omega
      · exact absurd he List.not_mem_nil

theorem Shows.setColor (h : Shows con p) (color : UInt32) :
    Shows (consoleSetColor color ⟨con, none⟩).con p :=
  ⟨h.conX_eq, h.conY_eq, h.cell_eq⟩

/-- Every output keeps the console on the paper and stays inside the arrays. -/
theorem output_onScreen (hcols : 0 < cols) (hrows : 0 < rows) (h : OnScreen cols rows con p)
    (o : Output) :
    ∃ con', consoleOutput ⟨con, none⟩ o = some ⟨con', none⟩ ∧
      OnScreen cols rows con' (p.output cols o) := by
  cases o with
  | putchar c =>
    obtain ⟨hr, hc⟩ := putchar_size con c
    refine ⟨con.putchar c, rfl, hc.trans h.cols_eq, hr.trans h.rows_eq,
      Paper.putchar_x_le hcols h.x_le c, h.fresh.putchar c, ?_⟩
    have hshows := putchar_shows (h.rows_eq ▸ hrows) (h.cols_eq ▸ hcols) h.shows h.fresh c
    rwa [h.cols_eq] at hshows
  | clear =>
    exact ⟨_, rfl, h.cols_eq, h.rows_eq, Nat.zero_le _, blank_fresh, clear_shows con⟩
  | setColor color => exact ⟨_, rfl, h.cols_eq, h.rows_eq, h.x_le, h.fresh, h.shows.setColor color⟩

theorem consoleOutput_inBounds (hcols : 0 < cols) (hcols' : cols ≤ conMaxCols) (hrows : 0 < rows)
    (hrows' : rows ≤ conMaxRows) (h : OnScreen cols rows con p) (o : Output) {e : Access}
    (he : e ∈ (Traced.consoleOutput con o).log) : e.InBounds := by
  cases o with
  | putchar c => exact consolePutchar_inBounds hcols hcols' hrows hrows' h c he
  | clear => exact absurd he List.not_mem_nil
  | setColor color => exact absurd he List.not_mem_nil

/-- A run of outputs. -/
theorem run_onScreen (hcols : 0 < cols) (hcols' : cols ≤ conMaxCols) (hrows : 0 < rows)
    (hrows' : rows ≤ conMaxRows) (h : OnScreen cols rows con p) (os : List Output) :
    ∃ con', os.foldlM consoleOutput ⟨con, none⟩ = some ⟨con', none⟩ ∧
      (os.foldlM Traced.consoleOutput con).value = some con' ∧
      (∀ e ∈ (os.foldlM Traced.consoleOutput con).log, e.InBounds) ∧
      OnScreen cols rows con' (os.foldl (Paper.output cols) p) := by
  induction os generalizing con p with
  | nil => exact ⟨con, rfl, rfl, fun e he => absurd he List.not_mem_nil, h⟩
  | cons o os ih =>
    obtain ⟨con₁, hstep, h₁⟩ := output_onScreen hcols hrows h o
    obtain ⟨con', hrun, hvalue, hlog, h'⟩ := ih h₁
    have hvalue₁ : (Traced.consoleOutput con o).value = some con₁ := by
      rw [value_consoleOutput, hstep]
      rfl
    refine ⟨con', ?_, ?_, ?_, h'⟩
    · rw [List.foldlM_cons, hstep, Option.bind_eq_bind, Option.bind_some, hrun]
    · rw [List.foldlM_cons, value_bind, hvalue₁, Option.bind_some, hvalue]
    · intro e he
      rw [List.foldlM_cons, mem_log_bind] at he
      obtain he | ⟨con₂, hcon₂, he⟩ := he
      · exact consoleOutput_inBounds hcols hcols' hrows hrows' h o he
      · rw [hvalue₁, Option.some.injEq] at hcon₂
        subst hcon₂
        exact hlog e he

end step

/-- Whatever is written from a cleared console on, the cursor stays on the screen, no access leaves
    the arrays, and the cells are the last rows of the paper. -/
theorem console_grid {con : Console} (hcleared : con.Cleared) (hcols : 1 ≤ con.conCols)
    (hcols' : con.conCols ≤ 220) (hrows : 1 ≤ con.conRows) (hrows' : con.conRows ≤ 90)
    (os : List Output) :
    ∃ con', os.foldlM consoleOutput ⟨con, none⟩ = some ⟨con', none⟩ ∧
      (os.foldlM Traced.consoleOutput con).value = some con' ∧
      (∀ e ∈ (os.foldlM Traced.consoleOutput con).log, e.InBounds) ∧
      con'.conCols = con.conCols ∧ con'.conRows = con.conRows ∧
      con'.conY < con.conRows ∧ con'.conX ≤ con.conCols ∧
      ∀ row < con.conRows, ∀ col < con.conCols,
        con'.cellChar row col = (Paper.layout con.conCols os).lastRow con.conRows row col := by
  obtain ⟨hx, hy, hcell⟩ := hcleared
  have hstart : OnScreen con.conCols con.conRows con .blank := by
    refine ⟨rfl, rfl, Nat.zero_le _, blank_fresh, hx, ?_, fun row _ col => hcell row col⟩
    rw [hy]
    exact (Nat.zero_min _).symm
  obtain ⟨con', hrun, hvalue, hlog, h⟩ := run_onScreen hcols hcols' hrows hrows' hstart os
  have hrow := h.rows_eq
  have hyeq := h.shows.conY_eq
  refine ⟨con', hrun, hvalue, hlog, h.cols_eq, h.rows_eq, by omega, ?_, ?_⟩
  · rw [h.shows.conX_eq]
    exact h.x_le
  · intro row hlt col _
    rw [h.shows.cell_eq row (by omega), hyeq, hrow]
    rfl

/-- Four rows on a screen of two: a line that wraps, a tab and an erased character in a color. -/
def fourRows : List Output :=
  [.putchar 65, .putchar 66, .putchar 67, .putchar 10, .putchar 9, .putchar 10, .setColor 1,
    .putchar 68, .putchar 8, .putchar 69]

theorem console_grid_scrolls :
    ∃ con', fourRows.foldlM consoleOutput ⟨consoleInit 56 60 16 16, none⟩ = some ⟨con', none⟩ ∧
      (fourRows.foldlM Traced.consoleOutput (consoleInit 56 60 16 16)).value = some con' ∧
      (∀ e ∈ (fourRows.foldlM Traced.consoleOutput (consoleInit 56 60 16 16)).log, e.InBounds) ∧
      con'.conCols = 2 ∧ con'.conRows = 2 ∧ con'.conY < 2 ∧ con'.conX ≤ 2 ∧
      ∀ row < 2, ∀ col < 2, con'.cellChar row col = (Paper.layout 2 fourRows).lastRow 2 row col :=
  console_grid (consoleInit_cleared 56 60 16 16) (by decide) (by decide) (by decide) (by decide) _

end AuroraOS.Terminal
