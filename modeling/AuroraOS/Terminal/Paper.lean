import AuroraOS.Terminal.Console

/-!
# The console on paper

Output written on paper that never ends: every row of the text keeps its place. Both consoles show
the end of the paper, except that the ring of the windowed one still holds what was written
`VCON_ROWS` rows before.

## Main definitions

- `Paper`, `Paper.putchar`
- `Paper.below` — what the ring holds in the place of a cell

## Main results

- `putchar_shows` — the console on the screen
- `vconsolePutchar_follows` — the ring
-/

namespace AuroraOS.Terminal

/-- What was written to each cell last, if anything, and the cursor. -/
structure Paper where
  written : Grid (Option UInt8)
  x : ℕ
  y : ℕ

/-- Nothing is written. -/
def Paper.blank : Paper := ⟨fun _ _ => none, 0, 0⟩

/-- The cursor goes to the next row. -/
def Paper.nextRow (p : Paper) : Paper := { p with x := 0, y := p.y + 1 }

/-- The cursor is behind the last column: it goes to the next row. -/
def Paper.wrap (cols : ℕ) (p : Paper) : Paper := if p.x ≥ cols then p.nextRow else p

/-- Write at the cursor's row. -/
def Paper.write (p : Paper) (col : ℕ) (c : UInt8) : Paper :=
  { p with written := p.written.set p.y col (some c) }

/-- One character of output in rows of `cols` columns. -/
def Paper.putchar (cols : ℕ) (p : Paper) (c : UInt8) : Paper :=
  if c = 10 then p.nextRow.wrap cols
  else if c = 13 then Paper.wrap cols { p with x := 0 }
  else if c = 9 then Paper.wrap cols { p with x := tabStop p.x }
  else if c = 8 then if p.x > 0 then { p.write (p.x - 1) 0 with x := p.x - 1 } else p
  else { (p.wrap cols).write (p.wrap cols).x c with x := (p.wrap cols).x + 1 }

/-- The paper after some output. -/
def Paper.print (cols : ℕ) (cs : List UInt8) : Paper := cs.foldl (Paper.putchar cols) .blank

/-- What was written last to a cell or, if nothing was, to the cells in its column `VCON_ROWS` rows
    above, and so on. -/
def Paper.below (p : Paper) (row col : ℕ) : UInt8 :=
  match p.written row col with
  | some c => c
  | none => if row < vconRows then 0 else p.below (row - vconRows) col
termination_by row
decreasing_by simp only [vconRows] at *; omega

/-- Nothing is written below the cursor. -/
def Paper.Fresh (p : Paper) : Prop := ∀ row col, p.y < row → p.written row col = none

section paper

variable {p : Paper} {cols : ℕ}

@[simp] theorem write_x (col : ℕ) (c : UInt8) : (p.write col c).x = p.x := rfl

@[simp] theorem write_y (col : ℕ) (c : UInt8) : (p.write col c).y = p.y := rfl

theorem write_written (col : ℕ) (c : UInt8) (i j : ℕ) :
    (p.write col c).written i j = if i = p.y ∧ j = col then some c else p.written i j :=
  Grid.set_apply _ _ _ _ i j

theorem Paper.Fresh.nextRow (h : p.Fresh) : p.nextRow.Fresh :=
  fun row col hrow => h row col (by simp only [Paper.nextRow] at hrow; omega)

theorem Paper.Fresh.wrap (h : p.Fresh) : (p.wrap cols).Fresh := by
  rw [Paper.wrap]
  split
  · exact h.nextRow
  · exact h

theorem Paper.Fresh.write (h : p.Fresh) (col : ℕ) (c : UInt8) : (p.write col c).Fresh := by
  intro row j hrow
  rw [write_y] at hrow
  rw [write_written, if_neg (by omega)]
  exact h row j hrow

theorem Paper.Fresh.putchar (h : p.Fresh) (c : UInt8) : (p.putchar cols c).Fresh := by
  rw [Paper.putchar]
  split
  · exact h.nextRow.wrap
  split
  · exact Paper.Fresh.wrap h
  split
  · exact Paper.Fresh.wrap h
  split
  · split
    · exact h.write _ _
    · exact h
  · exact h.wrap.write _ _

theorem below_of_written {row col : ℕ} {c : UInt8} (h : p.written row col = some c) :
    p.below row col = c := by
  rw [Paper.below, h]

theorem below_of_none {row col : ℕ} (h : p.written row col = none) :
    p.below row col = if row < vconRows then 0 else p.below (row - vconRows) col := by
  rw [Paper.below, h]

/-- Writing in a row does not change what the rows above it show. -/
theorem below_write_of_lt {col : ℕ} {c : UInt8} {row : ℕ} (hrow : row < p.y) (j : ℕ) :
    (p.write col c).below row j = p.below row j := by
  induction row using Nat.strongRecOn with
  | _ row ih =>
    have hsame : (p.write col c).written row j = p.written row j := by
      rw [write_written, if_neg (by omega)]
    cases hw : p.written row j with
    | some c' => rw [below_of_written hw, below_of_written (hsame.trans hw)]
    | none =>
      rw [below_of_none hw, below_of_none (hsame.trans hw)]
      split
      · rfl
      · simp only [vconRows] at *
        exact ih (row - 200) (by omega) (by omega)

/-- Writing in the cursor's row. -/
theorem below_write_self (col : ℕ) (c : UInt8) (j : ℕ) :
    (p.write col c).below p.y j = if j = col then c else p.below p.y j := by
  by_cases hj : j = col
  · subst hj
    rw [if_pos rfl]
    exact below_of_written (by rw [write_written, if_pos ⟨rfl, rfl⟩])
  · rw [if_neg hj]
    have hsame : (p.write col c).written p.y j = p.written p.y j := by
      rw [write_written, if_neg (by omega)]
    cases hw : p.written p.y j with
    | some c' => rw [below_of_written hw, below_of_written (hsame.trans hw)]
    | none =>
      rw [below_of_none hw, below_of_none (hsame.trans hw)]
      split
      · rfl
      · exact below_write_of_lt (by simp only [vconRows] at *; omega) j

end paper

/-- The console shows the last rows of the paper. -/
structure Shows (con : Console) (p : Paper) : Prop where
  conX_eq : con.conX = p.x
  conY_eq : con.conY = min p.y (con.conRows - 1)
  cell_eq : ∀ row, row < con.conRows → ∀ col,
    con.cellChar row col = (p.written (p.y - con.conY + row) col).getD 0

section console

variable {con : Console} {p : Paper}

/-- The cursor goes to the next row, and the rows scroll if it was in the last one. -/
theorem shows_nextRow (hrows : 0 < con.conRows) (h : Shows con p) (hfresh : p.Fresh) :
    Shows (Console.scroll { con with conX := 0, conY := con.conY + 1 }) p.nextRow := by
  have hy := h.conY_eq
  rw [Console.scroll]
  split
  · next hbelow =>
    simp only at hbelow
    refine ⟨rfl, ?_, ?_⟩
    · simp only [Paper.nextRow, conScroll]
      omega
    · intro row hrow col
      simp only [conScroll] at hrow ⊢
      by_cases hlast : row = con.conRows - 1
      · subst hlast
        rw [Function.update_self]
        simp only [Paper.nextRow]
        rw [hfresh _ _ (by omega)]
        rfl
      · rw [Function.update_of_ne hlast, copyRows_apply, if_pos (by omega),
          h.cell_eq (row + 1) (by omega)]
        simp only [Paper.nextRow, show p.y - con.conY + (row + 1) =
          p.y + 1 - (con.conRows - 1) + row by omega]
  · next hbelow =>
    simp only at hbelow
    refine ⟨rfl, ?_, ?_⟩
    · simp only [Paper.nextRow]
      omega
    · intro row hrow col
      simp only [Paper.nextRow, show p.y + 1 - (con.conY + 1) = p.y - con.conY by omega]
      exact h.cell_eq row hrow col

theorem shows_scroll (hrows : 0 < con.conRows) (h : Shows con p) : con.scroll = con := by
  have hy := h.conY_eq
  rw [Console.scroll, if_neg (by omega)]

theorem shows_wrap (hrows : 0 < con.conRows) (h : Shows con p) (hfresh : p.Fresh) :
    Shows con.wrap.scroll (p.wrap con.conCols) := by
  rw [Console.wrap, Paper.wrap, h.conX_eq]
  split
  · exact shows_nextRow hrows h hfresh
  · rw [shows_scroll hrows h]
    exact h

theorem shows_write (h : Shows con p) (col : ℕ) (c : UInt8)
    (x : ℕ) (colors : Grid UInt32) :
    Shows { con with
      cellChar := con.cellChar.set con.conY col c, cellColor := colors, conX := x }
      { p.write col c with x := x } := by
  have hy := h.conY_eq
  refine ⟨rfl, hy, ?_⟩
  intro row hrow j
  simp only [Grid.set_apply, write_written]
  by_cases hcell : row = con.conY ∧ j = col
  · rw [if_pos hcell, if_pos (by simp only [write_y]; omega)]
    rfl
  · rw [if_neg hcell, if_neg (by simp only [write_y]; omega)]
    exact h.cell_eq row hrow j

theorem Shows.setX (h : Shows con p) (x : ℕ) : Shows { con with conX := x } { p with x := x } :=
  ⟨rfl, h.conY_eq, h.cell_eq⟩

theorem scroll_size (con : Console) :
    con.scroll.conRows = con.conRows ∧ con.scroll.conCols = con.conCols := by
  rw [Console.scroll]
  split <;> exact ⟨rfl, rfl⟩

theorem wrap_size (con : Console) :
    con.wrap.conRows = con.conRows ∧ con.wrap.conCols = con.conCols := by
  rw [Console.wrap]
  split <;> exact ⟨rfl, rfl⟩

theorem putchar_size (con : Console) (c : UInt8) :
    (con.putchar c).conRows = con.conRows ∧ (con.putchar c).conCols = con.conCols := by
  have hsize : ∀ con' : Console, con'.wrap.scroll.conRows = con'.conRows ∧
      con'.wrap.scroll.conCols = con'.conCols := fun con' =>
    ⟨(scroll_size _).1.trans (wrap_size _).1, (scroll_size _).2.trans (wrap_size _).2⟩
  rw [Console.putchar]
  split
  · exact hsize _
  split
  · exact hsize _
  split
  · exact hsize _
  split
  · split <;> exact ⟨rfl, rfl⟩
  · exact hsize con

/-- The console on the screen shows the end of the paper. -/
theorem putchar_shows (hrows : 0 < con.conRows) (hcols : 0 < con.conCols) (h : Shows con p)
    (hfresh : p.Fresh) (c : UInt8) : Shows (con.putchar c) (p.putchar con.conCols c) := by
  rw [Console.putchar, Paper.putchar]
  split
  · -- the first column is not behind the last one
    rw [Console.wrap, Paper.wrap, if_neg (by simp only; omega),
      if_neg (by simp [Paper.nextRow]; omega)]
    exact shows_nextRow hrows h hfresh
  split
  · exact @shows_wrap { con with conX := 0 } _ hrows (h.setX 0) hfresh
  split
  · rw [h.conX_eq]
    exact shows_wrap hrows (h.setX _) hfresh
  split
  · rw [h.conX_eq]
    split
    · exact shows_write h _ _ _ _
    · exact h
  · have hwrap := shows_wrap hrows h hfresh
    simp only [hwrap.conX_eq]
    exact shows_write hwrap _ _ _ _

end console

/-- The ring holds the paper, and in rows that were not written what was there before. -/
structure Holds (vc : VConsole) (p : Paper) : Prop where
  curX_eq : vc.curX = p.x
  curY_eq : vc.curY = p.y
  cell_eq : ∀ row, p.y < row + vconRows → row ≤ p.y ∨ row < vconRows → ∀ col,
    vc.cellChar (row % vconRows) col = p.below row col

section ring

variable {vc : VConsole} {p : Paper}

/-- What the ring holds in the place of a cell does not depend on the cursor. -/
theorem below_congr {p' : Paper} (h : p'.written = p.written) (row col : ℕ) :
    p'.below row col = p.below row col := by
  induction row using Nat.strongRecOn with
  | _ row ih =>
    have hsame : p'.written row col = p.written row col := by rw [h]
    cases hw : p.written row col with
    | some c => rw [below_of_written hw, below_of_written (hsame.trans hw)]
    | none =>
      rw [below_of_none hw, below_of_none (hsame.trans hw)]
      split
      · rfl
      · exact ih _ (by simp only [vconRows] at *; omega)

theorem Holds.setX (h : Holds vc p) (x : ℕ) : Holds { vc with curX := x } { p with x := x } :=
  ⟨rfl, h.curY_eq, fun row hlow hhigh col => by
    rw [@below_congr p { p with x := x } rfl]
    exact h.cell_eq row hlow hhigh col⟩

/-- The row that the cursor enters has the place of the one `VCON_ROWS` above, which stays. -/
theorem holds_nextRow (h : Holds vc p) (hfresh : p.Fresh) :
    Holds { vc with curX := 0, curY := vc.curY + 1 } p.nextRow := by
  refine ⟨rfl, by simp only [Paper.nextRow, h.curY_eq], ?_⟩
  intro row hlow hhigh col
  rw [@below_congr p p.nextRow rfl]
  simp only [Paper.nextRow, vconRows] at hlow hhigh
  by_cases hnew : row = p.y + 1 ∧ 200 ≤ row
  · rw [below_of_none (hfresh row col (by omega)), if_neg (by simp only [vconRows]; omega),
      ← h.cell_eq (row - vconRows) (by simp only [vconRows]; omega)
        (by simp only [vconRows]; omega) col]
    simp only [vconRows, show (row - 200) % 200 = row % 200 by omega]
  · exact h.cell_eq row (by simp only [vconRows]; omega) (by simp only [vconRows]; omega) col

theorem holds_write (h : Holds vc p) (col : ℕ) (c : UInt8) (x : ℕ) (colors : Grid UInt32)
    (hfresh : p.Fresh) :
    Holds { vc with
      cellChar := vc.cellChar.set (vc.curY % vconRows) col c, cellColor := colors, curX := x }
      { p.write col c with x := x } := by
  refine ⟨rfl, h.curY_eq, ?_⟩
  intro row hlow hhigh j
  rw [@below_congr (p.write col c) { p.write col c with x := x } rfl]
  simp only [write_y] at hlow hhigh
  simp only [Grid.set_apply, h.curY_eq]
  have hcell := h.cell_eq row hlow hhigh j
  simp only [vconRows] at hlow hhigh hcell ⊢
  obtain hrow | hrow | hrow := Nat.lt_trichotomy row p.y
  · rw [if_neg (by omega), hcell, below_write_of_lt hrow]
  · subst hrow
    rw [below_write_self]
    by_cases hj : j = col
    · rw [if_pos ⟨rfl, hj⟩, if_pos hj]
    · rw [if_neg (fun h => hj h.2), if_neg hj, hcell]
  · -- a row that was not reached yet
    have hnone := hfresh row j hrow
    have hnone' : (p.write col c).written row j = none := (hfresh.write col c) row j hrow
    rw [if_neg (by omega), hcell, below_of_none hnone, below_of_none hnone']
    simp only [vconRows, if_pos (show row < 200 by omega)]

/-- A step of the ring succeeds exactly when the row of the cursor is still an `int`, and then the
    ring holds the paper. -/
def Follows (vc' : Option VConsole) (cols : ℕ) (p : Paper) : Prop :=
  (p.y < 2 ^ 31 → ∃ vc, vc' = some vc ∧ vc.cols = cols ∧ Holds vc p) ∧
    (2 ^ 31 ≤ p.y → vc' = none)

theorem Holds.follows (h : Holds vc p) (hy : p.y < 2 ^ 31) : Follows (some vc) vc.cols p :=
  ⟨fun _ => ⟨vc, rfl, rfl, h⟩, fun hy' => by omega⟩

theorem nextRow_follows (h : Holds vc p) (hfresh : p.Fresh) :
    Follows vc.nextRow vc.cols p.nextRow := by
  have hy := h.curY_eq
  rw [VConsole.nextRow]
  constructor
  · intro hfits
    rw [if_pos (by simp only [Paper.nextRow] at hfits; omega)]
    exact ⟨_, rfl, rfl, holds_nextRow h hfresh⟩
  · intro hfull
    rw [if_neg (by simp only [Paper.nextRow] at hfull; omega)]

theorem wrap_follows (h : Holds vc p) (hfresh : p.Fresh) (hy : p.y < 2 ^ 31) :
    Follows vc.wrap vc.cols (p.wrap vc.cols) := by
  rw [VConsole.wrap, Paper.wrap, h.curX_eq]
  split
  · exact nextRow_follows h hfresh
  · exact h.follows hy

theorem wrap_y_ge (p : Paper) (cols : ℕ) : p.y ≤ (p.wrap cols).y := by
  rw [Paper.wrap]
  split
  · simp [Paper.nextRow]
  · exact Nat.le_refl _

/-- Two steps of the ring. -/
theorem Follows.bind {vc' : Option VConsole} {cols : ℕ} {p' : Paper}
    {f : VConsole → Option VConsole} (h : Follows vc' cols p) (hle : p.y ≤ p'.y)
    (hf : ∀ vc, vc.cols = cols → Holds vc p → p.y < 2 ^ 31 → Follows (f vc) cols p') :
    Follows (vc'.bind f) cols p' := by
  by_cases hy : p.y < 2 ^ 31
  · obtain ⟨vc, rfl, hcols, hvc⟩ := h.1 hy
    exact hf vc hcols hvc hy
  · rw [h.2 (by omega)]
    exact ⟨fun hy' => by omega, fun _ => rfl⟩

/-- The ring holds the paper as long as its rows can be counted. -/
theorem vconsolePutchar_follows (h : Holds vc p) (hfresh : p.Fresh) (hy : p.y < 2 ^ 31)
    (c : UInt8) :
    Follows (vconsolePutchar vc c) vc.cols (p.putchar vc.cols c) := by
  rw [vconsolePutchar, Paper.putchar]
  split
  · refine (nextRow_follows h hfresh).bind (wrap_y_ge _ _) ?_
    intro vc₁ hcols h₁ hy₁
    rw [← hcols]
    exact wrap_follows h₁ hfresh.nextRow hy₁
  split
  · exact wrap_follows (h.setX 0) hfresh hy
  split
  · rw [h.curX_eq]
    exact wrap_follows (h.setX _) hfresh hy
  split
  · rw [h.curX_eq]
    split
    · exact (holds_write h _ _ _ _ hfresh).follows hy
    · exact h.follows hy
  · rw [Option.map_eq_bind]
    refine (wrap_follows h hfresh hy).bind (Nat.le_refl _) ?_
    intro vc₁ hcols h₁ hy₁
    simp only [Function.comp_apply, h₁.curX_eq]
    rw [← hcols] at h₁ hy₁ ⊢
    exact (holds_write h₁ _ _ _ _ hfresh.wrap).follows hy₁

end ring

end AuroraOS.Terminal
