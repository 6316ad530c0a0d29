import AuroraOS.Terminal.Paper

/-!
# The windowed console against the real one

The ring of a windowed console is not cleared when a row of it is used again, so from row
`VCON_ROWS` on old text shows up where nothing was written. The last rows of the ring are those of
the real console exactly when this does not happen.

## Main results

- `sameRows_iff`
-/

namespace AuroraOS.Terminal

set_option maxRecDepth 16384

/-- A real console and a windowed one of its width. -/
structure SameSize (con : Console) (vc : VConsole) : Prop where
  cols_eq : vc.cols = con.conCols
  cols_le : con.conCols ≤ vconCols
  rows_pos : 0 < con.conRows
  rows_le : con.conRows ≤ min conMaxRows vconRows

/-- After the same output from the cleared state, the last rows of the ring are the rows of the
    real console. -/
def SameRows (con : Console) (vc : VConsole) (cs : List UInt8) : Prop :=
  ∃ t v vc', consoleWrite (consoleClear ⟨con, none⟩) cs = some t ∧
    consoleWrite (consoleClear (consoleRedirectTo (some vc) ⟨con, none⟩)) cs = some v ∧
    v.redirectVc = some vc' ∧
    ∀ row < con.conRows, ∀ col < con.conCols,
      vc'.lastRow con.conRows row col = t.con.cellChar row col

/-- Where nothing was written in the last rows, the ring was blank. -/
def NothingStale (rows cols : ℕ) (p : Paper) : Prop :=
  ∀ row ≤ p.y, p.y < row + rows → ∀ col < cols, p.written row col = none → p.below row col = 0

section runs

variable {con : Console} {vc : VConsole} {p : Paper}

theorem write_shows (hrows : 0 < con.conRows) (hcols : 0 < con.conCols) (h : Shows con p)
    (hfresh : p.Fresh) (cs : List UInt8) :
    ∃ con', consoleWrite ⟨con, none⟩ cs = some ⟨con', none⟩ ∧ con'.conRows = con.conRows ∧
      Shows con' (cs.foldl (Paper.putchar con.conCols) p) := by
  induction cs generalizing con p with
  | nil => exact ⟨con, rfl, rfl, h⟩
  | cons c cs ih =>
    obtain ⟨hr, hc⟩ := putchar_size con c
    obtain ⟨con', hrun, hsize, hshows⟩ := ih (hr ▸ hrows) (hc ▸ hcols)
      (putchar_shows hrows hcols h hfresh c) (hfresh.putchar c)
    exact ⟨con', hrun, hsize.trans hr, by rw [hc] at hshows; exact hshows⟩

/-- The console has always some state. -/
theorem consoleWrite_real (con : Console) (cs : List UInt8) :
    ∃ con', consoleWrite ⟨con, none⟩ cs = some ⟨con', none⟩ := by
  induction cs generalizing con with
  | nil => exact ⟨con, rfl⟩
  | cons c cs ih => exact ih (con.putchar c)

theorem putchar_y_ge (p : Paper) (cols : ℕ) (c : UInt8) : p.y ≤ (p.putchar cols c).y := by
  rw [Paper.putchar]
  split
  · exact Nat.le_trans (Nat.le_succ _) (wrap_y_ge p.nextRow cols)
  split
  · exact wrap_y_ge { p with x := 0 } cols
  split
  · exact wrap_y_ge { p with x := tabStop p.x } cols
  split
  · split <;> exact Nat.le_refl _
  · exact wrap_y_ge p cols

theorem print_y_ge (p : Paper) (cols : ℕ) (cs : List UInt8) :
    p.y ≤ (cs.foldl (Paper.putchar cols) p).y := by
  induction cs generalizing p with
  | nil => exact Nat.le_refl _
  | cons c cs ih => exact Nat.le_trans (putchar_y_ge p cols c) (ih _)

theorem write_follows (h : Holds vc p) (hfresh : p.Fresh) (hy : p.y < 2 ^ 31) (con : Console)
    (cs : List UInt8) :
    ∃ vc', consoleWrite ⟨con, some vc⟩ cs = vc'.map (fun vc => ⟨con, some vc⟩) ∧
      Follows vc' vc.cols (cs.foldl (Paper.putchar vc.cols) p) := by
  induction cs generalizing vc p with
  | nil => exact ⟨some vc, rfl, h.follows hy⟩
  | cons c cs ih =>
    have hstep := vconsolePutchar_follows h hfresh hy c
    by_cases hfits : (p.putchar vc.cols c).y < 2 ^ 31
    · obtain ⟨vc₁, hput, hcols, h₁⟩ := hstep.1 hfits
      obtain ⟨vc', hrun, hfollows⟩ := ih h₁ (hfresh.putchar c) hfits
      refine ⟨vc', ?_, by rw [hcols] at hfollows; exact hfollows⟩
      rw [consoleWrite, List.foldlM_cons, consolePutchar]
      simp only [hput, Option.map_some]
      exact hrun
    · have hfull : 2 ^ 31 ≤ (cs.foldl (Paper.putchar vc.cols) (p.putchar vc.cols c)).y :=
        Nat.le_trans (by omega) (print_y_ge _ vc.cols cs)
      refine ⟨none, ?_, fun hy' => ?_, fun _ => rfl⟩
      · rw [consoleWrite, List.foldlM_cons, consolePutchar]
        simp only [hstep.2 (by omega), Option.map_none]
        rfl
      · exact absurd hy' (by simpa using hfull)

end runs

theorem blank_fresh : Paper.blank.Fresh := fun _ _ _ => rfl

theorem clear_shows (con : Console) : Shows (consoleClear ⟨con, none⟩).con .blank :=
  ⟨rfl, by simp [consoleClear, Paper.blank], fun _ _ _ => rfl⟩

theorem blank_below (row col : ℕ) : Paper.blank.below row col = 0 := by
  induction row using Nat.strongRecOn with
  | _ row ih =>
    rw [below_of_none rfl]
    split
    · rfl
    · exact ih _ (by simp only [vconRows] at *; omega)

theorem clear_holds (vc : VConsole) :
    Holds { vc with cellChar := fun _ _ => 0, curX := 0, curY := 0 } .blank :=
  ⟨rfl, rfl, fun row _ _ col => (blank_below row col).symm⟩

/-- A row of the screen that shows the ring. -/
theorem lastRow_eq {vc : VConsole} {p : Paper} (h : Holds vc p) {rows row : ℕ}
    (hrows : rows ≤ vconRows) (hrow : row < rows) (col : ℕ) :
    vc.lastRow rows row col =
      if p.y - min p.y (rows - 1) + row ≤ p.y then p.below (p.y - min p.y (rows - 1) + row) col
      else 0 := by
  have hy := h.curY_eq
  rw [VConsole.lastRow, hy]
  simp only [vconRows] at hrows ⊢
  split
  · rw [if_pos (by omega), show p.y + 1 - rows + row = p.y - min p.y (rows - 1) + row by omega,
      ← h.cell_eq _ (by simp only [vconRows]; omega) (by simp only [vconRows]; omega)]
  · rw [show p.y - min p.y (rows - 1) + row = row by omega]
    split
    · rw [← h.cell_eq row (by simp only [vconRows]; omega) (by simp only [vconRows]; omega)]
      simp only [vconRows, Nat.mod_eq_of_lt (show row < 200 by omega)]
    · rfl

/-- The rows of the two are the same exactly when nothing stale shows. -/
theorem rows_eq_iff {con : Console} {vc : VConsole} {p : Paper} (hshows : Shows con p)
    (hholds : Holds vc p) (hfresh : p.Fresh) {rows cols : ℕ} (hsize : con.conRows = rows)
    (hrows : rows ≤ vconRows) :
    (∀ row < rows, ∀ col < cols, vc.lastRow rows row col = con.cellChar row col) ↔
      NothingStale rows cols p := by
  have hy := hshows.conY_eq
  have hcell : ∀ row < rows, ∀ col, vc.lastRow rows row col = con.cellChar row col ↔
      (p.y - con.conY + row ≤ p.y → p.written (p.y - con.conY + row) col = none →
        p.below (p.y - con.conY + row) col = 0) := by
    intro row hrow col
    rw [lastRow_eq hholds hrows hrow, hshows.cell_eq row (hsize ▸ hrow), hy, hsize]
    generalize p.y - min p.y (rows - 1) + row = r
    by_cases hr : r ≤ p.y
    · rw [if_pos hr]
      cases hw : p.written r col with
      | none => simp [hr]
      | some c => simp [below_of_written hw]
    · rw [if_neg hr, hfresh r col (by omega)]
      simp [hr]
  rw [hsize] at hy
  constructor
  · intro hsame row hrow hlast col hcol hnone
    have h := (hcell (row - (p.y - con.conY)) (by omega) col).mp
      (hsame _ (by omega) col hcol)
    rw [show p.y - con.conY + (row - (p.y - con.conY)) = row by omega] at h
    exact h hrow hnone
  · intro hstale row hrow col hcol
    refine (hcell row hrow col).mpr fun hle hnone => ?_
    exact hstale _ hle (by omega) col hcol hnone

/-- The last rows of the ring are the rows of the real console exactly when the rows of the text
    can be counted in an `int` and in no cell of the last rows that was not written, text written
    a multiple of `VCON_ROWS` rows above is left. -/
theorem sameRows_iff (con : Console) (vc : VConsole) (hsize : SameSize con vc) (cs : List UInt8) :
    SameRows con vc cs ↔
      (Paper.print con.conCols cs).y < 2 ^ 31 ∧
        NothingStale con.conRows con.conCols (Paper.print con.conCols cs) := by
  obtain ⟨hcols, -, hpos, hle⟩ := hsize
  have hfresh : (Paper.print con.conCols cs).Fresh := by
    rw [Paper.print]
    generalize hp : Paper.blank = p
    have h : p.Fresh := hp ▸ blank_fresh
    clear hp
    induction cs generalizing p with
    | nil => exact h
    | cons c cs ih => exact ih _ (h.putchar c)
  obtain ⟨vc', hrun, hfollows⟩ := write_follows (clear_holds vc) blank_fresh (by decide) con cs
  simp only [hcols] at hfollows
  have hredirected : consoleWrite (consoleClear (consoleRedirectTo (some vc) ⟨con, none⟩)) cs =
      vc'.map fun vc => ⟨con, some vc⟩ := hrun
  obtain ⟨con', hreal⟩ := consoleWrite_real (consoleClear ⟨con, none⟩).con cs
  have hcleared : consoleWrite (consoleClear ⟨con, none⟩) cs = some ⟨con', none⟩ := hreal
  by_cases hfits : (Paper.print con.conCols cs).y < 2 ^ 31
  · obtain ⟨vc₁, rfl, -, hholds⟩ := hfollows.1 hfits
    have hiff : SameRows con vc cs ↔ ∀ row < con.conRows, ∀ col < con.conCols,
        vc₁.lastRow con.conRows row col = con'.cellChar row col := by
      rw [SameRows, hcleared, hredirected]
      constructor
      · rintro ⟨t, v, vc₂, ht, hv, hvc, hrows⟩
        obtain rfl := Option.some.inj ht
        obtain rfl := Option.some.inj hv
        obtain rfl := Option.some.inj hvc
        exact hrows
      · intro hrows
        exact ⟨_, _, vc₁, rfl, rfl, rfl, hrows⟩
    rw [hiff, and_iff_right hfits]
    by_cases hzero : con.conCols = 0
    · -- no columns to compare
      simp [NothingStale, hzero]
    · obtain ⟨con₁, hwrite, hrows, hshows⟩ := @write_shows (consoleClear ⟨con, none⟩).con _
        hpos (Nat.pos_of_ne_zero hzero) (clear_shows con) blank_fresh cs
      obtain rfl : con₁ = con' := by
        have := hwrite.symm.trans hreal
        simpa using this
      exact rows_eq_iff hshows hholds hfresh hrows (by simp only [vconRows] at *; omega)
  · rw [iff_false_right fun h => hfits h.1, SameRows, hredirected, hfollows.2 (Nat.not_lt.mp hfits)]
    rintro ⟨t, v, vc₂, -, hv, -⟩
    exact absurd hv (by simp)

/-- On a new console, output of two rows. -/
theorem sameRows_hello :
    SameRows (consoleInit 1024 768 16 16) (vconsoleInit 62) [72, 105, 10, 111, 107] := by
  refine (sameRows_iff _ _ ⟨by decide, by decide, by decide, by decide⟩ _).mpr ⟨by decide, ?_⟩
  intro row hrow _ col _ hnone
  have hone : row ≤ 1 := hrow
  rw [below_of_none hnone, if_pos (by simp only [vconRows]; omega)]

/-- A letter in the first row and `VCON_ROWS` line feeds: the letter is in the ring's last row. -/
theorem ring_shows_old_row :
    SameSize (consoleInit 1024 768 16 16) (vconsoleInit 62) ∧
      ¬ SameRows (consoleInit 1024 768 16 16) (vconsoleInit 62) (120 :: List.replicate 200 10) := by
  refine ⟨⟨by decide, by decide, by decide, by decide⟩, ?_⟩
  rintro ⟨t, v, vc, ht, hv, hvc, hrows⟩
  have hlast := hrows 40 (by decide) 0 (by decide)
  have hreal : (consoleWrite (consoleClear ⟨consoleInit 1024 768 16 16, none⟩)
      (120 :: List.replicate 200 10)).map (fun t => t.con.cellChar 40 0) = some 0 := by
    decide
  have hring : (consoleWrite (consoleClear (consoleRedirectTo (some (vconsoleInit 62))
      ⟨consoleInit 1024 768 16 16, none⟩)) (120 :: List.replicate 200 10)).bind
        (fun v => v.redirectVc.map fun vc => vc.lastRow 41 40 0) = some 120 := by
    decide
  rw [ht, Option.map_some] at hreal
  rw [hv, Option.bind_some, hvc, Option.map_some] at hring
  have hrowsEq : (consoleInit 1024 768 16 16).conRows = 41 := by decide
  rw [hrowsEq, Option.some.inj hreal, Option.some.inj hring] at hlast
  exact absurd hlast (by decide)

end AuroraOS.Terminal
