import AuroraOS.Fat16.RoundTrip
import AuroraOS.Notes.Editing

/-!
# Loading and saving notes

`note_load` and `note_save` of `kernel/noteedit.c`. Loading keeps the lines of a file as far as
they fit their rows; a file with too many lines makes it leave them.

## Main definitions

- `noteLoad`, `noteSave`
- `keptLines` — the lines that loading keeps

## Main results

- `noteLoad_valid_iff`, `noteSave_noteLoad`, `noteOpenSave_unchanged_iff`
-/

namespace AuroraOS.Notes

set_option maxRecDepth 4096

open Lib

/-- `sizeof(filebuf)` and `sizeof(out)`. -/
def noteFileMax : ℕ := 32768

/-- The loop of `note_load`, with the line and the column it ends with. -/
def noteFill : List UInt8 → ℕ → ℕ → NoteBuffer → Option (ℕ × ℕ × NoteBuffer)
  | [], line, col, nb => some (line, col, nb)
  | c :: rest, line, col, nb =>
    if ¬line < noteMaxLines then some (line, col, nb)
    else if c = 0x0a then do
      let nb ← nb.setChar line col 0
      noteFill rest (line + 1) 0 nb
    else if col < noteMaxLineLen - 1 then do
      let nb ← nb.setChar line col c
      noteFill rest line (col + 1) nb
    else noteFill rest line col nb

/-- `note_load` behind the call of `fat16_read_file`. -/
def noteLoadBytes (filebuf : List UInt8) : Option NoteBuffer := do
  let (line, col, nb) ← noteFill filebuf 0 0 .empty
  let nb ← nb.setChar line col 0
  some { nb with lineCount := line + 1, curLine := line, curCol := col }

/-- `note_load`. -/
def noteLoad (fuel dirCluster : ℕ) (filename : List UInt8) (v : Fat16.Volume) :
    Option (NoteBuffer × Fat16.Volume) := do
  let (entry, v) ← Fat16.fat16Stat fuel dirCluster filename v
  match entry with
  | none => some (.empty, v)
  | some entry =>
    if entry.isDir then some (.empty, v)
    else do
      let toRead := if entry.size < noteFileMax - 1 then entry.size else noteFileMax - 1
      let (filebuf, v) := Fat16.fat16ReadFile entry.firstCluster entry.size 0 toRead v
      let nb ← noteLoadBytes filebuf
      some (nb, v)

/-- `n` turns of the loop of `note_save`, from line `i` on; `out` has `pos` bytes. -/
def noteJoin (nb : NoteBuffer) : ℕ → ℕ → List UInt8 → Option (List UInt8)
  | 0, _, out => some out
  | n + 1, i, out =>
    if out.length < noteFileMax - 2 then do
      let row ← nb.lines[i]?
      let len ← row.strlen
      let len := if out.length + len ≥ noteFileMax - 2 then noteFileMax - 2 - out.length else len
      let bytes ← row.load 0 len
      let out := out ++ bytes
      noteJoin nb n (i + 1) (if i < nb.lineCount - 1 then out ++ [0x0a] else out)
    else some out

/-- `note_save`. -/
def noteSave (fuel dirCluster : ℕ) (filename : List UInt8) (nb : NoteBuffer) (v : Fat16.Volume) :
    Option (Bool × NoteBuffer × Fat16.Volume) := do
  let out ← noteJoin nb nb.lineCount 0 []
  let (ok, v) ← Fat16.fat16WriteFile fuel dirCluster filename out v
  some (ok, if ok then { nb with dirty := false } else nb, v)

section Load

open NoteBuffer

variable {nb nb' : NoteBuffer} {i line col : ℕ} {s cur bytes : List UInt8} {c : UInt8}

/-- The lines that `note_load` keeps of a text, the first one behind what is in its row. -/
def keptLines (cur : List UInt8) : List UInt8 → List (List UInt8)
  | [] => [cur]
  | c :: rest =>
    if c = 0x0a then cur :: keptLines [] rest
    else if cur.length < noteMaxLineLen - 1 then keptLines (cur ++ [c]) rest
    else keptLines cur rest

/-- The lines of a text, cut to what a row holds. -/
def cutLines (bytes : List UInt8) : List (List UInt8) :=
  (bytes.splitOn 0x0a).map (·.take (noteMaxLineLen - 1))

theorem modifyHead_nil_append (ls : List (List UInt8)) : ls.modifyHead ([] ++ ·) = ls := by
  cases ls with
  | nil => rfl
  | cons l ls => rfl

theorem keptLines_eq (hcur : cur.length ≤ noteMaxLineLen - 1) (bytes : List UInt8) :
    keptLines cur bytes =
      ((bytes.splitOn 0x0a).modifyHead (cur ++ ·)).map (·.take (noteMaxLineLen - 1)) := by
  induction bytes generalizing cur with
  | nil =>
    have htake : cur.take (noteMaxLineLen - 1) = cur := List.take_of_length_le hcur
    simp [keptLines, htake]
  | cons c rest ih =>
    rw [keptLines, List.splitOn_cons_eq_if_modifyHead]
    by_cases hc : c = 0x0a
    · have htake : cur.take (noteMaxLineLen - 1) = cur := List.take_of_length_le hcur
      rw [if_pos hc, if_pos (beq_iff_eq.mpr hc), ih (Nat.zero_le _), modifyHead_nil_append,
        List.modifyHead_cons, List.append_nil, List.map_cons, htake]
    · rw [if_neg hc, if_neg (show ¬(c == 0x0a) = true by simpa using hc)]
      cases hsplit : rest.splitOn 0x0a with
      | nil => exact absurd hsplit (List.splitOn_ne_nil _ _)
      | cons l ls =>
        split_ifs with hlt
        · rw [ih (by rw [List.length_append, List.length_singleton]; omega), hsplit]
          simp
        · -- the row is full
          have hfull : ∀ l, (cur ++ l).take (noteMaxLineLen - 1) = cur := fun l =>
            List.take_left' (by omega)
          rw [ih hcur, hsplit]
          simp [hfull]

theorem keptLines_nil_eq (bytes : List UInt8) : keptLines [] bytes = cutLines bytes := by
  rw [keptLines_eq (Nat.zero_le _), modifyHead_nil_append, cutLines]

theorem keptLines_ne_nil (cur bytes : List UInt8) : keptLines cur bytes ≠ [] := by
  induction bytes generalizing cur with
  | nil => exact List.cons_ne_nil _ _
  | cons c rest ih =>
    rw [keptLines]
    split_ifs
    · exact List.cons_ne_nil _ _
    · exact ih _
    · exact ih _

/-- Row `i` was filled with `s`. -/
def NoteBuffer.FilledLine (nb : NoteBuffer) (i : ℕ) (s : List UInt8) : Prop :=
  ∃ row, nb.lines[i]? = some row ∧ row.Filled s

theorem filledLine_empty (hi : i < noteMaxLines) : NoteBuffer.empty.FilledLine i [] :=
  ⟨Buffer.zeros noteMaxLineLen, Vector.getElem?_replicate.trans (if_pos hi),
    Buffer.filled_zeros noteMaxLineLen⟩

/-- A store into a row. -/
theorem exists_setChar {row row' : Buffer noteMaxLineLen} (hi : i < noteMaxLines)
    (hget : nb.lines[i]? = some row) (hset : row.set col c = some row') (hfill : row'.Filled s) :
    ∃ nb', nb.setChar i col c = some nb' ∧ nb'.FilledLine i s ∧
      ∀ j ≠ i, ∀ t, nb.FilledLine j t → nb'.FilledLine j t := by
  obtain ⟨nb', hline, -, hself, hothers⟩ := nb.setLine_spec hi row'
  refine ⟨nb', ?_, ⟨row', hself, hfill⟩, fun j hj t ⟨row, hrow, ht⟩ =>
    ⟨row, (hothers j hj).trans hrow, ht⟩⟩
  refine Option.bind_eq_some_iff.mpr ⟨row, hget, ?_⟩
  exact Option.bind_eq_some_iff.mpr ⟨row', hset, hline⟩

theorem NoteBuffer.FilledLine.push (h : nb.FilledLine i cur) (hi : i < noteMaxLines)
    (hlt : cur.length < noteMaxLineLen) (c : UInt8) :
    ∃ nb', nb.setChar i cur.length c = some nb' ∧ nb'.FilledLine i (cur ++ [c]) ∧
      ∀ j ≠ i, ∀ t, nb.FilledLine j t → nb'.FilledLine j t := by
  obtain ⟨row, hget, hfill⟩ := h
  obtain ⟨row', hset, hfill'⟩ := hfill.push hlt c
  exact exists_setChar hi hget hset hfill'

theorem NoteBuffer.FilledLine.terminate (h : nb.FilledLine i cur) (hi : i < noteMaxLines)
    (hlt : cur.length < noteMaxLineLen) :
    ∃ nb', nb.setChar i cur.length 0 = some nb' ∧ nb'.FilledLine i cur ∧
      ∀ j ≠ i, ∀ t, nb.FilledLine j t → nb'.FilledLine j t := by
  obtain ⟨row, hget, hfill⟩ := h
  obtain ⟨row', hset, hfill'⟩ := hfill.terminate hlt
  exact exists_setChar hi hget hset hfill'

/-- What the loop of `note_load` has done when it ends in line `line'`: the lines `kept` are in the
    rows from `line` on, as far as there are any, and the ones above are as before. -/
structure Filled (nb : NoteBuffer) (line : ℕ) (kept : List (List UInt8)) (line' col' : ℕ)
    (nb' : NoteBuffer) : Prop where
  above : ∀ i < line, ∀ s, nb.FilledLine i s → nb'.FilledLine i s
  rows : ∀ k s, line + k < noteMaxLines → kept[k]? = some s → nb'.FilledLine (line + k) s
  last : line + kept.length ≤ noteMaxLines → line' + 1 = line + kept.length ∧
    ∃ s, kept.getLast? = some s ∧ col' = s.length
  full : noteMaxLines < line + kept.length → line' = noteMaxLines

theorem noteFill_filled (bytes : List UInt8) (hline : line < noteMaxLines)
    (hcur : nb.FilledLine line cur) (hlen : cur.length ≤ noteMaxLineLen - 1)
    (hclear : ∀ i, line < i → i < noteMaxLines → nb.FilledLine i []) :
    ∃ line' col' nb', noteFill bytes line cur.length nb = some (line', col', nb') ∧
      Filled nb line (keptLines cur bytes) line' col' nb' := by
  induction bytes generalizing line cur nb with
  | nil =>
    refine ⟨line, cur.length, nb, rfl, fun i _ s hs => hs, fun k s hk hs => ?_, fun _ =>
      ⟨rfl, cur, rfl, rfl⟩, fun hfull => absurd hfull (Nat.not_lt.mpr hline)⟩
    cases k with
    | zero => exact Option.some.inj hs ▸ hcur
    | succ k => exact absurd hs (by simp [keptLines])
  | cons c rest ih =>
    rw [noteFill, if_neg (not_not_intro hline), keptLines]
    split_ifs with hc hlt
    · -- the next line
      obtain ⟨nb₁, hset, hself, hothers⟩ := hcur.terminate hline (Nat.lt_succ_of_le hlen)
      obtain hnext | hnext := Nat.lt_or_ge (line + 1) noteMaxLines
      · obtain ⟨line', col', nb', hrun, hfill⟩ := ih hnext
          (hothers _ (by omega) _ (hclear _ (by omega) hnext)) (Nat.zero_le _)
          fun i hi hlt => hothers i (by omega) _ (hclear i (by omega) hlt)
        refine ⟨line', col', nb', Option.bind_eq_some_iff.mpr ⟨nb₁, hset, hrun⟩,
          fun i hi s hs => hfill.above i (by omega) s (hothers i (by omega) s hs),
          fun k s hk hs => ?_, fun hle => ?_, fun hfull => hfill.full ?_⟩
        · cases k with
          | zero => exact Option.some.inj hs ▸ hfill.above line (by omega) cur hself
          | succ k =>
            rw [show line + (k + 1) = line + 1 + k by omega]
            exact hfill.rows k s (by omega) hs
        · rw [List.length_cons] at hle ⊢
          obtain ⟨hlast, s, hs, hcol⟩ := hfill.last (by omega)
          refine ⟨by omega, s, ?_, hcol⟩
          rw [List.getLast?_cons, hs]
          rfl
        · rw [List.length_cons] at hfull
          omega
      · -- there is none
        have hrun : noteFill rest (line + 1) 0 nb₁ = some (line + 1, 0, nb₁) := by
          cases rest with
          | nil => rfl
          | cons c rest => rw [noteFill, if_pos (by omega)]
        have hpos := List.length_pos_of_ne_nil (keptLines_ne_nil [] rest)
        refine ⟨line + 1, 0, nb₁, Option.bind_eq_some_iff.mpr ⟨nb₁, hset, hrun⟩,
          fun i hi s hs => hothers i (by omega) s hs, fun k s hk hs => ?_, fun hle => ?_,
          fun _ => by omega⟩
        · obtain rfl : k = 0 := by omega
          exact Option.some.inj hs ▸ hself
        · rw [List.length_cons] at hle
          omega
    · -- one more character
      obtain ⟨nb₁, hset, hself, hothers⟩ := hcur.push hline (by omega) c
      obtain ⟨line', col', nb', hrun, hfill⟩ := ih hline hself
        (by rw [List.length_append, List.length_singleton]; omega)
        fun i hi hlt => hothers i (by omega) _ (hclear i hi hlt)
      rw [List.length_append, List.length_singleton] at hrun
      exact ⟨line', col', nb', Option.bind_eq_some_iff.mpr ⟨nb₁, hset, hrun⟩,
        fun i hi s hs => hfill.above i hi s (hothers i (by omega) s hs), hfill.rows, hfill.last,
        hfill.full⟩
    · -- a character that is dropped
      exact ih hline hcur hlen hclear

theorem length_le_of_mem_cutLines (h : s ∈ cutLines bytes) : s.length ≤ noteMaxLineLen - 1 := by
  obtain ⟨l, -, rfl⟩ := List.mem_map.mp h
  exact List.length_take_le _ _

/-- The buffer that `note_load` makes of a file: its lines, cut, with the cursor behind the last
    character. -/
structure LoadedAs (nb : NoteBuffer) (bytes : List UInt8) : Prop where
  count_eq : nb.lineCount = (cutLines bytes).length
  line_eq : nb.curLine + 1 = (cutLines bytes).length
  col_eq : ∃ s, (cutLines bytes).getLast? = some s ∧ nb.curCol = s.length
  rows : ∀ i s, (cutLines bytes)[i]? = some s → nb.FilledLine i s

theorem noteLoadBytes_loadedAs (h : (cutLines bytes).length ≤ noteMaxLines) :
    ∃ nb, noteLoadBytes bytes = some nb ∧ LoadedAs nb bytes := by
  obtain ⟨line, col, nb₁, hrun, hfill⟩ := noteFill_filled bytes
    (show 0 < noteMaxLines by decide) (filledLine_empty (by decide)) (Nat.zero_le _)
    fun i _ hi => filledLine_empty hi
  rw [keptLines_nil_eq] at hfill
  have hlast := hfill.last (by rw [Nat.zero_add]; exact h)
  rw [Nat.zero_add] at hlast
  obtain ⟨hline, s, hs, hcol⟩ := hlast
  have hrow : nb₁.FilledLine (0 + line) s := by
    refine hfill.rows line s (by omega) ?_
    rw [List.getLast?_eq_getElem?, ← hline, Nat.add_sub_cancel] at hs
    exact hs
  rw [Nat.zero_add] at hrow
  have hlen := length_le_of_mem_cutLines (List.mem_of_getLast? hs)
  obtain ⟨nb₂, hset, hself, hothers⟩ := hrow.terminate (by omega) (Nat.lt_succ_of_le hlen)
  refine ⟨{ nb₂ with lineCount := line + 1, curLine := line, curCol := col }, ?_, hline, hline,
    ⟨s, hs, hcol⟩, fun i t ht => ?_⟩
  · refine Option.bind_eq_some_iff.mpr ⟨_, hrun, ?_⟩
    exact Option.bind_eq_some_iff.mpr ⟨nb₂, hcol ▸ hset, rfl⟩
  · by_cases hi : i = line
    · subst hi
      rw [List.getLast?_eq_getElem?, ← hline, Nat.add_sub_cancel] at hs
      exact Option.some.inj (hs.symm.trans ht) ▸ hself
    · have hlt : i < (cutLines bytes).length := (List.getElem?_eq_some_iff.mp ht).1
      have hrows := hfill.rows i t (by omega) ht
      rw [Nat.zero_add] at hrows
      exact hothers i hi t hrows

/-- With too many lines the terminator of the last one is written behind the rows. -/
theorem noteLoadBytes_eq_none (h : noteMaxLines < (cutLines bytes).length) :
    noteLoadBytes bytes = none := by
  obtain ⟨line, col, nb₁, hrun, hfill⟩ := noteFill_filled bytes
    (show 0 < noteMaxLines by decide) (filledLine_empty (by decide)) (Nat.zero_le _)
    fun i _ hi => filledLine_empty hi
  rw [keptLines_nil_eq] at hfill
  have hline := hfill.full (by rw [Nat.zero_add]; exact h)
  have hset : nb₁.setChar line col 0 = none := by
    rw [NoteBuffer.setChar, hline, Vector.getElem?_eq_none (Nat.le_refl _)]
    rfl
  rw [noteLoadBytes, show noteFill bytes 0 0 .empty = _ from hrun, Option.bind_eq_bind,
    Option.bind_some]
  show (nb₁.setChar line col 0).bind _ = none
  rw [hset]
  rfl

theorem NoteBuffer.FilledLine.holdsLine (h : nb.FilledLine i s)
    (hlen : s.length ≤ noteMaxLineLen - 1) : nb.HoldsLine i (s.takeWhile (· ≠ 0)) := by
  obtain ⟨row, hget, hfill⟩ := h
  exact ⟨row, hget, hfill.holds (Nat.lt_succ_of_le hlen)⟩

theorem LoadedAs.holdsLine (h : LoadedAs nb bytes) (hs : (cutLines bytes)[i]? = some s) :
    nb.HoldsLine i (s.takeWhile (· ≠ 0)) :=
  (h.rows i s hs).holdsLine (length_le_of_mem_cutLines (List.mem_of_getElem? hs))

theorem LoadedAs.last (h : LoadedAs nb bytes) :
    ∃ s, (cutLines bytes).getLast? = some s ∧ nb.curCol = s.length ∧
      nb.HoldsLine nb.curLine (s.takeWhile (· ≠ 0)) := by
  obtain ⟨s, hs, hcol⟩ := h.col_eq
  refine ⟨s, hs, hcol, h.holdsLine ?_⟩
  rwa [List.getLast?_eq_getElem?, ← h.line_eq, Nat.add_sub_cancel] at hs

/-- Only a zero in the last line makes the loaded buffer invalid. -/
theorem LoadedAs.valid_iff (h : LoadedAs nb bytes) (hle : (cutLines bytes).length ≤ noteMaxLines) :
    nb.Valid ↔ ∀ s, (cutLines bytes).getLast? = some s → 0 ∉ s := by
  obtain ⟨last, hlast, hcol, hholds⟩ := h.last
  have hcount := h.count_eq
  have hline := h.line_eq
  constructor
  · intro hv s hs h0
    obtain rfl := Option.some.inj (hlast.symm.trans hs)
    have hcolLe := hv.col_le _ hholds
    have hwhole : last.takeWhile (· ≠ 0) = last :=
      (List.takeWhile_prefix _).eq_of_length_le (hcol ▸ hcolLe)
    rw [← hwhole] at h0
    simpa using List.mem_takeWhile_imp h0
  · intro hzero
    refine ⟨by omega, by omega, by omega, fun i hi => ?_, fun s hs => ?_⟩
    · exact ⟨_, h.holdsLine (List.getElem?_eq_getElem (hcount ▸ hi))⟩
    · have hwhole : last.takeWhile (· ≠ 0) = last :=
        List.takeWhile_eq_self_iff.mpr fun b hb =>
          decide_eq_true fun hb0 => hzero last hlast (hb0 ▸ hb)
      rw [hs.unique hholds, hwhole, hcol]

/-- At most as many lines as there are rows, and no zero among the characters that are kept of the
    last one. -/
def FitsRows (bytes : List UInt8) : Prop :=
  (bytes.splitOn 0x0a).length ≤ noteMaxLines ∧
    ∀ l, (bytes.splitOn 0x0a).getLast? = some l → 0 ∉ l.take (noteMaxLineLen - 1)

theorem noteLoadBytes_valid_iff (bytes : List UInt8) :
    (∃ nb, noteLoadBytes bytes = some nb ∧ nb.Valid) ↔ FitsRows bytes := by
  have hlen : (cutLines bytes).length = (bytes.splitOn 0x0a).length := List.length_map _
  have hlast : (∀ s, (cutLines bytes).getLast? = some s → 0 ∉ s) ↔
      ∀ l, (bytes.splitOn 0x0a).getLast? = some l → 0 ∉ l.take (noteMaxLineLen - 1) := by
    rw [cutLines, List.getLast?_map]
    simp
  obtain hlt | hle := Nat.lt_or_ge noteMaxLines (cutLines bytes).length
  · rw [noteLoadBytes_eq_none hlt]
    exact ⟨fun ⟨nb, heq, _⟩ => absurd heq (by simp), fun h => absurd h.1 (by omega)⟩
  · obtain ⟨nb, hrun, hloaded⟩ := noteLoadBytes_loadedAs hle
    have hiff : (∃ nb, noteLoadBytes bytes = some nb ∧ nb.Valid) ↔ nb.Valid := by
      rw [hrun]
      exact ⟨fun ⟨nb', heq, hv⟩ => Option.some.inj heq ▸ hv, fun hv => ⟨nb, rfl, hv⟩⟩
    rw [hiff, hloaded.valid_iff hle, hlast]
    exact ⟨fun h => ⟨hlen ▸ hle, h⟩, fun h => h.2⟩

variable {fuel d : ℕ} {name : List UInt8} {v w w' : Fat16.Volume}

theorem noteLoad_of_file {e : Fat16.Fat16Entry}
    (hstat : Fat16.fat16Stat fuel d name v = some (some e, w)) (hfile : e.isDir = false)
    (hread : Fat16.fat16ReadFile e.firstCluster e.size 0 (min e.size 32767) w = (bytes, w')) :
    noteLoad fuel d name v = (noteLoadBytes bytes).map (·, w') := by
  have hsize : (if e.size < noteFileMax - 1 then e.size else noteFileMax - 1) =
      min e.size 32767 := by
    rw [show noteFileMax - 1 = 32767 from rfl]
    split_ifs <;> omega
  rw [noteLoad, hstat, Option.bind_eq_bind, Option.bind_some]
  refine (if_neg (by simp [hfile])).trans ?_
  rw [hsize]
  simp only [hread]
  cases noteLoadBytes bytes with
  | none => rfl
  | some nb => rfl

/-- Loading stays in the rows and makes a valid buffer exactly for files that fit them. -/
theorem noteLoad_valid_iff {found : Option Fat16.Fat16Entry}
    (hstat : Fat16.fat16Stat fuel d name v = some (found, w)) :
    (∃ nb w', noteLoad fuel d name v = some (nb, w') ∧ nb.Valid) ↔
      ∀ e, found = some e → e.isDir = false →
        FitsRows (Fat16.fat16ReadFile e.firstCluster e.size 0 (min e.size 32767) w).1 := by
  have hempty : noteLoad fuel d name v = some (.empty, w) →
      ∃ nb w', noteLoad fuel d name v = some (nb, w') ∧ nb.Valid :=
    fun h => ⟨_, _, h, valid_empty⟩
  cases found with
  | none =>
    have hrun : noteLoad fuel d name v = some (.empty, w) :=
      Option.bind_eq_some_iff.mpr ⟨_, hstat, rfl⟩
    exact ⟨fun _ e he => absurd he (by simp), fun _ => hempty hrun⟩
  | some e =>
    cases hdir : e.isDir with
    | true =>
      have hrun : noteLoad fuel d name v = some (.empty, w) :=
        Option.bind_eq_some_iff.mpr ⟨_, hstat, if_pos hdir⟩
      refine ⟨fun _ e' he hfile => ?_, fun _ => hempty hrun⟩
      rw [← Option.some.inj he, hdir] at hfile
      exact absurd hfile (by simp)
    | false =>
      obtain ⟨bytes, w₁, hread⟩ : ∃ bytes w₁,
          Fat16.fat16ReadFile e.firstCluster e.size 0 (min e.size 32767) w = (bytes, w₁) :=
        ⟨_, _, rfl⟩
      have hiff := noteLoadBytes_valid_iff bytes
      rw [noteLoad_of_file hstat hdir hread]
      constructor
      · rintro ⟨nb, w', hmap, hv⟩ e' he -
        obtain ⟨nb', hload, heq⟩ := Option.map_eq_some_iff.mp hmap
        obtain ⟨rfl, -⟩ := Prod.mk.inj heq
        rw [← Option.some.inj he, hread]
        exact hiff.mp ⟨nb', hload, hv⟩
      · intro h
        have hfits := h e rfl hdir
        rw [hread] at hfits
        obtain ⟨nb, hload, hv⟩ := hiff.mpr hfits
        exact ⟨nb, _, by rw [hload]; rfl, hv⟩

theorem noteLoad_valid_iff_oneFile :
    ∃ nb w, noteLoad 4 0 [65] Fat16.oneFileVolume = some (nb, w) ∧ nb.Valid := by
  have ht : Fat16.nameTo83 [65] = some (Fat16.name83 [65] []) := by decide
  have hfound : Fat16.oneFileVolume.lookup 0 (Fat16.name83 [65] []) = some ⟨3, 0⟩ := by
    decide
  have hfuel : Fat16.oneFileVolume.fuelBound ≤ 4 := by decide
  have hstat := Fat16.fat16Stat_eq_lookup Fat16.oneFileVolume_wellFormed.inv Fat16.reachDir_root
    hfuel ht
  rw [hfound] at hstat
  refine (noteLoad_valid_iff hstat).mpr fun e he _ => ?_
  obtain rfl := Option.some.inj he
  have hread : (Fat16.fat16ReadFile (Fat16.oneFileVolume.dirent ⟨3, 0⟩).toEntry.firstCluster
      (Fat16.oneFileVolume.dirent ⟨3, 0⟩).toEntry.size 0
      (min (Fat16.oneFileVolume.dirent ⟨3, 0⟩).toEntry.size 32767) Fat16.oneFileVolume).1 =
        [120] := by
    decide
  rw [hread]
  exact ⟨by decide, fun l hl => by obtain rfl := Option.some.inj hl; decide⟩

theorem noteLoad_of_readsBack {data : List UInt8} (h : Fat16.ReadsBack fuel d name data v) :
    ∃ w, noteLoad fuel d name v = (noteLoadBytes (data.take 32767)).map (·, w) := by
  obtain ⟨e, hstat, hfile, hsize, hread⟩ := h
  obtain ⟨bytes, w, hrun⟩ : ∃ bytes w,
      Fat16.fat16ReadFile e.firstCluster e.size 0 (min e.size 32767) v = (bytes, w) :=
    ⟨_, _, rfl⟩
  have hbytes : bytes = data.take 32767 := by
    have hread' := hread 0 (min e.size 32767)
    rw [hrun, List.drop_zero, hsize, Nat.min_comm] at hread'
    exact hread'.trans List.take_eq_take_min.symm
  exact ⟨w, hbytes ▸ noteLoad_of_file hstat hfile hrun⟩

/-- A volume with a file `A` of 200 empty lines. -/
def emptyLinesVolume : Fat16.Volume :=
  Fat16.FileOp.after 4 0 [65] (.write (List.replicate 200 0x0a)) (Fat16.blankVolume 1)

theorem emptyLinesVolume_readsBack : Fat16.WellFormed emptyLinesVolume ∧
    Fat16.ReadsBack 4 0 [65] (List.replicate 200 0x0a) emptyLinesVolume := by
  have hrun : Fat16.FileOp.run 4 0 [65] (.write (List.replicate 200 0x0a)) (Fat16.blankVolume 1) =
      some (true, emptyLinesVolume) := Fat16.FileOp.run_eq_after (by decide)
  obtain ⟨hwf, -, p, hf⟩ := Fat16.write_blank_holdsFile
    (by rw [List.length_replicate]; decide) hrun
  exact ⟨hwf, hf.readsBack hwf.inv (by decide) (by decide)⟩

/-- The byte behind the 200th newline goes to a row that is not there. -/
theorem noteLoad_leaves_rows :
    ¬∀ (fuel d : ℕ) (name : List UInt8) (v : Fat16.Volume), Fat16.WellFormed v →
      Fat16.ReachDir v none d → v.fuelBound ≤ fuel →
      ∃ nb w, noteLoad fuel d name v = some (nb, w) ∧ nb.Valid := by
  intro hall
  obtain ⟨hwf, hreads⟩ := emptyLinesVolume_readsBack
  obtain ⟨w, hload⟩ := noteLoad_of_readsBack hreads
  obtain ⟨nb, w', hrun, -⟩ := hall 4 0 [65] emptyLinesVolume hwf Fat16.reachDir_root
    (by decide)
  have hnone : noteLoadBytes ((List.replicate 200 0x0a).take 32767) = none :=
    noteLoadBytes_eq_none (by decide)
  rw [hload, hnone] at hrun
  exact absurd hrun (by simp)

end Load

section Save

open NoteBuffer

variable {nb : NoteBuffer} {i : ℕ} {s out : List UInt8}

theorem NoteBuffer.Valid.length_texts (h : nb.Valid) : nb.texts.length = nb.lineCount := by
  obtain ⟨z, hz⟩ := h.exists_shows
  rw [hz.texts_eq, hz.count_eq]

theorem NoteBuffer.Valid.holds_text (h : nb.Valid) (hs : nb.texts[i]? = some s) :
    nb.HoldsLine i s := by
  obtain ⟨z, hz⟩ := h.exists_shows
  rw [hz.texts_eq] at hs
  exact hz.holds i s hs

theorem NoteBuffer.Valid.length_le_of_mem (h : nb.Valid) (hs : s ∈ nb.texts) :
    s.length ≤ noteMaxLineLen - 1 := by
  obtain ⟨i, hi⟩ := List.mem_iff_getElem?.mp hs
  exact Nat.le_pred_of_lt (h.holds_text hi).length_lt

/-- The lines from `i` on go behind what was put out. -/
theorem noteJoin_eq (h : nb.Valid) (n : ℕ) (hn : i + n = nb.lineCount)
    (hout : out.length ≤ noteMaxLineLen * i) :
    noteJoin nb n i out = some (out ++ List.intercalate [0x0a] (nb.texts.drop i)) := by
  have hmax : noteMaxLineLen * nb.lineCount ≤ noteMaxLineLen * noteMaxLines :=
    Nat.mul_le_mul_left _ h.count_le
  have hlen := h.length_texts
  induction n generalizing i out with
  | zero =>
    rw [List.drop_of_length_le (by omega)]
    exact congrArg some (List.append_nil out).symm
  | succ n ih =>
    have hi : i < nb.texts.length := by omega
    obtain ⟨row, hget, hrow⟩ := h.holds_text (List.getElem?_eq_getElem hi)
    have hlt := hrow.length_lt
    have hfit : out.length + nb.texts[i].length + 1 ≤ noteMaxLineLen * (i + 1) := by
      rw [Nat.mul_succ]
      omega
    have hle : noteMaxLineLen * (i + 1) ≤ noteMaxLineLen * nb.lineCount :=
      Nat.mul_le_mul_left _ (by omega)
    have hroom : noteMaxLineLen * noteMaxLines < noteFileMax - 2 := by decide
    have hload : row.load 0 nb.texts[i].length = some nb.texts[i] := by
      rw [hrow.start.load (by rw [List.length_append]; omega), List.drop_zero, List.take_left]
    rw [noteJoin, if_pos (by omega), hget, Option.bind_eq_bind, Option.bind_some, hrow.strlen_eq,
      Option.bind_eq_bind, Option.bind_some, if_neg (by omega)]
    refine Option.bind_eq_some_iff.mpr ⟨_, hload, ?_⟩
    show noteJoin nb n (i + 1) (if i < nb.lineCount - 1 then out ++ nb.texts[i] ++ [0x0a]
      else out ++ nb.texts[i]) = _
    rw [List.drop_eq_getElem_cons hi]
    split_ifs with hlast
    · have hne : nb.texts.drop (i + 1) ≠ [] := fun hnil => by
        have hle := List.drop_eq_nil_iff.mp hnil
        omega
      rw [ih (by omega) (by simp only [List.length_append, List.length_singleton]; omega),
        List.intercalate_cons_of_ne_nil hne]
      simp only [List.append_assoc]
    · rw [ih (by omega) (by rw [List.length_append]; omega), List.drop_of_length_le (by omega)]
      simp

theorem noteSave_eq (h : nb.Valid) (fuel d : ℕ) (name : List UInt8) (v : Fat16.Volume) :
    noteSave fuel d name nb v = (Fat16.fat16WriteFile fuel d name nb.text v).map
      fun r => (r.1, if r.1 then { nb with dirty := false } else nb, r.2) := by
  rw [noteSave, noteJoin_eq h nb.lineCount (Nat.zero_add _) (Nat.zero_le _), List.nil_append,
    List.drop_zero, Option.bind_eq_bind, Option.bind_some]
  show (Fat16.fat16WriteFile fuel d name nb.text v).bind _ = _
  cases Fat16.fat16WriteFile fuel d name nb.text v with
  | none => rfl
  | some r => rfl

theorem noteSave_of_write {fuel d : ℕ} {name : List UInt8} {v v' : Fat16.Volume} (h : nb.Valid)
    (hwrite : Fat16.fat16WriteFile fuel d name nb.text v = some (true, v')) :
    noteSave fuel d name nb v = some (true, { nb with dirty := false }, v') := by
  rw [noteSave_eq h, hwrite]
  rfl

theorem length_intercalate_le {ls : List (List UInt8)} {n : ℕ} (h : ∀ l ∈ ls, l.length ≤ n) :
    (List.intercalate [0x0a] ls).length ≤ (n + 1) * ls.length := by
  induction ls with
  | nil => exact Nat.zero_le _
  | cons l ls ih =>
    have hl := h l List.mem_cons_self
    have hls := ih fun l hl => h l (List.mem_cons_of_mem _ hl)
    rw [List.length_cons, Nat.mul_succ]
    by_cases hne : ls = []
    · rw [hne, List.intercalate_singleton]
      omega
    · rw [List.intercalate_cons_of_ne_nil hne]
      simp only [List.length_append, List.length_singleton]
      omega

/-- A valid buffer is far from filling `out`. -/
theorem NoteBuffer.Valid.length_text_le (h : nb.Valid) : nb.text.length ≤ 20000 := by
  refine (length_intercalate_le fun l hl => h.length_le_of_mem hl).trans ?_
  rw [h.length_texts]
  exact Nat.mul_le_mul_left 100 h.count_le

theorem mem_intercalate_of_mem {ls : List (List UInt8)} {l : List UInt8} {b : UInt8} (hl : l ∈ ls)
    (hb : b ∈ l) : b ∈ List.intercalate [0x0a] ls := by
  induction ls with
  | nil => exact absurd hl List.not_mem_nil
  | cons l' ls ih =>
    by_cases hne : ls = []
    · subst hne
      obtain rfl := List.mem_singleton.mp hl
      rwa [List.intercalate_singleton]
    · rw [List.intercalate_cons_of_ne_nil hne, List.append_assoc, List.mem_append, List.mem_append]
      obtain rfl | hl := List.mem_cons.mp hl
      · exact Or.inl hb
      · exact Or.inr (Or.inr (ih hl))

theorem zero_notMem_of_mem_cutLines {bytes : List UInt8} (hzero : 0 ∉ bytes)
    (hs : s ∈ cutLines bytes) : 0 ∉ s := by
  obtain ⟨l, hl, rfl⟩ := List.mem_map.mp hs
  intro h0
  have hjoin : List.intercalate [0x0a] (bytes.splitOn 0x0a) = bytes := List.intercalate_splitOn _
  exact hzero (hjoin ▸ mem_intercalate_of_mem hl (List.mem_of_mem_take h0))

/-- Without zeros in the file the lines are the ones that loading keeps. -/
theorem LoadedAs.texts_eq {bytes : List UInt8} (h : LoadedAs nb bytes) (hzero : 0 ∉ bytes) :
    nb.texts = cutLines bytes := by
  have hcount := h.count_eq
  refine List.ext_getElem? fun i => ?_
  by_cases hi : i < nb.lineCount
  · have hget := List.getElem?_eq_getElem (hcount ▸ hi)
    have hwhole : ∀ s ∈ cutLines bytes, s.takeWhile (· ≠ 0) = s := fun s hs =>
      List.takeWhile_eq_self_iff.mpr fun b hb => decide_eq_true fun hb0 =>
        zero_notMem_of_mem_cutLines hzero hs (hb0 ▸ hb)
    have hholds := h.holdsLine hget
    rw [hwhole _ (List.mem_of_getElem? hget)] at hholds
    rw [hholds.getElem?_texts hi, hget]
  · have hle' := nb.length_texts_le
    rw [List.getElem?_eq_none (by omega), List.getElem?_eq_none (by omega)]

/-- A file without zeros whose lines fit in number. -/
theorem noteLoadBytes_texts {bytes : List UInt8} (hle : (cutLines bytes).length ≤ noteMaxLines)
    (hzero : 0 ∉ bytes) :
    ∃ nb, noteLoadBytes bytes = some nb ∧ nb.Valid ∧ nb.lineCount = (cutLines bytes).length ∧
      nb.texts = cutLines bytes := by
  obtain ⟨nb, hrun, hloaded⟩ := noteLoadBytes_loadedAs hle
  exact ⟨nb, hrun, (hloaded.valid_iff hle).mpr fun s hs =>
    zero_notMem_of_mem_cutLines hzero (List.mem_of_getLast? hs), hloaded.count_eq,
    hloaded.texts_eq hzero⟩

theorem NoteBuffer.Valid.zero_notMem_text (h : nb.Valid) : 0 ∉ nb.text := by
  have hlines : ∀ l ∈ nb.texts, 0 ∉ l := by
    intro l hl
    obtain ⟨i, hi⟩ := List.mem_iff_getElem?.mp hl
    obtain ⟨row, -, hrow⟩ := h.holds_text hi
    exact hrow.nonzero
  have hjoined : ∀ ls : List (List UInt8), (∀ l ∈ ls, 0 ∉ l) →
      0 ∉ List.intercalate [0x0a] ls := by
    intro ls hls
    induction ls with
    | nil => exact List.not_mem_nil
    | cons l ls ih =>
      have hl := hls l List.mem_cons_self
      have hrest := ih fun l hl => hls l (List.mem_cons_of_mem _ hl)
      by_cases hne : ls = []
      · rwa [hne, List.intercalate_singleton]
      · rw [List.intercalate_cons_of_ne_nil hne]
        simp [hl, hrest]
  exact hjoined _ hlines

/-- Loading the text of a valid buffer gives its lines back. -/
theorem noteLoadBytes_text (h : nb.Valid) (hlines : ∀ s ∈ nb.texts, 0x0a ∉ s) :
    ∃ nb', noteLoadBytes nb.text = some nb' ∧ nb'.lineCount = nb.lineCount ∧
      nb'.texts = nb.texts := by
  have hlen := h.length_texts
  have hpos := h.count_pos
  have hcut : cutLines nb.text = nb.texts := by
    rw [cutLines, NoteBuffer.text, List.splitOn_intercalate _ hlines fun hnil => by
      rw [hnil, List.length_nil] at hlen
      omega]
    refine (List.map_congr_left fun l hl => ?_).trans (List.map_id _)
    exact List.take_of_length_le (h.length_le_of_mem hl)
  obtain ⟨nb', hrun, -, hcount, htexts⟩ := noteLoadBytes_texts
    (by rw [hcut, hlen]; exact h.count_le) h.zero_notMem_text
  exact ⟨nb', hrun, by rw [hcount, hcut, hlen], by rw [htexts, hcut]⟩

/-- What was saved is loaded again, unless `fat16_stat` found an entry under the name that is stored
    under another one. -/
theorem noteSave_noteLoad {fuel d : ℕ} {name : List UInt8} {v v' : Fat16.Volume}
    {nb₁ : NoteBuffer} (hv : nb.Valid) (hprint : ∀ s ∈ nb.texts, ∀ c ∈ s, Printable c)
    (h : Fat16.WellFormed v) (hspc : v.bpb.sectorsPerCluster ≤ 128)
    (hd : Fat16.ReachDir v none d) (hfuel : v.fuelBound ≤ fuel) (hp : Fat16.Printable name)
    (hblank : 32 ∉ name)
    (hfile : ∀ e w, Fat16.fat16Stat fuel d name v = some (some e, w) → e.isDir = false)
    (hown : ∀ t q, Fat16.nameTo83 name = some t → v.lookup d t = some q → (v.dirent q).name = t)
    (hrun : noteSave fuel d name nb v = some (true, nb₁, v')) :
    ∃ nb' w, noteLoad fuel d name v' = some (nb', w) ∧ nb'.lineCount = nb.lineCount ∧
      nb'.texts = nb.texts := by
  rw [noteSave_eq hv, Option.map_eq_some_iff] at hrun
  obtain ⟨⟨ok, v₁⟩, hwrite, heq⟩ := hrun
  obtain ⟨hok, -, hvol⟩ : ok = true ∧ _ ∧ v₁ = v' := by
    simpa only [Prod.mk.injEq] using heq
  subst hok hvol
  have hlen := hv.length_text_le
  have hreads := h.inv.readsBack hd hfuel hp hblank
    (by rw [Fat16.Volume.clusterSize]; omega) hfile hown hwrite
  obtain ⟨w, hload⟩ := noteLoad_of_readsBack hreads
  have hnl : ∀ s ∈ nb.texts, 0x0a ∉ s := fun s hs h10 =>
    absurd (hprint s hs _ h10).1 (by decide)
  obtain ⟨nb', hbytes, hsame⟩ := noteLoadBytes_text hv hnl
  refine ⟨nb', w, ?_, hsame⟩
  rw [hload, List.take_of_length_le (by omega), hbytes]
  rfl

/-- A text of three lines, the second of them empty. -/
theorem noteSave_noteLoad_lines : ∃ nb nb₁ v' nb' w,
    nb.texts = [[111, 110, 101], [], [116, 119, 111]] ∧
      noteSave 4 0 [65] nb (Fat16.blankVolume 1) = some (true, nb₁, v') ∧
      noteLoad 4 0 [65] v' = some (nb', w) ∧ nb'.lineCount = nb.lineCount ∧
      nb'.texts = nb.texts := by
  obtain ⟨nb, -, hv, -, htexts⟩ :=
    @noteLoadBytes_texts [111, 110, 101, 10, 10, 116, 119, 111] (by decide) (by decide)
  rw [show cutLines [111, 110, 101, 10, 10, 116, 119, 111] =
    [[111, 110, 101], [], [116, 119, 111]] by decide] at htexts
  have htext : nb.text = [111, 110, 101, 10, 10, 116, 119, 111] := by
    rw [NoteBuffer.text, htexts]
    rfl
  have hprint : ∀ s ∈ nb.texts, ∀ c ∈ s, Printable c := by
    rw [htexts]
    decide
  have hrun : Fat16.FileOp.run 4 0 [65] (.write [111, 110, 101, 10, 10, 116, 119, 111])
      (Fat16.blankVolume 1) = some (true, _) := Fat16.FileOp.run_eq_after (by decide)
  have hsave := noteSave_of_write hv (show Fat16.fat16WriteFile 4 0 [65] nb.text _ = _ by
    rw [htext]
    exact hrun)
  have hnone : (Fat16.blankVolume 1).lookup 0 (Fat16.name83 [65] []) = none := by decide
  have hwf : Fat16.WellFormed (Fat16.blankVolume 1) := Fat16.blankVolume_wellFormed (by decide)
  have ht : Fat16.nameTo83 [65] = some (Fat16.name83 [65] []) := by decide
  obtain ⟨nb', w, hload⟩ := noteSave_noteLoad hv hprint hwf (by decide) Fat16.reachDir_root
    (by decide) (by decide) (by decide) (fun e w h => by
      rw [Fat16.fat16Stat_eq_lookup hwf.inv Fat16.reachDir_root (by decide) ht, hnone] at h
      simp at h) (fun t q h hq => by
      obtain rfl := Option.some.inj (ht.symm.trans h)
      rw [hnone] at hq
      exact absurd hq (by simp)) hsave
  exact ⟨nb, _, _, nb', w, htexts, hsave, hload⟩

/-- The text goes to the file `A`, and the file `a` is loaded. -/
theorem noteSave_behind_lowerCase :
    ¬∀ (nb nb₁ : NoteBuffer) (v v' : Fat16.Volume) (d fuel : ℕ) (name : List UInt8), nb.Valid →
      (∀ s ∈ nb.texts, ∀ c ∈ s, Printable c) → Fat16.WellFormed v →
      (∀ d p, Fat16.Entry v none d p → Fat16.SpaceFree (v.dirent p).name) →
      v.bpb.sectorsPerCluster ≤ 128 → Fat16.ReachDir v none d → v.fuelBound ≤ fuel →
      Fat16.Printable name → 32 ∉ name →
      (∀ e w, Fat16.fat16Stat fuel d name v = some (some e, w) → e.isDir = false) →
      noteSave fuel d name nb v = some (true, nb₁, v') →
      ∃ nb' w, noteLoad fuel d name v' = some (nb', w) ∧ nb'.lineCount = nb.lineCount ∧
        nb'.texts = nb.texts := by
  intro hall
  -- the text is one character
  obtain ⟨nb, -, hv, -, htexts⟩ := @noteLoadBytes_texts [120] (by decide) (by decide)
  rw [show cutLines [120] = [[120]] by decide] at htexts
  have hrun : Fat16.FileOp.run 4 0 [65] (.write [120]) Fat16.lowerCaseVolume = some (true, _) :=
    Fat16.FileOp.run_eq_after (by decide)
  have htext : nb.text = [120] := by rw [NoteBuffer.text, htexts]; rfl
  have hsave := noteSave_of_write hv (show Fat16.fat16WriteFile 4 0 [65] nb.text _ = _ by
    rw [htext]
    exact hrun)
  obtain ⟨hwf, hspace⟩ := Fat16.lowerCaseVolume_wellFormed
  have hprint : ∀ s ∈ nb.texts, ∀ c ∈ s, Printable c := by
    intro s hs c hc
    rw [htexts, List.mem_singleton] at hs
    rw [hs, List.mem_singleton] at hc
    exact hc ▸ by decide
  obtain ⟨nb', w, hload, -, hsame⟩ := hall nb _ _ _ 0 4 [65] hv hprint hwf hspace
    (by decide) Fat16.reachDir_root (by decide) (by decide) (by decide)
    (fun e w h => by
      have hfile : (Fat16.fat16Stat 4 0 [65] Fat16.lowerCaseVolume).map
          (fun r => r.1.map (·.isDir)) = some (some false) := by decide
      rw [h] at hfile
      simpa using hfile) hsave
  -- but the file that is found is empty
  have hempty : (Fat16.fat16Stat 4 0 [65] (Fat16.FileOp.after 4 0 [65] (.write [120])
      Fat16.lowerCaseVolume)).map (fun r => r.1.map fun e => (e.isDir, e.size)) =
        some (some (false, 0)) := by
    decide
  obtain ⟨⟨found, v₁⟩, hstat, hfound⟩ := Option.map_eq_some_iff.mp hempty
  obtain ⟨e, rfl, he⟩ := Option.map_eq_some_iff.mp hfound
  obtain ⟨hfile, hsize⟩ := Prod.mk.inj he
  have hread : Fat16.fat16ReadFile e.firstCluster e.size 0 (min e.size 32767) v₁ = ([], v₁) := by
    rw [hsize, Fat16.fat16ReadFile, if_pos (Nat.le_refl 0)]
    split_ifs <;> rfl
  rw [noteLoad_of_file hstat hfile hread] at hload
  obtain ⟨nb₂, hbytes₂, heq⟩ := Option.map_eq_some_iff.mp hload
  obtain ⟨nb₃, hbytes₃, -, -, htexts₃⟩ := @noteLoadBytes_texts [] (by decide)
    List.not_mem_nil
  obtain ⟨rfl, -⟩ := Prod.mk.inj heq
  obtain rfl := Option.some.inj (hbytes₂.symm.trans hbytes₃)
  rw [htexts₃, htexts] at hsame
  exact absurd hsame (by decide)

end Save

/-- `note_load` and then `note_save`, with no edits in between. -/
def noteOpenSave (fuel dirCluster : ℕ) (filename : List UInt8) (v : Fat16.Volume) :
    Option (Bool × Fat16.Volume) := do
  let (nb, v) ← noteLoad fuel dirCluster filename v
  let (ok, _, v) ← noteSave fuel dirCluster filename nb v
  some (ok, v)

section OpenSave

variable {nb : NoteBuffer} {bytes data : List UInt8}

theorem notMem_of_mem_splitOn {l : List UInt8} (h : l ∈ bytes.splitOn 0x0a) : 0x0a ∉ l := by
  induction bytes generalizing l with
  | nil =>
    rw [List.splitOn_nil, List.mem_singleton] at h
    exact h ▸ List.not_mem_nil
  | cons c rest ih =>
    rw [List.splitOn_cons_eq_if_modifyHead] at h
    split_ifs at h with hc
    · obtain rfl | h := List.mem_cons.mp h
      · exact List.not_mem_nil
      · exact ih h
    · obtain ⟨l', ls, hsplit⟩ := List.exists_cons_of_ne_nil (List.splitOn_ne_nil 0x0a rest)
      rw [hsplit, List.modifyHead_cons] at h
      obtain rfl | h := List.mem_cons.mp h
      · have hne : ¬0x0a = c := fun heq => hc (beq_iff_eq.mpr heq.symm)
        exact List.not_mem_cons_of_ne_of_not_mem hne (ih (hsplit ▸ List.mem_cons_self))
      · exact ih (hsplit ▸ List.mem_cons_of_mem _ h)

theorem length_intercalate_take_le (n : ℕ) (ls : List (List UInt8)) :
    (List.intercalate [0x0a] (ls.map (·.take n))).length ≤ (List.intercalate [0x0a] ls).length := by
  induction ls with
  | nil => exact Nat.le_refl _
  | cons l ls ih =>
    have hl : (l.take n).length ≤ l.length := List.length_take_le' _ _
    rw [List.map_cons]
    by_cases hne : ls = []
    · subst hne
      rw [List.map_nil, List.intercalate_singleton, List.intercalate_singleton]
      exact hl
    · rw [List.intercalate_cons_of_ne_nil hne,
        List.intercalate_cons_of_ne_nil fun hnil => hne (List.map_eq_nil_iff.mp hnil)]
      simp only [List.length_append]
      omega

/-- Every line fits a row, and there are enough rows. -/
def Representable (data : List UInt8) : Prop :=
  (data.splitOn 0x0a).length ≤ noteMaxLines ∧
    ∀ l ∈ data.splitOn 0x0a, l.length ≤ noteMaxLineLen - 1

theorem Representable.length_le (h : Representable data) : data.length ≤ 20000 := by
  have hle := length_intercalate_le h.2
  rw [List.intercalate_splitOn] at hle
  exact hle.trans (Nat.mul_le_mul_left 100 h.1)

/-- What is loaded, cut, is the whole file exactly when the file can be represented. -/
theorem intercalate_cutLines_eq_iff (hle : (cutLines (data.take 32767)).length ≤ noteMaxLines) :
    List.intercalate [0x0a] (cutLines (data.take 32767)) = data ↔ Representable data := by
  constructor
  · intro heq
    have hshort := length_intercalate_take_le (noteMaxLineLen - 1) ((data.take 32767).splitOn 0x0a)
    rw [show List.map _ _ = cutLines (data.take 32767) from rfl, heq, List.intercalate_splitOn]
      at hshort
    have hwhole : data.take 32767 = data :=
      (List.take_prefix 32767 data).eq_of_length_le hshort
    rw [hwhole] at heq hle
    -- no line was cut
    have hcut : cutLines data = data.splitOn 0x0a := by
      have hlines : ∀ l ∈ cutLines data, 0x0a ∉ l := by
        intro l hl
        obtain ⟨l', hl', rfl⟩ := List.mem_map.mp hl
        exact fun h10 => notMem_of_mem_splitOn hl' (List.mem_of_mem_take h10)
      have hne : cutLines data ≠ [] := fun hnil =>
        List.splitOn_ne_nil 0x0a data (List.map_eq_nil_iff.mp hnil)
      rw [← List.splitOn_intercalate 0x0a hlines hne, heq]
    refine ⟨hcut ▸ hle, fun l hl => ?_⟩
    rw [← hcut] at hl
    exact length_le_of_mem_cutLines hl
  · intro h
    have hlen := h.length_le
    have hcut : cutLines data = data.splitOn 0x0a :=
      (List.map_congr_left fun l hl => List.take_of_length_le (h.2 l hl)).trans (List.map_id _)
    rw [List.take_of_length_le (by omega), hcut, List.intercalate_splitOn]

variable {fuel d : ℕ} {name : List UInt8} {t : Vector UInt8 11} {v : Fat16.Volume} {q : Fat16.Slot}

/-- What opening a file loads. -/
theorem noteLoad_of_fileAt (h : Fat16.Inv v none []) (hfuel : v.fuelBound ≤ fuel)
    (ht : Fat16.nameTo83 name = some t) (hq : v.lookup d t = some q)
    (hf : Fat16.FileAt v d q data) :
    noteLoad fuel d name v = (noteLoadBytes (data.take 32767)).map (·, v) := by
  have hstat := Fat16.fat16Stat_eq_lookup h hf.entry.reach hfuel ht
  rw [hq, Option.map_some] at hstat
  refine noteLoad_of_file hstat hf.file (Prod.ext ?_ (h.readFile_volume hf.entry _ _ _))
  refine (hf.read 0 (min (v.dirent q).fileSize.toNat 32767)).trans ?_
  rw [List.drop_zero, hf.size, Nat.min_comm, ← List.take_eq_take_min]

/-- Saving writes the text of the buffer to the entry that is stored under the name. -/
theorem fileAt_of_save {w : Fat16.Volume} (h : Fat16.WellFormed v)
    (hspc : v.bpb.sectorsPerCluster ≤ 128) (hfuel : v.fuelBound ≤ fuel) (hp : Fat16.Printable name)
    (ht : Fat16.nameTo83 name = some t) (hf : Fat16.FileAt v d q data)
    (hname : (v.dirent q).name = t) (hv : nb.Valid)
    (hwrite : Fat16.fat16WriteFile fuel d name nb.text v = some (true, w)) :
    Fat16.FileAt w d q nb.text := by
  have happ : (Fat16.FileOp.write nb.text).Applies v d name := fun p he hp => by
    obtain rfl := h.names d p q he hf.entry
      ((Option.some.inj (ht.symm.trans hp)).symm.trans hname.symm)
    exact hf.file
  obtain ⟨heff, hwrote⟩ :=
    Fat16.fat16WriteFile_of_success h.inv hf.entry.reach hfuel hp happ hwrite
  obtain ⟨v₁, p, hw⟩ := hwrote t ht
  obtain rfl := hw.slot_eq hf.entry hname
  have hlen := hv.length_text_le
  refine hw.fileAt heff.inv ?_
  rw [heff.geometry.clusterSize, Fat16.Volume.clusterSize]
  omega

/-- Opening and saving keeps the contents of the file that was opened exactly when the file can be
    represented; a file that is stored under another name is not written at all, but still too
    many lines leave the rows. -/
theorem noteOpenSave_unchanged_iff (h : Fat16.WellFormed v) (hspc : v.bpb.sectorsPerCluster ≤ 128)
    (hfuel : v.fuelBound ≤ fuel) (hp : Fat16.Printable name)
    (ht : Fat16.nameTo83 name = some t) (hq : v.lookup d t = some q)
    (hf : Fat16.FileAt v d q data) (hzero : 0 ∉ data)
    (hfile : ∀ p, Fat16.Entry v none d p → (v.dirent p).name = t → (v.dirent p).isDir = false)
    (hsave : ∀ nb w, noteLoad fuel d name v = some (nb, w) →
      ∃ nb' w', noteSave fuel d name nb w = some (true, nb', w')) :
    (∃ w, noteOpenSave fuel d name v = some (true, w) ∧ Fat16.FileAt w d q data) ↔
      Representable data ∨
        (v.dirent q).name ≠ t ∧ ((data.take 32767).splitOn 0x0a).length ≤ noteMaxLines := by
  have hload := noteLoad_of_fileAt h.inv hfuel ht hq hf
  have hcount : (cutLines (data.take 32767)).length = ((data.take 32767).splitOn 0x0a).length :=
    List.length_map _
  obtain hlt | hle := Nat.lt_or_ge noteMaxLines (cutLines (data.take 32767)).length
  · -- loading leaves the rows
    have hnone : noteOpenSave fuel d name v = none := by
      rw [noteOpenSave, hload, noteLoadBytes_eq_none hlt]
      rfl
    rw [hnone]
    refine ⟨fun ⟨w, hrun, _⟩ => absurd hrun (by simp), fun hor => ?_⟩
    obtain hrep | ⟨-, hlines⟩ := hor
    · have hlen := hrep.length_le
      have hlines := hrep.1
      rw [List.take_of_length_le (by omega)] at hcount hlt
      omega
    · omega
  · obtain ⟨nb, hbytes, hv, -, htexts⟩ := noteLoadBytes_texts hle fun h0 =>
      hzero (List.mem_of_mem_take h0)
    rw [hbytes, Option.map_some] at hload
    obtain ⟨nb', w, hrun⟩ := hsave nb v hload
    have hopen : noteOpenSave fuel d name v = some (true, w) := by
      rw [noteOpenSave, hload, Option.bind_eq_bind, Option.bind_some]
      exact Option.bind_eq_some_iff.mpr ⟨_, hrun, rfl⟩
    have hwrite : Fat16.fat16WriteFile fuel d name nb.text v = some (true, w) := by
      rw [noteSave_eq hv] at hrun
      obtain ⟨⟨ok, v'⟩, hwrite, heq⟩ := Option.map_eq_some_iff.mp hrun
      obtain ⟨hok, -, hvol⟩ : ok = true ∧ _ ∧ v' = w := by
        simpa only [Prod.mk.injEq] using heq
      rw [hwrite, hok, hvol]
    have hiff : (∃ w', noteOpenSave fuel d name v = some (true, w') ∧
        Fat16.FileAt w' d q data) ↔ Fat16.FileAt w d q data := by
      rw [hopen]
      constructor
      · rintro ⟨w', heq, hf'⟩
        exact (Prod.mk.inj (Option.some.inj heq)).2 ▸ hf'
      · exact fun hf' => ⟨w, rfl, hf'⟩
    rw [hiff]
    by_cases hname : (v.dirent q).name = t
    · -- the entry is written with the text of the buffer
      have hf' := fileAt_of_save h hspc hfuel hp ht hf hname hv hwrite
      have htext : nb.text = data ↔ Representable data := by
        rw [NoteBuffer.text, htexts]
        exact intercalate_cutLines_eq_iff hle
      rw [← htext]
      constructor
      · exact fun h => Or.inl (hf'.unique h)
      · rintro (heq | ⟨hne, -⟩)
        · exact heq ▸ hf'
        · exact absurd hname hne
    · -- another entry is written
      obtain ⟨heff, -⟩ := Fat16.fat16WriteFile_of_success h.inv hf.entry.reach hfuel hp
        (fun p he hp => hfile p he (Option.some.inj (ht.symm.trans hp)).symm) hwrite
      have hf' := hf.effect h.inv heff fun heq => hname (Option.some.inj (heq.symm.trans ht))
      exact ⟨fun _ => Or.inr ⟨hname, by omega⟩, fun _ => hf'⟩

theorem noteOpenSave_eq {w : Fat16.Volume} (hload : noteLoad fuel d name v = some (nb, v))
    (hv : nb.Valid) (hwrite : Fat16.fat16WriteFile fuel d name nb.text v = some (true, w)) :
    noteOpenSave fuel d name v = some (true, w) := by
  rw [noteOpenSave, hload, Option.bind_eq_bind, Option.bind_some]
  exact Option.bind_eq_some_iff.mpr ⟨_, noteSave_of_write hv hwrite, rfl⟩

/-- A volume with a file `A` of one line that is too long for a row. -/
def longLineVolume : Fat16.Volume :=
  Fat16.FileOp.after 4 0 [65] (.write (List.replicate 100 120)) (Fat16.blankVolume 1)

/-- The last character of the line is lost. -/
theorem noteOpenSave_cuts_line :
    ¬∀ (fuel d : ℕ) (name data : List UInt8) (t : Vector UInt8 11) (v w : Fat16.Volume)
      (q : Fat16.Slot), Fat16.WellFormed v → v.bpb.sectorsPerCluster ≤ 128 →
      v.fuelBound ≤ fuel → Fat16.Printable name → 32 ∉ name → Fat16.nameTo83 name = some t →
      v.lookup d t = some q → (v.dirent q).name = t → Fat16.FileAt v d q data → 0 ∉ data →
      noteOpenSave fuel d name v = some (true, w) → Fat16.FileAt w d q data := by
  intro hall
  have hrun₀ : Fat16.FileOp.run 4 0 [65] (.write (List.replicate 100 120))
      (Fat16.blankVolume 1) = some (true, longLineVolume) :=
    Fat16.FileOp.run_eq_after (by decide)
  obtain ⟨hwf, hg, p, hf⟩ := Fat16.write_blank_holdsFile
    (by rw [List.length_replicate]; decide) hrun₀
  have hspc : longLineVolume.bpb.sectorsPerCluster ≤ 128 := by decide
  have hfuel : longLineVolume.fuelBound ≤ 4 := by decide
  have hp : Fat16.Printable [65] := by decide
  have ht : Fat16.nameTo83 [65] = some (Fat16.name83 [65] []) := by decide
  have hslot : longLineVolume.lookup 0 (Fat16.name83 [65] []) = some ⟨3, 0⟩ := by decide
  obtain rfl := Option.some.inj (hf.lookup.symm.trans hslot)
  have hname : (longLineVolume.dirent ⟨3, 0⟩).name = Fat16.name83 [65] [] := by decide
  -- the buffer holds 99 characters
  have hcut : cutLines ((List.replicate 100 120).take 32767) = [List.replicate 99 120] := by
    decide
  obtain ⟨nb, hbytes, hv, -, htexts⟩ := @noteLoadBytes_texts ((List.replicate 100 120).take 32767)
    (by rw [hcut]; decide) (by decide)
  have htext : nb.text = List.replicate 99 120 := by
    rw [NoteBuffer.text, htexts, hcut, List.intercalate_singleton]
  have hload := noteLoad_of_fileAt hwf.inv hfuel ht hslot hf.fileAt
  rw [hbytes, Option.map_some] at hload
  obtain ⟨w, hwrite⟩ : ∃ w, Fat16.FileOp.run 4 0 [65] (.write (List.replicate 99 120))
      longLineVolume = some (true, w) := ⟨_, Fat16.FileOp.run_eq_after (by decide)⟩
  rw [← htext] at hwrite
  have hfile := fileAt_of_save hwf hspc hfuel hp ht hf.fileAt hname hv hwrite
  have hsame := hall 4 0 [65] _ _ _ _ _ hwf hspc hfuel hp (by decide) ht hslot hname hf.fileAt
    (by decide) (noteOpenSave_eq hload hv hwrite)
  have heq := hsame.unique hfile
  rw [htext] at heq
  exact absurd (congrArg List.length heq) (by simp)

theorem noteOpenSave_unchanged_iff_oneFile :
    ∃ w, noteOpenSave 4 0 [65] Fat16.oneFileVolume = some (true, w) ∧
      Fat16.FileAt w 0 ⟨3, 0⟩ [120] := by
  have hrun₀ : Fat16.FileOp.run 4 0 [65] (.write [120]) (Fat16.blankVolume 1) =
      some (true, Fat16.oneFileVolume) := Fat16.FileOp.run_eq_after (by decide)
  obtain ⟨hwf, hg, p, hf⟩ := Fat16.write_blank_holdsFile (by decide) hrun₀
  have hfuel : Fat16.oneFileVolume.fuelBound ≤ 4 := by decide
  have ht : Fat16.nameTo83 [65] = some (Fat16.name83 [65] []) := by decide
  have hslot : Fat16.oneFileVolume.lookup 0 (Fat16.name83 [65] []) = some ⟨3, 0⟩ := by
    decide
  obtain rfl := Option.some.inj (hf.lookup.symm.trans hslot)
  have hname : (Fat16.oneFileVolume.dirent ⟨3, 0⟩).name = Fat16.name83 [65] [] := by
    decide
  refine (noteOpenSave_unchanged_iff hwf (by decide) hfuel (by decide) ht hslot
    hf.fileAt (by decide) (fun p he hp => ?_) fun nb w hload => ?_).mpr
      (Or.inl ⟨by decide, by decide⟩)
  · rw [hwf.names 0 p _ he hf.fileAt.entry (hp.trans hname.symm)]
    exact hf.file
  · rw [noteLoad_of_fileAt hwf.inv hfuel ht hslot hf.fileAt] at hload
    obtain ⟨nb', hbytes, heq⟩ := Option.map_eq_some_iff.mp hload
    obtain ⟨rfl, rfl⟩ := Prod.mk.inj heq
    have hcut : cutLines ([120].take 32767) = [[120]] := by decide
    obtain ⟨nb', hbytes', hv, -, htexts⟩ := @noteLoadBytes_texts ([120].take 32767)
      (by rw [hcut]; decide) (by decide)
    obtain rfl := Option.some.inj (hbytes.symm.trans hbytes')
    have htext : nb'.text = [120] := by
      rw [NoteBuffer.text, htexts, hcut, List.intercalate_singleton]
    have hrun : Fat16.FileOp.run 4 0 [65] (.write [120]) Fat16.oneFileVolume = some (true, _) :=
      Fat16.FileOp.run_eq_after (by decide)
    exact ⟨_, _, noteSave_of_write hv (show Fat16.fat16WriteFile 4 0 [65] nb'.text _ = _ by
      rw [htext]
      exact hrun)⟩

end OpenSave

end AuroraOS.Notes
