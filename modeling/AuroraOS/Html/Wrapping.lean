import AuroraOS.Html.VisibleText

/-!
# The text of the lines

The layout takes the words of the spans for words of the page. Where the walk can tell the items of
a page apart, the lines show its visible text exactly when no word of it is cut by a closing tag,
longer than a line, or ended by a NUL.

## Main definitions

- `htmlFitLines` — the lines, with room for any number of runs and lines
- `HtmlFits` — the limits that a page has to keep

## Main results

- `htmlLines_eq` — the layout of a page that keeps the limits
- `htmlFitLines_wrapped`, `htmlFitLines_ink`
- `htmlLayoutWithCss_text_iff`
-/

namespace AuroraOS.Html

set_option maxRecDepth 16384

open Lib Css

/-- A word on a line with room for any number of runs. -/
def htmlAddWord (gap word : List UInt8) (style : HtmlStyleFrame) : List HtmlRun → List HtmlRun
  | [] => [⟨gap ++ word, style.color, style.background, style.hasBackground, style.bold⟩]
  | last :: runs =>
    if last.canExtend style (gap.length + word.length) then
      { last with text := last.text ++ gap ++ word } :: runs
    else ⟨gap ++ word, style.color, style.background, style.hasBackground, style.bold⟩ ::
      last :: runs

/-- The runs that a line needs, and the spans behind it. -/
def htmlFitLine (cols : ℕ) : List HtmlSpan → ℕ → List HtmlRun → List HtmlRun × List HtmlSpan
  | [], _, runs => (runs, [])
  | .lineBreak align :: spans, _, runs => (runs, .lineBreak align :: spans)
  | .word text style :: spans, col, runs =>
    let word := text.take cols
    if col > 0 ∧ col + 1 + word.length > cols then (runs, .word text style :: spans)
    else htmlFitLine cols spans (col + (word.length + (htmlGap col).length))
      (htmlAddWord (htmlGap col) word style runs)

theorem htmlFitLine_suffix (cols : ℕ) (spans : List HtmlSpan) (col : ℕ) (runs : List HtmlRun) :
    (htmlFitLine cols spans col runs).2 <:+ spans := by
  induction spans generalizing col runs with
  | nil => exact List.suffix_refl _
  | cons span spans ih =>
    cases span with
    | lineBreak align => exact List.suffix_refl _
    | word text style =>
      rw [htmlFitLine]
      split_ifs
      · exact List.suffix_refl _
      · exact (ih _ _).trans (List.suffix_cons _ _)

/-- The line that starts with a word. -/
def htmlFirstLine (cols : ℕ) (text : List UInt8) (style : HtmlStyleFrame) (spans : List HtmlSpan) :
    List HtmlRun × List HtmlSpan :=
  htmlFitLine cols spans (text.take cols).length (htmlAddWord [] (text.take cols) style [])

/-- The runs that the lines need, the last one of a line first. -/
def htmlFitLines (cols : ℕ) : List HtmlSpan → List (List HtmlRun)
  | [] => []
  | .lineBreak _ :: spans => htmlFitLines cols spans
  | .word text style :: spans =>
    (htmlFirstLine cols text style spans).1 ::
      htmlFitLines cols (htmlFirstLine cols text style spans).2
termination_by spans => spans.length
decreasing_by
  · exact Nat.lt_succ_self _
  · exact Nat.lt_succ_of_le (htmlFitLine_suffix _ _ _ _).length_le

/-- The text of the runs of a line, of which the last one comes first. -/
def htmlRunsText (runs : List HtmlRun) : List UInt8 := (runs.reverse.map HtmlRun.text).flatten

/-- The text of a line. -/
def HtmlLine.text (line : HtmlLine) : List UInt8 := (line.runs.map HtmlRun.text).flatten

section Limits

variable {cols col : ℕ} {gap word : List UInt8} {style : HtmlStyleFrame} {runs : List HtmlRun}
  {spans : List HtmlSpan}

theorem length_le_htmlAddWord (gap word : List UInt8) (style : HtmlStyleFrame)
    (runs : List HtmlRun) :
    runs.length ≤ (htmlAddWord gap word style runs).length := by
  cases runs with
  | nil => exact Nat.zero_le _
  | cons last runs =>
    rw [htmlAddWord]
    split_ifs
    · exact Nat.le_refl _
    · exact Nat.le_succ _

theorem length_le_htmlFitLine (cols : ℕ) (spans : List HtmlSpan) (col : ℕ) (runs : List HtmlRun) :
    runs.length ≤ (htmlFitLine cols spans col runs).1.length := by
  induction spans generalizing col runs with
  | nil => exact Nat.le_refl _
  | cons span spans ih =>
    cases span with
    | lineBreak align => exact Nat.le_refl _
    | word text style =>
      rw [htmlFitLine]
      split_ifs
      · exact Nat.le_refl _
      · exact (length_le_htmlAddWord _ _ _ _).trans (ih _ _)

theorem htmlNewRun_eq (hlen : gap.length + word.length < htmlRunTextMax)
    (hruns : runs.length < htmlMaxRunsPerLine) :
    htmlNewRun gap word style runs =
      some (⟨gap ++ word, style.color, style.background, style.hasBackground, style.bold⟩ ::
        runs) := by
  rw [htmlNewRun, if_pos hruns]
  dsimp only
  rw [if_neg (by omega), List.take_length, storeText, if_pos (by rwa [List.length_append])]
  rfl

/-- A word that fits into a run is placed as a whole. -/
theorem htmlPlaceWord_eq (hlen : gap.length + word.length < htmlRunTextMax)
    (hruns : (htmlAddWord gap word style runs).length ≤ htmlMaxRunsPerLine) :
    htmlPlaceWord gap word style runs = some (htmlAddWord gap word style runs) := by
  cases runs with
  | nil => exact htmlNewRun_eq hlen (by decide)
  | cons last runs =>
    rw [htmlAddWord] at hruns ⊢
    rw [htmlPlaceWord]
    split_ifs at hruns ⊢ with hextend
    · have hroom := (of_decide_eq_true hextend).2.2.2.2
      rw [storeText, if_pos (by rw [List.length_append, List.length_append]; omega)]
      rfl
    · exact htmlNewRun_eq hlen hruns

theorem length_htmlGap_le (col : ℕ) : (htmlGap col).length ≤ 1 := by
  rw [htmlGap]
  split_ifs
  · exact Nat.le_refl 1
  · exact Nat.zero_le 1

/-- The words of a stream of spans fit into a run, behind a space. -/
def WordsShort (spans : List HtmlSpan) : Prop :=
  ∀ text style, HtmlSpan.word text style ∈ spans → text.length < htmlRunTextMax - 1

theorem WordsShort.of_suffix {spans' : List HtmlSpan} (h : WordsShort spans)
    (hsuffix : spans' <:+ spans) : WordsShort spans' :=
  fun text style hmem => h text style (hsuffix.mem hmem)

/-- A line is filled as it would be with room for any number of runs. -/
theorem htmlFillLine_eq (hshort : WordsShort spans)
    (hruns : (htmlFitLine cols spans col runs).1.length ≤ htmlMaxRunsPerLine) (anyWord : Bool) :
    ∃ anyWord', htmlFillLine cols spans col runs anyWord =
        some ((htmlFitLine cols spans col runs).1, anyWord', (htmlFitLine cols spans col runs).2) ∧
      (anyWord = true → anyWord' = true) := by
  induction spans generalizing col runs anyWord with
  | nil => exact ⟨anyWord, rfl, id⟩
  | cons span spans ih =>
    cases span with
    | lineBreak align => exact ⟨anyWord, rfl, id⟩
    | word text style =>
      rw [htmlFitLine] at hruns ⊢
      rw [htmlFillLine]
      split_ifs at hruns ⊢ with hfull
      · exact ⟨anyWord, rfl, id⟩
      · have hplaced := (length_le_htmlFitLine _ _ _ _).trans hruns
        have hlen : (htmlGap col).length + (text.take cols).length < htmlRunTextMax := by
          have htext := hshort text style List.mem_cons_self
          have hgap := length_htmlGap_le col
          rw [List.length_take]
          omega
        obtain ⟨anyWord', hfill, hany⟩ := ih (hshort.of_suffix (List.suffix_cons _ _)) hruns true
        rw [htmlPlaceWord_eq hlen hplaced, Option.bind_eq_bind, Option.bind_some]
        exact ⟨anyWord', hfill, fun _ => hany rfl⟩

/-- A line that starts with a word is filled in the same way. -/
theorem htmlFillLine_firstLine {text : List UInt8} (hshort : WordsShort (.word text style :: spans))
    (hruns : (htmlFirstLine cols text style spans).1.length ≤ htmlMaxRunsPerLine) :
    htmlFillLine cols (.word text style :: spans) 0 [] false =
      some ((htmlFirstLine cols text style spans).1, true,
        (htmlFirstLine cols text style spans).2) := by
  have hlen : (htmlGap 0).length + (text.take cols).length < htmlRunTextMax := by
    have htext := hshort text style List.mem_cons_self
    have hgap := length_htmlGap_le 0
    rw [List.length_take]
    omega
  have hplace := htmlPlaceWord_eq hlen
    (show (htmlAddWord (htmlGap 0) (text.take cols) style []).length ≤ htmlMaxRunsPerLine from
      Nat.le_of_ble_eq_true rfl)
  obtain ⟨anyWord', hfill, hany⟩ :=
    htmlFillLine_eq (hshort.of_suffix (List.suffix_cons _ _)) hruns true
  rw [htmlFillLine, if_neg fun h => absurd h.1 (Nat.lt_irrefl 0), hplace, Option.bind_eq_bind,
    Option.bind_some, Nat.zero_add]
  rw [hany rfl] at hfill
  exact hfill

theorem htmlFitLines_dropWhile (cols : ℕ) (spans : List HtmlSpan) :
    htmlFitLines cols (spans.dropWhile HtmlSpan.isBreak) = htmlFitLines cols spans := by
  induction spans with
  | nil => rfl
  | cons span spans ih =>
    cases span with
    | lineBreak align => rw [htmlFitLines]; exact ih
    | word text style => rfl

theorem htmlFitLines_skipBreak (cols : ℕ) (spans : List HtmlSpan) :
    htmlFitLines cols (htmlSkipBreak spans) = htmlFitLines cols spans := by
  cases spans with
  | nil => rfl
  | cons span spans =>
    cases span with
    | lineBreak align => rw [htmlFitLines, htmlSkipBreak]
    | word text style => rfl

/-- The lines are those that would be there with room for any number of them. -/
theorem htmlLines_eq {fuel : ℕ} {lines : List HtmlLine} (hshort : WordsShort spans)
    (hruns : ∀ runs ∈ htmlFitLines cols spans, runs.length ≤ htmlMaxRunsPerLine)
    (hlines : lines.length + (htmlFitLines cols spans).length < htmlMaxLines)
    (hfuel : spans.length < fuel) (prevBlank : Bool) :
    ∃ lines', htmlLines cols fuel spans lines prevBlank = some (lines ++ lines') ∧
      lines'.map HtmlLine.runs = (htmlFitLines cols spans).map List.reverse := by
  induction fuel generalizing spans lines prevBlank with
  | zero => exact absurd hfuel (Nat.not_lt_zero _)
  | succ fuel ih =>
    rw [← htmlFitLines_dropWhile] at hruns hlines ⊢
    have hsuffix := List.dropWhile_suffix HtmlSpan.isBreak (l := spans)
    rw [htmlLines]
    cases hdrop : spans.dropWhile HtmlSpan.isBreak with
    | nil =>
      refine ⟨[], ?_, by rw [htmlFitLines]; rfl⟩
      rw [List.append_nil]
      split_ifs
      · rfl
      · rfl
    | cons span spans' =>
      have hword := not_of_dropWhile_eq_cons hdrop
      rw [hdrop] at hsuffix hruns hlines
      cases span with
      | lineBreak align => exact absurd hword Bool.true_eq_false_eq_False
      | word text style =>
        have hne : spans ≠ [] := fun hnil => by
          rw [hnil] at hsuffix
          exact List.cons_ne_nil _ _ (List.suffix_nil.mp hsuffix)
        have hrest := (htmlSkipBreak_suffix (htmlFirstLine cols text style spans').2).trans
          (htmlFitLine_suffix cols spans' _ _)
        have hrest_len := hrest.length_le
        have hlen := hsuffix.length_le
        rw [List.length_cons] at hlen
        rw [htmlFitLines, List.length_cons] at hlines
        rw [htmlFitLines] at hruns ⊢
        rw [← htmlFitLines_skipBreak] at hruns hlines ⊢
        rw [if_pos ⟨hne, by omega⟩]
        dsimp only
        rw [htmlFillLine_firstLine (hshort.of_suffix hsuffix) (hruns _ List.mem_cons_self),
          Option.bind_eq_bind, Option.bind_some]
        dsimp only
        rw [if_pos (Or.inl rfl)]
        obtain ⟨line, hline, halign⟩ : ∃ line : HtmlLine, line.runs =
            (htmlFirstLine cols text style spans').1.reverse ∧ line =
              ⟨(htmlFirstLine cols text style spans').1.reverse,
                HtmlSpan.align (.word text style)⟩ :=
          ⟨_, rfl, rfl⟩
        rw [← halign]
        obtain ⟨lines', hlines', hmap⟩ := ih
          (hshort.of_suffix (hrest.trans ((List.suffix_cons _ _).trans hsuffix)))
          (fun runs hmem => hruns runs (List.mem_cons_of_mem _ hmem))
          (show (lines ++ [line]).length + _ < htmlMaxLines by
            rw [List.length_append, List.length_singleton]
            omega)
          (by omega) (!true)
        rw [List.append_assoc] at hlines'
        exact ⟨line :: lines', hlines', by rw [List.map_cons, List.map_cons, hmap, hline]⟩

end Limits

section Text

variable {cols col : ℕ} {runs : List HtmlRun} {spans : List HtmlSpan}

/-- A word is shown behind the text of its line. -/
theorem htmlRunsText_addWord (gap word : List UInt8) (style : HtmlStyleFrame)
    (runs : List HtmlRun) :
    htmlRunsText (htmlAddWord gap word style runs) = htmlRunsText runs ++ (gap ++ word) := by
  have hcons : ∀ (run : HtmlRun) runs, htmlRunsText (run :: runs) =
    htmlRunsText runs ++ run.text := by
    intro run runs
    rw [htmlRunsText, htmlRunsText, List.reverse_cons, List.map_append, List.flatten_append,
      List.map_singleton, List.flatten_singleton]
  cases runs with
  | nil => exact hcons _ []
  | cons last runs =>
    rw [htmlAddWord]
    split_ifs
    · rw [hcons, hcons, List.append_assoc, List.append_assoc]
    · exact hcons _ _

/-- The characters of the words that the layout shows. -/
def htmlInk (cols : ℕ) (spans : List HtmlSpan) : ℕ :=
  ((spans.map HtmlSpan.item).reduceOption.flatMap (List.take cols)).countP (· ≠ ascii ' ')

theorem htmlInk_word (cols : ℕ) (text : List UInt8) (style : HtmlStyleFrame)
    (spans : List HtmlSpan) :
    htmlInk cols (.word text style :: spans) =
      (text.take cols).countP (· ≠ ascii ' ') + htmlInk cols spans :=
  List.countP_append

theorem countP_htmlGap (col : ℕ) : (htmlGap col).countP (· ≠ ascii ' ') = 0 := by
  rw [htmlGap]
  split_ifs
  · rfl
  · rfl

/-- A line shows the characters of its words. -/
theorem htmlFitLine_ink (cols : ℕ) (spans : List HtmlSpan) (col : ℕ) (runs : List HtmlRun) :
    (htmlRunsText (htmlFitLine cols spans col runs).1).countP (· ≠ ascii ' ') +
        htmlInk cols (htmlFitLine cols spans col runs).2 =
      (htmlRunsText runs).countP (· ≠ ascii ' ') + htmlInk cols spans := by
  induction spans generalizing col runs with
  | nil => rfl
  | cons span spans ih =>
    cases span with
    | lineBreak align => rfl
    | word text style =>
      rw [htmlFitLine]
      split_ifs
      · rfl
      · rw [ih, htmlRunsText_addWord, List.countP_append, List.countP_append, countP_htmlGap,
          htmlInk_word]
        omega

/-- The lines show the characters of all words. -/
theorem htmlFitLines_ink (cols : ℕ) (spans : List HtmlSpan) :
    ((htmlFitLines cols spans).map htmlRunsText).flatten.countP (· ≠ ascii ' ') =
      htmlInk cols spans := by
  fun_induction htmlFitLines cols spans with
  | case1 => rfl
  | case2 align spans ih => exact ih
  | case3 text style spans ih =>
    have hline := htmlFitLine_ink cols spans (text.take cols).length
      (htmlAddWord [] (text.take cols) style [])
    rw [htmlRunsText_addWord] at hline
    rw [List.map_cons, List.flatten_cons, List.countP_append, ih, htmlInk_word]
    exact hline

/-- The words of a stream of spans are neither empty nor wider than a line. -/
def WordsWhole (cols : ℕ) (spans : List HtmlSpan) : Prop :=
  ∀ text, some text ∈ spans.map HtmlSpan.item → text ≠ [] ∧ text.length ≤ cols

theorem WordsWhole.of_suffix {spans' : List HtmlSpan} (h : WordsWhole cols spans)
    (hsuffix : spans' <:+ spans) : WordsWhole cols spans' :=
  fun text hmem => h text ((hsuffix.map HtmlSpan.item).mem hmem)

/-- The words that a line already shows: `col` is the width of their text. -/
structure LineShows (cols col : ℕ) (runs : List HtmlRun) (group : List (List UInt8)) : Prop where
  text : htmlRunsText runs = [ascii ' '].intercalate group
  width : col = ([ascii ' '].intercalate group).length
  pos : group ≠ [] → 0 < col
  le : group ≠ [] → col ≤ cols

/-- A word that fits on the line is shown behind a single space. -/
theorem LineShows.add {group : List (List UInt8)} (h : LineShows cols col runs group)
    {word : List UInt8} (hword : word ≠ [] ∧ word.length ≤ cols)
    (hfit : ¬(col > 0 ∧ col + 1 + word.length > cols)) (style : HtmlStyleFrame) :
    LineShows cols (col + (word.length + (htmlGap col).length))
      (htmlAddWord (htmlGap col) word style runs) (group ++ [word]) := by
  have hpos := List.length_pos_iff.mpr hword.1
  have hle : col + (word.length + (htmlGap col).length) ≤ cols := by
    rw [htmlGap]
    split_ifs with hcol
    · rw [List.length_singleton]
      omega
    · rw [List.length_nil]
      omega
  have htext : [ascii ' '].intercalate (group ++ [word]) =
      [ascii ' '].intercalate group ++ (htmlGap col ++ word) := by
    by_cases hgroup : group = []
    · have hcol : col = 0 := by rw [h.width, hgroup]; rfl
      rw [hgroup, hcol, List.nil_append, List.intercalate_singleton]
      rfl
    · rw [intercalate_append_singleton hgroup, htmlGap, if_pos (h.pos hgroup)]
      rfl
  refine ⟨?_, ?_, fun _ => by omega, fun _ => hle⟩
  · rw [htmlRunsText_addWord, h.text, htext]
  · rw [htext, List.length_append, List.length_append, ← h.width]
    omega

/-- A line shows the words that are on it, in order. -/
theorem htmlFitLine_shows (hwhole : WordsWhole cols spans) {group : List (List UInt8)}
    (h : LineShows cols col runs group) :
    ∃ col' group', LineShows cols col' (htmlFitLine cols spans col runs).1 (group ++ group') ∧
      spans.map HtmlSpan.item =
        group'.map some ++ (htmlFitLine cols spans col runs).2.map HtmlSpan.item := by
  induction spans generalizing col runs group with
  | nil => exact ⟨col, [], by rwa [List.append_nil], rfl⟩
  | cons span spans ih =>
    cases span with
    | lineBreak align => exact ⟨col, [], by rwa [List.append_nil], rfl⟩
    | word text style =>
      have hword := hwhole text List.mem_cons_self
      rw [htmlFitLine, List.take_of_length_le hword.2]
      split_ifs with hfull
      · exact ⟨col, [], by rwa [List.append_nil], rfl⟩
      · obtain ⟨col', group', hline, hitems⟩ :=
          ih (hwhole.of_suffix (List.suffix_cons _ _)) (h.add hword hfull style)
        refine ⟨col', text :: group', ?_, ?_⟩
        · rwa [List.append_assoc, List.singleton_append] at hline
        · exact congrArg (some text :: ·) hitems

/-- Words that are whole are wrapped. -/
theorem htmlFitLines_wrapped (hwhole : WordsWhole cols spans) :
    Wrapped (ascii ' ') cols (spans.map HtmlSpan.item)
      ((htmlFitLines cols spans).map htmlRunsText) := by
  fun_induction htmlFitLines cols spans with
  | case1 => exact .nil
  | case2 align spans ih => exact .lineBreak (ih (hwhole.of_suffix (List.suffix_cons _ _)))
  | case3 text style spans ih =>
    have hword := hwhole text List.mem_cons_self
    have hspans := hwhole.of_suffix (List.suffix_cons _ _)
    have hempty : LineShows cols 0 [] [] := ⟨rfl, rfl, fun h => absurd rfl h, fun h => absurd rfl h⟩
    have hfirst := hempty.add hword (fun h => Nat.lt_irrefl 0 h.1) style
    rw [Nat.zero_add, htmlGap, if_neg (Nat.lt_irrefl 0), List.length_nil, Nat.add_zero] at hfirst
    obtain ⟨col', group, hline, hitems⟩ := htmlFitLine_shows hspans hfirst
    have hne : [text] ++ group ≠ [] := List.cons_ne_nil _ _
    have hrest := ih (hspans.of_suffix (htmlFitLine_suffix _ _ _ _))
    rw [htmlFirstLine, List.take_of_length_le hword.2] at hrest ⊢
    have hwrapped := Wrapped.line hne (hline.width ▸ hline.le hne) hrest
    rw [List.map_append, List.append_assoc, ← hitems] at hwrapped
    rw [List.map_cons, List.map_cons, hline.text]
    exact hwrapped

end Text

/-- The limits of a page: the lengths of its words, and the spans, lines and runs that it needs. -/
structure HtmlFits (sheet : CssSheet) (items : List HtmlItem) (cols : ℕ) : Prop where
  words : ∀ w, some w ∈ htmlText items → w.length ≤ 60
  spans : (htmlOutput sheet (items.map HtmlItem.token) .start).length ≤ htmlMaxSpans
  lines : (htmlFitLines cols (htmlOutput sheet (items.map HtmlItem.token) .start)).length <
    htmlMaxLines
  runs : ∀ runs ∈ htmlFitLines cols (htmlOutput sheet (items.map HtmlItem.token) .start),
    runs.length ≤ htmlMaxRunsPerLine

section Fidelity

variable {sheet : CssSheet} {items : List HtmlItem} {cols : ℕ}

/-- The words of the text with the cuts. -/
abbrev htmlCutText (items : List HtmlItem) : List (Option (List UInt8)) :=
  pieceItems [] (htmlPieces 0 false (items.map HtmlItem.token))

theorem HtmlMarkup.text_eq (h : HtmlMarkup items) : htmlText items =
    pieceItems [] (uncutPieces (htmlPieces 0 false (items.map HtmlItem.token))) := by
  rw [uncutPieces_htmlPieces h]
  rfl

theorem HtmlFits.cutWords (h : HtmlFits sheet items cols) (hmarkup : HtmlMarkup items) :
    ∀ w, some w ∈ htmlCutText items → w.length ≤ 60 :=
  length_le_of_uncut (Nat.le_refl _) fun w hw => h.words w (hmarkup.text_eq ▸ hw)

theorem HtmlFits.shows (h : HtmlFits sheet items cols) (hmarkup : HtmlMarkup items) :
    Shows (htmlOutput sheet (items.map HtmlItem.token) .start) (htmlCutText items) :=
  htmlOutput_shows fun w hw => Nat.lt_of_le_of_lt (h.cutWords hmarkup w hw) (by decide)

theorem Shows.wordsShort {spans : List HtmlSpan} {words : List (Option (List UInt8))}
    (h : Shows spans words) (hwords : ∀ w, some w ∈ words → w.length ≤ 60) : WordsShort spans := by
  intro text style hmem
  have hitem : some text ∈ spans.map HtmlSpan.item := List.mem_map.mpr ⟨_, hmem, rfl⟩
  rw [h] at hitem
  obtain ⟨item, hw, htext⟩ := List.mem_map.mp hitem
  obtain ⟨w, rfl, rfl⟩ := Option.map_eq_some_iff.mp htext
  exact Nat.lt_of_le_of_lt ((length_cString_le w).trans (hwords w hw)) (by decide)

/-- A line has at least one run. -/
theorem ne_nil_of_mem_htmlFitLines {spans : List HtmlSpan} {runs : List HtmlRun}
    (h : runs ∈ htmlFitLines cols spans) : runs ≠ [] := by
  fun_induction htmlFitLines cols spans with
  | case1 => exact absurd h List.not_mem_nil
  | case2 align spans ih => exact ih h
  | case3 text style spans ih =>
    obtain rfl | h := List.mem_cons.mp h
    · exact List.length_pos_iff.mp (Nat.lt_of_lt_of_le Nat.one_pos
        (length_le_htmlFitLine cols spans _ (htmlAddWord [] (text.take cols) style [])))
    · exact ih h

/-- No line is dropped at the end. -/
theorem rdropWhile_eq_self {lines : List HtmlLine} {spans : List HtmlSpan}
    (h : lines.map HtmlLine.runs = (htmlFitLines cols spans).map List.reverse) :
    (lines.rdropWhile fun line => line.runs.isEmpty) = lines := by
  refine List.rdropWhile_eq_self_iff.mpr fun hne hempty => ?_
  have hmem : (lines.getLast hne).runs ∈ lines.map HtmlLine.runs :=
    List.mem_map_of_mem (List.getLast_mem hne)
  rw [h] at hmem
  obtain ⟨runs, hruns, heq⟩ := List.mem_map.mp hmem
  rw [← heq, List.isEmpty_iff, List.reverse_eq_nil_iff] at hempty
  exact ne_nil_of_mem_htmlFitLines hruns hempty

/-- A page that keeps the limits is laid out as it would be with room for anything. -/
theorem HtmlFits.layout {extraCss : List UInt8} {wrapCols : ℤ} {fuel : ℕ}
    (h : HtmlFits sheet items (htmlClampCols wrapCols)) (hmarkup : HtmlMarkup items)
    (hplain : ∀ item ∈ items, item.Plain) (hsized : HtmlSized (htmlPageText items))
    (hfuel : (htmlPageText items).length + htmlMaxSpans + htmlAttrValueMax < fuel)
    (hsheet : (htmlExtraSheet extraCss fuel).bind
      (htmlCollectStylesheets (htmlPageText items) fuel 0) = some sheet) :
    ∃ page, htmlLayoutWithCss (htmlPageText items) extraCss wrapCols fuel = some page ∧
      page.lines.map HtmlLine.text = (htmlFitLines (htmlClampCols wrapCols)
        (htmlOutput sheet (items.map HtmlItem.token) .start)).map htmlRunsText := by
  obtain ⟨title, hwalk⟩ := htmlWalk_output sheet htmlMaxSpans hsized
    (show (htmlPageText items).length + htmlAttrValueMax < fuel by omega)
  rw [htmlTokens_pageText hmarkup hplain, List.take_of_length_le h.spans] at hwalk
  have hspans := h.spans
  obtain ⟨lines, hlines, hruns⟩ := htmlLines_eq
    ((h.shows hmarkup).wordsShort (h.cutWords hmarkup)) h.runs
    (show ([] : List HtmlLine).length + _ < htmlMaxLines by
      rw [List.length_nil, Nat.zero_add]
      exact h.lines)
    (show (htmlOutput sheet (items.map HtmlItem.token) .start).length < fuel by omega) true
  obtain ⟨extra, hextra, hcollect⟩ := Option.bind_eq_some_iff.mp hsheet
  refine ⟨⟨title, lines⟩, ?_, ?_⟩
  · rw [htmlLayoutWithCss, hextra]
    simp only [Option.bind_eq_bind, Option.bind_some, hcollect, hwalk, hlines, List.nil_append,
      rdropWhile_eq_self hruns]
  · have hmap :=
      congrArg (List.map fun runs : List HtmlRun => (runs.map HtmlRun.text).flatten) hruns
    rw [List.map_map, List.map_map] at hmap
    exact hmap

/-- The words of a page have no spaces. -/
theorem ne_space_of_mem_word {ps : List (Piece UInt8)} (hps : pieceChars ps =
      pieceChars (htmlPieces 0 false (items.map HtmlItem.token))) {w : List UInt8} {c : UInt8}
    (hw : some w ∈ pieceItems [] ps) (hc : c ∈ w) : c ≠ ascii ' ' := by
  have hmem : c ∈ (pieceItems [] ps).reduceOption.flatten :=
    List.mem_flatten.mpr ⟨w, List.reduceOption_mem_iff.mpr hw, hc⟩
  rw [flatten_pieceItems, List.nil_append, hps] at hmem
  have hspace := not_space_of_mem_pieceChars hmem
  rintro rfl
  exact absurd hspace (by decide)

/-- What is shown of a word. -/
def htmlShown (cols : ℕ) (word : List UInt8) : List UInt8 := (cString word).take cols

theorem htmlShown_initial (cols : ℕ) (word : List UInt8) : htmlShown cols word <+: word :=
  (List.take_prefix _ _).trans (List.takeWhile_prefix _)

theorem htmlShown_eq_iff {word : List UInt8} :
    htmlShown cols word = word ↔ 0 ∉ word ∧ word.length ≤ cols := by
  constructor
  · intro h
    refine ⟨fun hzero => ?_, ?_⟩
    · rw [← h] at hzero
      exact zero_notMem_cString word (List.mem_of_mem_take hzero)
    · rw [← h, htmlShown, List.length_take]
      exact Nat.min_le_left _ _
  · rintro ⟨hzero, hle⟩
    rw [htmlShown, cString_eq_self hzero, List.take_of_length_le hle]

/-- The characters of the lines, when the spans show the words of a text. -/
theorem htmlInk_of_shows {spans : List HtmlSpan} (h : Shows spans (htmlCutText items)) :
    htmlInk cols spans = ((htmlCutText items).reduceOption.flatMap (htmlShown cols)).length := by
  rw [htmlInk, h, List.reduceOption_map, List.flatMap_map]
  refine List.countP_eq_length.mpr fun c hc => decide_eq_true ?_
  obtain ⟨w, hw, hmem⟩ := List.mem_flatMap.mp hc
  exact ne_space_of_mem_word rfl (List.reduceOption_mem_iff.mp hw)
    ((htmlShown_initial cols w).mem hmem)

/-- The characters of the visible text. -/
theorem HtmlMarkup.countP_text (h : HtmlMarkup items) :
    (htmlText items).reduceOption.flatten.countP (· ≠ ascii ' ') =
      (htmlCutText items).reduceOption.flatten.length := by
  rw [h.text_eq, flatten_pieceItems, pieceChars_uncutPieces, flatten_pieceItems]
  refine List.countP_eq_length.mpr fun c hc => decide_eq_true ?_
  have hspace := not_space_of_mem_pieceChars hc
  rintro rfl
  exact absurd hspace (by decide)

/-- Where every word of the text with the cuts fits on a line, these words are wrapped. -/
theorem Shows.wrapped {spans : List HtmlSpan} (h : Shows spans (htmlCutText items))
    (hwhole : ∀ w, some w ∈ htmlCutText items → 0 ∉ w ∧ w.length ≤ cols) :
    Wrapped (ascii ' ') cols (htmlCutText items) ((htmlFitLines cols spans).map htmlRunsText) := by
  have hitems : spans.map HtmlSpan.item = htmlCutText items := by
    refine h.trans ((List.map_congr_left fun item hitem => ?_).trans (List.map_id _))
    cases item with
    | none => rfl
    | some w => exact congrArg some (cString_eq_self (hwhole w hitem).1)
  rw [← hitems]
  refine htmlFitLines_wrapped fun text htext => ?_
  rw [hitems] at htext
  exact ⟨ne_nil_of_mem_pieceItems htext, (hwhole text htext).2⟩

end Fidelity

section Pages

theorem htmlFits_of_words {sheet : CssSheet} {items : List HtmlItem} {cols : ℕ}
    {words : List (Option (List UInt8))} (htext : htmlText items = words)
    (hwords : words.all fun item => item.all fun w => decide (w.length ≤ 60))
    (hspans : (htmlOutput sheet (items.map HtmlItem.token) .start).length ≤ htmlMaxSpans)
    (hlines : (htmlFitLines cols (htmlOutput sheet (items.map HtmlItem.token) .start)).length <
      htmlMaxLines)
    (hruns : (htmlFitLines cols (htmlOutput sheet (items.map HtmlItem.token) .start)).all
      fun runs => decide (runs.length ≤ htmlMaxRunsPerLine)) : HtmlFits sheet items cols where
  words w hw := by
    rw [htext] at hw
    have hword : (some w).all (fun w => decide (w.length ≤ 60)) = true :=
      List.all_eq_true.mp hwords (some w) hw
    exact of_decide_eq_true hword
  spans := hspans
  lines := hlines
  runs runs hmem := of_decide_eq_true (List.all_eq_true.mp hruns runs hmem)

/-- A page `<b id="1">foo</b>bar`, with other items behind the element. -/
def htmlFooBar (between : List HtmlItem) : List HtmlItem :=
  .tag false (chars "b") [.bare (ascii ' '), .bare (ascii 'i'), .bare (ascii 'd'),
    .bare (ascii '='), .quoted (ascii '\x22') (chars "1")] ::
  ((chars "foo").map HtmlItem.char ++
    .tag true (chars "b") [] :: (between ++ (chars "bar").map HtmlItem.char))

/-- The items of a page on which an element ends at a space: `<b id="1">foo</b>
    <!--c-->&amp;bar`. -/
def htmlFooAndBar : List HtmlItem :=
  htmlFooBar [.char (ascii ' '), .comment (chars "c"), .entity (chars "amp;") (ascii '&')]

end Pages

end AuroraOS.Html
