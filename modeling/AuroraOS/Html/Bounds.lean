import AuroraOS.Html.Lexer
import AuroraOS.Lib.Runs

/-!
# The limits of a page

The three stages of the layout end on every page, and stay inside of the arrays for the words, the
spans, the style stack, the title, the runs and the lines.

## Main definitions

- `HtmlWalk.Bounded`, `HtmlPage.Bounded`

## Main results

- `HtmlWalk.Bounded.step` — one step of the walk
- `htmlLines_bounded` — the lines
- `htmlLayoutWithCss_total`
-/

namespace AuroraOS.Html

open Lib Css

/-- The words of a stream of spans are terminated in their arrays. -/
def WordsFit (spans : List HtmlSpan) : Prop :=
  ∀ text style, HtmlSpan.word text style ∈ spans → 0 ∉ text ∧ text.length < htmlLineMax

/-- The limits of the walk. -/
structure HtmlWalk.Bounded (spanMax : ℕ) (w : HtmlWalk) : Prop where
  stack_ne : w.stack ≠ []
  stack_le : w.stack.length ≤ htmlStyleStackMax
  word_lt : w.word.length < htmlLineMax
  title_lt : w.title.length < htmlTitleMax
  spans_le : w.spans.length ≤ spanMax
  words : WordsFit w.spans

/-- The limits of a run. -/
def HtmlRun.Bounded (run : HtmlRun) : Prop := 0 ∉ run.text ∧ run.text.length < htmlRunTextMax

/-- The limits of the runs of a line. -/
def RunsFit (runs : List HtmlRun) : Prop :=
  runs.length ≤ htmlMaxRunsPerLine ∧ ∀ run ∈ runs, run.Bounded

/-- The limits of a page. -/
structure HtmlPage.Bounded (page : HtmlPage) : Prop where
  title_lt : 0 ∉ page.title ∧ page.title.length < htmlTitleMax
  lines_lt : page.lines.length < htmlMaxLines
  runs : ∀ line ∈ page.lines, RunsFit line.runs

section Walk

variable {sheet : CssSheet} {spanMax : ℕ} {w w' : HtmlWalk} {c : UInt8}

theorem length_cString_le (bytes : List UInt8) : (cString bytes).length ≤ bytes.length :=
  (List.takeWhile_prefix _).length_le

theorem HtmlWalk.Bounded.exists_head (h : w.Bounded spanMax) : ∃ cur, w.stack.head? = some cur :=
  ⟨_, List.head?_eq_some_head h.stack_ne⟩

theorem HtmlWalk.Bounded.flushWord (h : w.Bounded spanMax) :
    ∃ w', w.flushWord spanMax = some w' ∧ w'.Bounded spanMax ∧ w'.stack = w.stack ∧
      w'.title = w.title := by
  obtain ⟨cur, hcur⟩ := h.exists_head
  rw [HtmlWalk.flushWord]
  split_ifs with hflush
  · rw [hcur, Option.bind_eq_bind, Option.bind_some, storeChar, if_pos h.word_lt,
      Option.bind_eq_bind, Option.bind_some]
    refine ⟨_, rfl, ⟨h.stack_ne, h.stack_le, Nat.zero_lt_of_lt h.word_lt, h.title_lt, ?_, ?_⟩, rfl,
      rfl⟩
    · show (w.spans ++ [_]).length ≤ spanMax
      rw [List.length_append, List.length_singleton]
      exact hflush.2
    · intro text style hmem
      obtain hmem | hmem := List.mem_append.mp hmem
      · exact h.words text style hmem
      · obtain ⟨rfl, -⟩ := HtmlSpan.word.inj (List.mem_singleton.mp hmem)
        rw [cString_append_zero]
        exact ⟨zero_notMem_cString _, (length_cString_le _).trans_lt h.word_lt⟩
  · exact ⟨_, rfl, ⟨h.stack_ne, h.stack_le, Nat.zero_lt_of_lt h.word_lt, h.title_lt, h.spans_le,
      h.words⟩, rfl, rfl⟩

theorem HtmlWalk.Bounded.emitBreak (h : w.Bounded spanMax) :
    ∃ w', w.emitBreak spanMax = some w' ∧ w'.Bounded spanMax := by
  obtain ⟨w₁, hflush, h₁, -, -⟩ := h.flushWord
  obtain ⟨cur, hcur⟩ := h₁.exists_head
  rw [HtmlWalk.emitBreak, hflush, Option.bind_eq_bind, Option.bind_some]
  split_ifs with hroom
  · rw [hcur, Option.bind_eq_bind, Option.bind_some]
    refine ⟨_, rfl, h₁.stack_ne, h₁.stack_le, h₁.word_lt, h₁.title_lt, ?_, ?_⟩
    · show (w₁.spans ++ [_]).length ≤ spanMax
      rw [List.length_append, List.length_singleton]
      exact hroom
    · intro text style hmem
      obtain hmem | hmem := List.mem_append.mp hmem
      · exact h₁.words text style hmem
      · exact HtmlSpan.noConfusion (List.mem_singleton.mp hmem)
  · exact ⟨_, rfl, h₁.stack_ne, h₁.stack_le, h₁.word_lt, h₁.title_lt, h₁.spans_le, h₁.words⟩

theorem HtmlWalk.Bounded.emitBreak_stack (h : w.Bounded spanMax)
    (hbreak : w.emitBreak spanMax = some w') : w'.stack = w.stack := by
  obtain ⟨w₁, hflush, h₁, hstack, -⟩ := h.flushWord
  obtain ⟨cur, hcur⟩ := h₁.exists_head
  rw [HtmlWalk.emitBreak, hflush, Option.bind_eq_bind, Option.bind_some, hcur,
    Option.bind_eq_bind, Option.bind_some] at hbreak
  split_ifs at hbreak
  · obtain rfl := Option.some.inj hbreak
    exact hstack
  · obtain rfl := Option.some.inj hbreak
    exact hstack

theorem HtmlWalk.Bounded.char (h : w.Bounded spanMax) (c : UInt8) :
    ∃ w', w.char spanMax c = some w' ∧ w'.Bounded spanMax := by
  obtain ⟨hne, hstack, hword, htitle, hspans, hwords⟩ := id h
  rw [HtmlWalk.char]
  split_ifs with hin hroom hspace hlast hword'
  · rw [storeChar, if_pos htitle]
    refine ⟨_, rfl, hne, hstack, hword, ?_, hspans, hwords⟩
    show (w.title ++ [c]).length < htmlTitleMax
    rw [List.length_append, List.length_singleton]
    omega
  · exact ⟨w, rfl, h⟩
  · obtain ⟨w', hflush, h', -, -⟩ := h.flushWord
    rw [hflush]
    exact ⟨_, rfl, h'.stack_ne, h'.stack_le, h'.word_lt, h'.title_lt, h'.spans_le, h'.words⟩
  · exact ⟨w, rfl, h⟩
  · rw [storeChar, if_pos hword]
    refine ⟨_, rfl, hne, hstack, ?_, htitle, hspans, hwords⟩
    show (w.word ++ [c]).length < htmlLineMax
    rw [List.length_append, List.length_singleton]
    omega
  · exact ⟨_, rfl, hne, hstack, hword, htitle, hspans, hwords⟩

theorem HtmlWalk.Bounded.styleTag (h : w.Bounded spanMax) (sheet : CssSheet) (closing : Bool)
    (name attrs : List UInt8) :
    ∃ w', w.styleTag sheet spanMax closing name attrs = some w' ∧ w'.Bounded spanMax := by
  obtain ⟨hne, hstack, hword, htitle, hspans, hwords⟩ := id h
  rw [HtmlWalk.styleTag]
  split_ifs with hname hopen hclose
  · exact ⟨_, rfl, hne, hstack, hword, htitle, hspans, hwords⟩
  · obtain ⟨cur, hcur⟩ := h.exists_head
    have hroom : w.stack.length < htmlStyleStackMax := by
      have htop := hopen.2.2
      rw [HtmlWalk.stackTop] at htop
      have hpos := List.length_pos_iff.mpr hne
      omega
    rw [HtmlWalk.openTag, hcur, Option.bind_eq_bind, Option.bind_some, if_pos hroom]
    exact ⟨_, rfl, List.cons_ne_nil _ _, hroom, hword, htitle, hspans, hwords⟩
  · obtain ⟨w', hflush, h', hstack', -⟩ := h.flushWord
    have htop := hclose.2
    rw [HtmlWalk.stackTop] at htop
    rw [hflush]
    refine ⟨_, rfl, ?_, ?_, h'.word_lt, h'.title_lt, h'.spans_le, h'.words⟩
    · show w'.stack.tail ≠ []
      rw [hstack', ← List.length_pos_iff, List.length_tail]
      exact htop
    · exact (List.tail_suffix _).length_le.trans h'.stack_le
  · exact ⟨w, rfl, h⟩

/-- A step of the walk is possible, and keeps the limits. -/
theorem HtmlWalk.Bounded.step (h : w.Bounded spanMax) (token : HtmlToken) :
    ∃ w', w.step sheet spanMax token = some w' ∧ w'.Bounded spanMax := by
  cases token with
  | char c => exact h.char c
  | tag closing name attrs =>
    rw [HtmlWalk.step]
    by_cases hraw : name = chars "script" ∨ name = chars "style"
    · exact ⟨w, if_pos hraw, h⟩
    · obtain ⟨w₁, htag, h₁⟩ := h.styleTag sheet closing name attrs
      rw [if_neg hraw, htag, Option.bind_eq_bind, Option.bind_some]
      split_ifs
      · exact h₁.emitBreak
      · exact ⟨w₁, rfl, h₁⟩

/-- The tags that are not pushed although they open an element. -/
def htmlUnpushedNames : List (List UInt8) :=
  [chars "script", chars "style", chars "title", chars "br"]

/-- What an opening tag does to the stack. -/
theorem HtmlWalk.Bounded.step_open (h : w.Bounded spanMax) {parent : HtmlStyleFrame}
    (hparent : w.stack.head? = some parent) (name attrs : List UInt8) :
    ∃ w', w.step sheet spanMax (.tag false name attrs) = some w' ∧
      w'.stack =
        if w.stackTop < htmlStyleStackMax - 1 ∧ name ∉ htmlUnpushedNames then
          htmlElementFrame sheet name attrs parent :: w.stack
        else w.stack := by
  obtain ⟨w', hstep, -⟩ := @HtmlWalk.Bounded.step sheet spanMax w h (.tag false name attrs)
  refine ⟨w', hstep, ?_⟩
  rw [HtmlWalk.step] at hstep
  by_cases hraw : name = chars "script" ∨ name = chars "style"
  · rw [if_pos hraw] at hstep
    obtain rfl := Option.some.inj hstep
    rw [if_neg]
    rintro ⟨-, hname⟩
    obtain rfl | rfl := hraw
    · exact hname (by decide)
    · exact hname (by decide)
  obtain ⟨hscript, hstyle⟩ := not_or.mp hraw
  rw [if_neg hraw] at hstep
  obtain ⟨w₁, htag, hbreak⟩ := Option.bind_eq_some_iff.mp hstep
  obtain ⟨w₁', htag', h₁⟩ := h.styleTag sheet false name attrs
  obtain rfl := Option.some.inj (htag.symm.trans htag')
  have hstack : w'.stack = w₁.stack := by
    split_ifs at hbreak
    · exact h₁.emitBreak_stack hbreak
    · exact congrArg HtmlWalk.stack (Option.some.inj hbreak).symm
  have hin : name ∉ htmlUnpushedNames ↔ name ≠ chars "title" ∧ name ≠ chars "br" := by
    simp only [htmlUnpushedNames, List.mem_cons, List.not_mem_nil, or_false, not_or, hscript,
      hstyle, not_false_eq_true, true_and]
  rw [hstack]
  rw [HtmlWalk.styleTag] at htag
  by_cases htitle : name = chars "title"
  · rw [if_pos htitle] at htag
    obtain rfl := Option.some.inj htag
    rw [if_neg fun h => (hin.mp h.2).1 htitle]
  by_cases hopen : name ≠ chars "br" ∧ w.stackTop < htmlStyleStackMax - 1
  · have hroom : w.stack.length < htmlStyleStackMax := by
      have htop := hopen.2
      rw [HtmlWalk.stackTop] at htop
      omega
    rw [if_neg htitle, if_pos ⟨rfl, hopen⟩, HtmlWalk.openTag, hparent, Option.bind_eq_bind,
      Option.bind_some, if_pos hroom] at htag
    obtain rfl := Option.some.inj htag
    rw [if_pos ⟨hopen.2, hin.mpr ⟨htitle, hopen.1⟩⟩]
  · rw [if_neg htitle, if_neg fun h => hopen h.2, if_neg fun h => Bool.false_ne_true h.1] at htag
    obtain rfl := Option.some.inj htag
    rw [if_neg fun h => hopen ⟨(hin.mp h.2).2, h.1⟩]

/-- Every state of the walk keeps the limits. -/
theorem HtmlWalk.Bounded.always (h : w.Bounded spanMax) (tokens : List HtmlToken) :
    Always (HtmlWalk.step sheet spanMax) (HtmlWalk.Bounded spanMax) tokens w := by
  induction tokens generalizing w with
  | nil => exact h
  | cons token tokens ih =>
    refine ⟨h, fun w' hw' => ?_⟩
    obtain ⟨w₁, hw₁, h₁⟩ := h.step token
    exact ih (Option.some.inj (hw'.symm.trans hw₁) ▸ h₁)

theorem HtmlWalk.Bounded.run (h : w.Bounded spanMax) (sheet : CssSheet) (tokens : List HtmlToken) :
    ∃ w', tokens.foldlM (HtmlWalk.step sheet spanMax) w = some w' ∧ w'.Bounded spanMax := by
  induction tokens generalizing w with
  | nil => exact ⟨w, rfl, h⟩
  | cons token tokens ih =>
    obtain ⟨w₁, hw₁, h₁⟩ := h.step token
    rw [List.foldlM_cons, hw₁]
    exact ih h₁

theorem HtmlWalk.start_bounded (spanMax : ℕ) : HtmlWalk.start.Bounded spanMax where
  stack_ne := List.cons_ne_nil _ _
  stack_le := by decide
  word_lt := by decide
  title_lt := by decide
  spans_le := Nat.zero_le _
  words _ _ hmem := absurd hmem List.not_mem_nil

/-- Wherever the loop of the walk comes to, it keeps the limits and has turns left; it does not come
    back to the start of the page. -/
theorem HtmlWalkAt.bounded {html : List UInt8} {start fuel i : ℕ} (hsized : HtmlSized html)
    (hstart : html.length + htmlAttrValueMax < start)
    (h : HtmlWalkAt html sheet spanMax start fuel i w) :
    w.Bounded spanMax ∧ (i = 0 → w = .start) ∧
      ∃ l, Between html i html.length l ∧ l.length + htmlAttrValueMax < fuel := by
  induction h with
  | start => exact ⟨HtmlWalk.start_bounded spanMax, fun _ => rfl, html, .whole html, hstart⟩
  | @turn fuel i j w w' _ hlt hturn ih =>
    obtain ⟨hbounded, -, l, hb, hfuel⟩ := ih
    cases l with
    | nil => exact absurd hlt hb.not_lt
    | cons c l =>
      rw [List.length_cons] at hfuel
      obtain ⟨j', hturn', hb'⟩ :=
        @htmlTurn_eq html l i fuel c sheet spanMax hb hsized (by omega) w
      obtain ⟨w₁, hstep, h₁⟩ := @HtmlWalk.Bounded.step sheet spanMax w hbounded (htmlToken c l).1
      rw [hstep, hturn] at hturn'
      obtain ⟨rfl, rfl⟩ := Prod.mk.inj (Option.some.inj hturn')
      have hless := length_htmlToken_lt c l
      have hlen := hb.length_eq
      have hlen' := hb'.length_eq
      have hle := hb'.le
      rw [List.length_cons] at hless hlen
      refine ⟨h₁, fun hzero => ?_, _, hb', by omega⟩
      omega

/-- The title and the spans of a page. -/
theorem htmlWalk_bounded (sheet : CssSheet) (spanMax : ℕ) {html : List UInt8} {fuel : ℕ}
    (hsized : HtmlSized html)
    (hfuel : html.length + htmlAttrValueMax < fuel) :
    ∃ title spans, htmlWalk html sheet spanMax fuel = some (title, spans) ∧
      (0 ∉ title ∧ title.length < htmlTitleMax) ∧ spans.length ≤ spanMax ∧ WordsFit spans := by
  obtain ⟨w, hrun, h⟩ := (HtmlWalk.start_bounded spanMax).run sheet (htmlTokens html)
  obtain ⟨w', hflush, h', -, -⟩ := h.flushWord
  rw [htmlWalk_eq hsized hfuel, hrun, Option.bind_some, HtmlWalk.finish, hflush,
    Option.bind_eq_bind,
    Option.bind_some, storeChar, if_pos h'.title_lt, Option.bind_eq_bind, Option.bind_some,
    cString_append_zero]
  exact ⟨_, _, rfl, ⟨zero_notMem_cString _, (length_cString_le _).trans_lt h'.title_lt⟩,
    h'.spans_le, h'.words⟩

end Walk

section Layout

variable {gap word : List UInt8} {style : HtmlStyleFrame} {runs : List HtmlRun} {cols : ℕ}
  {spans : List HtmlSpan}

theorem htmlNewRun_bounded (style : HtmlStyleFrame) (hgap : 0 ∉ gap ∧ gap.length < htmlRunTextMax)
    (hword : 0 ∉ word)
    (h : RunsFit runs) : ∃ runs', htmlNewRun gap word style runs = some runs' ∧ RunsFit runs' := by
  obtain ⟨n, hn, hcopy⟩ : ∃ n, gap.length + n < htmlRunTextMax ∧
      (if gap.length + word.length > htmlRunTextMax - 1 then htmlRunTextMax - 1 - gap.length
        else word.length) = n := by
    split_ifs
    · exact ⟨_, by omega, rfl⟩
    · exact ⟨_, by omega, rfl⟩
  rw [htmlNewRun]
  by_cases hroom : runs.length < htmlMaxRunsPerLine
  · have hlen : (gap ++ word.take n).length < htmlRunTextMax := by
      rw [List.length_append, List.length_take]
      omega
    have hnonzero : 0 ∉ gap ++ word.take n := fun hmem =>
      (List.mem_append.mp hmem).elim hgap.1 fun hmem => hword (List.mem_of_mem_take hmem)
    rw [if_pos hroom]
    dsimp only
    rw [hcopy, storeText, if_pos hlen]
    refine ⟨_, rfl, hroom, fun run hmem => ?_⟩
    obtain rfl | hmem := List.mem_cons.mp hmem
    · exact ⟨hnonzero, hlen⟩
    · exact h.2 run hmem
  · exact ⟨runs, if_neg hroom, h⟩

theorem htmlPlaceWord_bounded (style : HtmlStyleFrame)
    (hgap : 0 ∉ gap ∧ gap.length < htmlRunTextMax) (hword : 0 ∉ word)
    (h : RunsFit runs) :
    ∃ runs', htmlPlaceWord gap word style runs = some runs' ∧ RunsFit runs' := by
  cases runs with
  | nil => exact htmlNewRun_bounded style hgap hword h
  | cons last runs =>
    rw [htmlPlaceWord]
    split_ifs with hextend
    · have hroom := (of_decide_eq_true hextend).2.2.2.2
      have hlen : (last.text ++ gap ++ word).length < htmlRunTextMax := by
        rw [List.length_append, List.length_append]
        omega
      have hlast := h.2 last List.mem_cons_self
      rw [storeText, if_pos hlen]
      refine ⟨_, rfl, h.1, fun run hmem => ?_⟩
      obtain rfl | hmem := List.mem_cons.mp hmem
      · refine ⟨fun hzero => ?_, hlen⟩
        simp only [List.append_assoc, List.mem_append] at hzero
        exact hzero.elim hlast.1 fun hzero => hzero.elim hgap.1 hword
      · exact h.2 run (List.mem_cons_of_mem last hmem)
    · exact htmlNewRun_bounded style hgap hword h

theorem htmlGap_bounded (col : ℕ) : 0 ∉ htmlGap col ∧ (htmlGap col).length < htmlRunTextMax := by
  rw [htmlGap]
  split_ifs <;> decide

theorem WordsFit.of_suffix {spans' : List HtmlSpan} (h : WordsFit spans)
    (hsuffix : spans' <:+ spans) :
    WordsFit spans' := fun text style hmem => h text style (hsuffix.mem hmem)

/-- A line is filled with what comes first. -/
theorem htmlFillLine_bounded (cols : ℕ) (hwords : WordsFit spans) (hruns : RunsFit runs) (col : ℕ)
    (anyWord : Bool) :
    ∃ runs' anyWord' rest, htmlFillLine cols spans col runs anyWord = some (runs', anyWord', rest) ∧
      RunsFit runs' ∧ rest <:+ spans ∧ (anyWord = true → anyWord' = true) := by
  induction spans generalizing col runs anyWord with
  | nil => exact ⟨runs, anyWord, [], rfl, hruns, List.suffix_refl _, id⟩
  | cons span spans ih =>
    cases span with
    | lineBreak align => exact ⟨runs, anyWord, _, rfl, hruns, List.suffix_refl _, id⟩
    | word text style =>
      rw [htmlFillLine]
      split_ifs with hfull
      · exact ⟨runs, anyWord, _, rfl, hruns, List.suffix_refl _, id⟩
      · have htext := (hwords text style List.mem_cons_self).1
        obtain ⟨runs₁, hplace, hruns₁⟩ := htmlPlaceWord_bounded style (htmlGap_bounded col)
          (fun hmem => htext (List.mem_of_mem_take hmem) : 0 ∉ text.take cols) hruns
        obtain ⟨runs', anyWord', rest, hfill, hruns', hsuffix, hany⟩ :=
          ih (hwords.of_suffix (List.suffix_cons _ _)) hruns₁ _ true
        rw [hplace, Option.bind_eq_bind, Option.bind_some]
        exact ⟨runs', anyWord', rest, hfill, hruns', hsuffix.trans (List.suffix_cons _ _),
          fun _ => hany rfl⟩

theorem htmlSkipBreak_suffix (spans : List HtmlSpan) : htmlSkipBreak spans <:+ spans := by
  rw [htmlSkipBreak.eq_def]
  split
  · exact List.suffix_cons _ _
  · exact List.suffix_refl _

/-- A line that starts with a word has a word on it. -/
theorem htmlFillLine_first (cols : ℕ) {text : List UInt8}
    (hwords : WordsFit (.word text style :: spans)) :
    ∃ runs rest, htmlFillLine cols (.word text style :: spans) 0 [] false =
      some (runs, true, rest) ∧
      RunsFit runs ∧ rest <:+ spans := by
  have htext := (hwords text style List.mem_cons_self).1
  obtain ⟨runs₁, hplace, hruns₁⟩ := htmlPlaceWord_bounded style (htmlGap_bounded 0)
    (fun hmem => htext (List.mem_of_mem_take hmem) : 0 ∉ text.take cols)
    (⟨Nat.zero_le _, fun _ hmem => absurd hmem List.not_mem_nil⟩ : RunsFit [])
  obtain ⟨runs', anyWord', rest, hfill, hruns', hsuffix, hany⟩ := htmlFillLine_bounded cols
    (hwords.of_suffix (List.suffix_cons _ _)) hruns₁
    (0 + ((text.take cols).length + (htmlGap 0).length)) true
  rw [htmlFillLine, if_neg fun h => absurd h.1 (Nat.lt_irrefl 0), hplace, Option.bind_eq_bind,
    Option.bind_some, hfill, hany rfl]
  exact ⟨runs', rest, rfl, hruns', hsuffix⟩

/-- The lines keep their limits. -/
theorem htmlLines_bounded (cols : ℕ) {fuel : ℕ} {lines : List HtmlLine} (hwords : WordsFit spans)
    (hlines : lines.length < htmlMaxLines) (hruns : ∀ line ∈ lines, RunsFit line.runs)
    (hfuel : spans.length < fuel) (prevBlank : Bool) :
    ∃ lines', htmlLines cols fuel spans lines prevBlank = some lines' ∧
      lines'.length < htmlMaxLines ∧ ∀ line ∈ lines', RunsFit line.runs := by
  induction fuel generalizing spans lines prevBlank with
  | zero => exact absurd hfuel (Nat.not_lt_zero _)
  | succ fuel ih =>
    rw [htmlLines]
    by_cases hmore : spans ≠ [] ∧ lines.length < htmlMaxLines - 1
    · rw [if_pos hmore]
      have hsuffix := List.dropWhile_suffix HtmlSpan.isBreak (l := spans)
      cases hdrop : spans.dropWhile HtmlSpan.isBreak with
      | nil => exact ⟨lines, rfl, hlines, hruns⟩
      | cons span spans' =>
        have hword := not_of_dropWhile_eq_cons hdrop
        rw [hdrop] at hsuffix
        cases span with
        | lineBreak align => exact absurd hword Bool.true_eq_false_eq_False
        | word text style =>
          obtain ⟨runs, rest, hfill, hruns', hrest⟩ :=
            htmlFillLine_first cols (hwords.of_suffix hsuffix)
          have hlen := hsuffix.length_le
          have hrest' := ((htmlSkipBreak_suffix rest).trans hrest)
          have hrest_len := hrest'.length_le
          rw [List.length_cons] at hlen
          dsimp only
          rw [hfill, Option.bind_eq_bind, Option.bind_some]
          dsimp only
          rw [if_pos (Or.inl rfl)]
          refine ih (hwords.of_suffix (hrest'.trans ((List.suffix_cons _ _).trans hsuffix))) ?_ ?_
            (by omega) _
          · rw [List.length_append, List.length_singleton]
            omega
          · intro line hmem
            obtain hmem | hmem := List.mem_append.mp hmem
            · exact hruns line hmem
            · obtain rfl := List.mem_singleton.mp hmem
              exact ⟨by rw [List.length_reverse]; exact hruns'.1,
                fun run hmem => hruns'.2 run (List.mem_reverse.mp hmem)⟩
    · exact ⟨lines, if_neg hmore, hlines, hruns⟩

end Layout

/-- A `<` as the last character of the longest page: the sum that should keep the comparison with
    the name of a style inside of the page wraps around. -/
theorem htmlCollectStylesheets_outside {html text : List UInt8} {i : ℕ} (sheet : CssSheet)
    (htext : ascii '<' ∉ text) (hlen : html.length + 1 = 2 ^ 32)
    (h : Between html i html.length (text ++ [ascii '<'])) (fuel : ℕ) :
    htmlCollectStylesheets html fuel i sheet = none := by
  induction fuel generalizing i text with
  | zero => rfl
  | succ fuel ih =>
    cases text with
    | nil =>
      have hlast := h.length_eq
      rw [List.nil_append, List.length_singleton] at hlast
      have hwrap : (i + 6) % 2 ^ 32 < html.length := by
        rw [show i + 6 = 4 + 2 ^ 32 by omega, Nat.add_mod_right]
        omega
      have hread : readSlice html (i + 1) 6 = none := if_neg (by omega)
      rw [htmlCollectStylesheets, if_pos h.lt, h.uncons.1, Option.bind_eq_bind, Option.bind_some,
        if_neg (not_not_intro rfl), htmlIsStyleOpen, if_pos hwrap, hread]
      rfl
    | cons c text =>
      obtain ⟨hc, htext⟩ := not_or.mp (mt List.mem_cons.mpr htext)
      rw [htmlCollectStylesheets, if_pos h.lt, h.uncons.1, Option.bind_eq_bind, Option.bind_some,
        if_pos (Ne.symm hc)]
      exact ih htext h.uncons.2

end AuroraOS.Html
