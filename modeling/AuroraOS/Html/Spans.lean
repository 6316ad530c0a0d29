import AuroraOS.Html.Bounds

/-!
# The spans of a page

The spans that the walk would emit with room for all of them. The walk emits as many of them as
there is room for.

## Main definitions

- `HtmlState`, `HtmlState.step` — a step, with the spans that it emits
- `htmlOutput` — the spans of a page

## Main results

- `HtmlWalk.Follows.step` — one step of the walk
- `htmlWalk_output`
-/

namespace AuroraOS.Html

open Lib Css

/-- The open elements, the innermost one at the top, and the characters of a word. -/
structure HtmlState where
  top : HtmlStyleFrame
  below : List HtmlStyleFrame
  word : List UInt8
  inTitle : Bool

/-- The start of a page. -/
def HtmlState.start : HtmlState := ⟨htmlBodyFrame, [], [], false⟩

namespace HtmlState

/-- The span of the word, if there is one. -/
def flushed (st : HtmlState) : List HtmlSpan :=
  if st.word = [] then [] else [.word (cString st.word) st.top]

/-- A character that is not part of the title. -/
def char (st : HtmlState) (c : UInt8) : HtmlState × List HtmlSpan :=
  if st.inTitle then (st, [])
  else if htmlIsSpace c then ({ st with word := [] }, st.flushed)
  else if st.word.length < htmlLineMax - 1 then ({ st with word := st.word ++ [c] }, [])
  else (st, [])

/-- An opening tag is on the stack afterwards. -/
def Opens (st : HtmlState) (closing : Bool) (name : List UInt8) : Prop :=
  closing = false ∧ name ≠ chars "br" ∧ st.below.length < htmlStyleStackMax - 1

instance (st : HtmlState) (closing : Bool) (name : List UInt8) :
    Decidable (st.Opens closing name) :=
  inferInstanceAs (Decidable (_ ∧ _ ∧ _))

/-- The element at the top is closed. -/
def close (st : HtmlState) : HtmlState × List HtmlSpan :=
  match st.below with
  | [] => (st, [])
  | parent :: below => (⟨parent, below, [], st.inTitle⟩, st.flushed)

variable (sheet : CssSheet)

/-- A tag other than those of scripts and styles, up to the breaks. -/
def styleTag (st : HtmlState) (closing : Bool) (name attrs : List UInt8) :
    HtmlState × List HtmlSpan :=
  if name = chars "title" then ({ st with inTitle := !closing }, [])
  else if st.Opens closing name then
    ({ st with top := htmlElementFrame sheet name attrs st.top, below := st.top :: st.below }, [])
  else if closing then st.close
  else (st, [])

/-- A break. -/
def lineBreak (st : HtmlState) : HtmlState × List HtmlSpan :=
  ({ st with word := [] }, st.flushed ++ [.lineBreak st.top.align])

/-- A step, with the spans that it emits. -/
def step (st : HtmlState) : HtmlToken → HtmlState × List HtmlSpan
  | .char c => st.char c
  | .tag closing name attrs =>
    if name = chars "script" ∨ name = chars "style" then (st, [])
    else if htmlIsBlockTag name then
      ((st.styleTag sheet closing name attrs).1.lineBreak.1,
        (st.styleTag sheet closing name attrs).2 ++
          (st.styleTag sheet closing name attrs).1.lineBreak.2)
    else st.styleTag sheet closing name attrs

end HtmlState

/-- The spans of a run. -/
def htmlOutput (sheet : CssSheet) : List HtmlToken → HtmlState → List HtmlSpan
  | [], st => st.flushed
  | token :: tokens, st =>
    (st.step sheet token).2 ++ htmlOutput sheet tokens (st.step sheet token).1

/-- The walk is in a state, and has emitted what fits of `out`. -/
structure HtmlWalk.Follows (spanMax : ℕ) (w : HtmlWalk) (st : HtmlState) (out : List HtmlSpan) :
    Prop where
  bounded : w.Bounded spanMax
  stack : w.stack = st.top :: st.below
  word : w.word = st.word
  inTitle : w.inTitle = st.inTitle
  space : w.lastWasSpace = true → w.word = []
  spans : w.spans = out.take spanMax

section Steps

variable {sheet : CssSheet} {spanMax : ℕ} {w : HtmlWalk} {st : HtmlState} {out : List HtmlSpan}

/-- A span that is emitted where there is room. -/
theorem take_append_singleton (out : List HtmlSpan) (span : HtmlSpan) (spanMax : ℕ) :
    (out ++ [span]).take spanMax =
      if (out.take spanMax).length < spanMax then out.take spanMax ++ [span]
      else out.take spanMax := by
  rw [List.length_take, List.take_append]
  split_ifs with hroom
  · have hlen : out.length < spanMax := by omega
    rw [List.take_of_length_le hlen.le, List.take_of_length_le]
    rw [List.length_singleton]
    omega
  · rw [show spanMax - out.length = 0 by omega, List.take_zero, List.append_nil]

/-- `FLUSH_WORD` emits the word. -/
theorem HtmlWalk.Follows.flushWord (h : w.Follows spanMax st out) :
    ∃ w', w.flushWord spanMax = some w' ∧
      w'.Follows spanMax { st with word := [] } (out ++ st.flushed) := by
  obtain ⟨w', hflush, hbounded, -, -⟩ := h.bounded.flushWord
  refine ⟨w', hflush, ?_⟩
  rw [HtmlWalk.flushWord, h.stack, h.word, h.spans, List.head?_cons] at hflush
  have hword := h.bounded.word_lt
  rw [h.word] at hword
  by_cases hempty : st.word = []
  · rw [if_neg (by rw [hempty]; exact fun h => Nat.lt_irrefl 0 h.1)] at hflush
    obtain rfl := Option.some.inj hflush
    exact ⟨hbounded, rfl, rfl, h.inTitle, fun _ => rfl, by
      rw [HtmlState.flushed, if_pos hempty, List.append_nil]⟩
  · have hemit := take_append_singleton out (.word (cString st.word) st.top) spanMax
    have hpos := List.length_pos_iff.mpr hempty
    have hflushed : st.flushed = [.word (cString st.word) st.top] := if_neg hempty
    by_cases hroom : (out.take spanMax).length < spanMax
    · rw [if_pos hroom] at hemit
      rw [if_pos ⟨hpos, hroom⟩, storeChar, if_pos hword, Option.bind_eq_bind, Option.bind_some,
        Option.bind_eq_bind, Option.bind_some, cString_append_zero] at hflush
      obtain rfl := Option.some.inj hflush
      exact ⟨hbounded, rfl, rfl, h.inTitle, fun _ => rfl, by rw [hflushed, hemit]⟩
    · rw [if_neg hroom] at hemit
      rw [if_neg fun h => hroom h.2] at hflush
      obtain rfl := Option.some.inj hflush
      exact ⟨hbounded, rfl, rfl, h.inTitle, fun _ => rfl, by rw [hflushed, hemit]⟩

theorem HtmlWalk.Follows.emitBreak (h : w.Follows spanMax st out) :
    ∃ w', w.emitBreak spanMax = some w' ∧
      w'.Follows spanMax st.lineBreak.1 (out ++ st.lineBreak.2) := by
  obtain ⟨w₁, hflush, h₁⟩ := h.flushWord
  obtain ⟨w', hbreak, hbounded⟩ := h.bounded.emitBreak
  refine ⟨w', hbreak, ?_⟩
  have hemit := take_append_singleton (out ++ st.flushed) (.lineBreak st.top.align) spanMax
  rw [HtmlWalk.emitBreak, hflush, Option.bind_eq_bind, Option.bind_some, h₁.stack, h₁.spans,
    List.head?_cons] at hbreak
  rw [HtmlState.lineBreak, ← List.append_assoc]
  split_ifs at hbreak hemit with hroom
  · obtain rfl := Option.some.inj hbreak
    exact ⟨hbounded, rfl, h₁.word, h₁.inTitle, fun _ => h₁.word, hemit.symm⟩
  · obtain rfl := Option.some.inj hbreak
    exact ⟨hbounded, rfl, h₁.word, h₁.inTitle, fun _ => h₁.word, hemit.symm⟩

theorem HtmlWalk.Follows.char (h : w.Follows spanMax st out) (c : UInt8) :
    ∃ w', w.char spanMax c = some w' ∧
      w'.Follows spanMax (st.char c).1 (out ++ (st.char c).2) := by
  obtain ⟨w', hchar, hbounded⟩ := h.bounded.char c
  refine ⟨w', hchar, ?_⟩
  rw [HtmlWalk.char, h.inTitle, h.word] at hchar
  rw [HtmlState.char]
  split_ifs at hchar ⊢ with htitle hroom hspace hlast hword
  · obtain ⟨title, -, hw'⟩ := Option.bind_eq_some_iff.mp hchar
    obtain rfl := Option.some.inj hw'
    exact ⟨hbounded, h.stack, rfl, rfl, fun hlast => h.word.symm.trans (h.space hlast), by
      rw [List.append_nil]
      exact h.spans⟩
  · obtain rfl := Option.some.inj hchar
    rwa [List.append_nil]
  · obtain ⟨w₁, hflush, h₁⟩ := h.flushWord
    rw [hflush] at hchar
    obtain rfl := Option.some.inj hchar
    exact ⟨hbounded, h₁.stack, h₁.word, h₁.inTitle, fun _ => h₁.word, h₁.spans⟩
  · -- behind a space there is no word
    obtain rfl := Option.some.inj hchar
    have hempty : st.word = [] := h.word.symm.trans (h.space (by simpa using hlast))
    refine ⟨hbounded, h.stack, h.word.trans hempty, h.inTitle, h.space, ?_⟩
    rw [HtmlState.flushed, if_pos hempty, List.append_nil]
    exact h.spans
  · obtain ⟨word, hstore, hw'⟩ := Option.bind_eq_some_iff.mp hchar
    rw [storeChar] at hstore
    split_ifs at hstore
    obtain rfl := Option.some.inj hstore
    obtain rfl := Option.some.inj hw'
    exact ⟨hbounded, h.stack, rfl, rfl, Bool.noConfusion, by rw [List.append_nil]; exact h.spans⟩
  · obtain rfl := Option.some.inj hchar
    exact ⟨hbounded, h.stack, rfl, rfl, Bool.noConfusion, by rw [List.append_nil]; exact h.spans⟩

theorem HtmlWalk.Follows.styleTag (h : w.Follows spanMax st out) (closing : Bool)
    (name attrs : List UInt8) :
    ∃ w', w.styleTag sheet spanMax closing name attrs = some w' ∧
      w'.Follows spanMax (st.styleTag sheet closing name attrs).1
        (out ++ (st.styleTag sheet closing name attrs).2) := by
  obtain ⟨w', htag, hbounded⟩ := h.bounded.styleTag sheet closing name attrs
  refine ⟨w', htag, ?_⟩
  have htop : w.stackTop = st.below.length := by
    rw [HtmlWalk.stackTop, h.stack]
    rfl
  rw [HtmlWalk.styleTag, htop] at htag
  rw [HtmlState.styleTag]
  by_cases hname : name = chars "title"
  · rw [if_pos hname] at htag ⊢
    obtain rfl := Option.some.inj htag
    exact ⟨hbounded, h.stack, h.word, rfl, h.space, by rw [List.append_nil]; exact h.spans⟩
  · rw [if_neg hname] at htag ⊢
    by_cases hopen : st.Opens closing name
    · rw [if_pos ⟨by rw [hopen.1]; rfl, hopen.2⟩, HtmlWalk.openTag, h.stack, List.head?_cons,
        Option.bind_eq_bind, Option.bind_some] at htag
      rw [if_pos hopen]
      split_ifs at htag
      obtain rfl := Option.some.inj htag
      exact ⟨hbounded, rfl, h.word, h.inTitle, h.space, by rw [List.append_nil]; exact h.spans⟩
    · rw [if_neg fun h => hopen ⟨by simpa using h.1, h.2⟩] at htag
      rw [if_neg hopen]
      cases closing with
      | false =>
        obtain rfl := Option.some.inj htag
        rwa [if_neg Bool.false_ne_true, List.append_nil]
      | true =>
        rw [if_pos rfl, HtmlState.close]
        cases hbelow : st.below with
        | nil =>
          rw [hbelow] at htag
          obtain rfl := Option.some.inj htag
          rwa [List.append_nil]
        | cons parent below =>
          obtain ⟨w₁, hflush, h₁⟩ := h.flushWord
          rw [hbelow, if_pos ⟨rfl, Nat.succ_pos _⟩, hflush] at htag
          obtain rfl := Option.some.inj htag
          refine ⟨hbounded, ?_, h₁.word, h₁.inTitle, h₁.space, h₁.spans⟩
          show w₁.stack.tail = parent :: below
          rw [h₁.stack, ← hbelow]
          rfl

/-- A step of the walk emits what fits of the spans. -/
theorem HtmlWalk.Follows.step (h : w.Follows spanMax st out) (sheet : CssSheet)
    (token : HtmlToken) :
    ∃ w', w.step sheet spanMax token = some w' ∧
      w'.Follows spanMax (st.step sheet token).1 (out ++ (st.step sheet token).2) := by
  cases token with
  | char c => exact h.char c
  | tag closing name attrs =>
    rw [HtmlWalk.step, HtmlState.step]
    by_cases hraw : name = chars "script" ∨ name = chars "style"
    · rw [if_pos hraw, if_pos hraw]
      exact ⟨w, rfl, by rwa [List.append_nil]⟩
    · obtain ⟨w₁, htag, h₁⟩ := h.styleTag closing name attrs
      rw [if_neg hraw, if_neg hraw, htag, Option.bind_eq_bind, Option.bind_some]
      split_ifs
      · rw [← List.append_assoc]
        exact h₁.emitBreak
      · exact ⟨w₁, rfl, h₁⟩

theorem HtmlWalk.Follows.run (h : w.Follows spanMax st out) (tokens : List HtmlToken) :
    ∃ w' w'', tokens.foldlM (HtmlWalk.step sheet spanMax) w = some w' ∧
      w'.flushWord spanMax = some w'' ∧ w''.spans =
        (out ++ htmlOutput sheet tokens st).take spanMax ∧
      w''.Bounded spanMax := by
  induction tokens generalizing w st out with
  | nil =>
    obtain ⟨w', hflush, h'⟩ := h.flushWord
    exact ⟨w, w', rfl, hflush, h'.spans, h'.bounded⟩
  | cons token tokens ih =>
    obtain ⟨w₁, hstep, h₁⟩ := h.step sheet token
    rw [List.foldlM_cons, hstep, htmlOutput, ← List.append_assoc]
    exact ih h₁

/-- The walk starts in the state of an empty page. -/
theorem HtmlWalk.start_follows (spanMax : ℕ) :
    HtmlWalk.start.Follows spanMax .start [] where
  bounded := HtmlWalk.start_bounded spanMax
  stack := rfl
  word := rfl
  inTitle := rfl
  space _ := rfl
  spans := (List.take_nil).symm

/-- The walk emits as many spans of a page as there is room for. -/
theorem htmlWalk_output (sheet : CssSheet) (spanMax : ℕ) {html : List UInt8} {fuel : ℕ}
    (hsized : HtmlSized html) (hfuel : html.length + htmlAttrValueMax < fuel) :
    ∃ title, htmlWalk html sheet spanMax fuel =
      some (title, (htmlOutput sheet (htmlTokens html) .start).take spanMax) := by
  obtain ⟨w, w', hrun, hflush, hspans, h⟩ :=
    (HtmlWalk.start_follows spanMax).run (htmlTokens html)
  rw [htmlWalk_eq hsized hfuel, hrun, Option.bind_some, HtmlWalk.finish, hflush,
    Option.bind_eq_bind, Option.bind_some, storeChar, if_pos h.title_lt, hspans]
  exact ⟨_, rfl⟩

end Steps

end AuroraOS.Html
