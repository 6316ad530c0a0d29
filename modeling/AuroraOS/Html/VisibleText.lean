import AuroraOS.Html.Spans
import AuroraOS.Html.Markup
import AuroraOS.Lib.TextWrap

/-!
# The visible text

The visible text of a page is what is left of its items without tags, comments, scripts and styles,
with the entities decoded and with breaks at the tags of blocks. The walk finds the same text but
for cuts: a word is cut where the closing tag of an open element stands inside, since the walk
flushes its word there.

## Main definitions

- `htmlVisible` — the visible text of the items of a page
- `htmlPieces` — the text that the walk finds, with the cuts

## Main results

- `uncutPieces_htmlPieces` — the walk finds the visible text but for the cuts
- `htmlOutput_shows` — the words of the spans are those of the text with the cuts
-/

namespace AuroraOS.Html

open Lib Css

/-- What is seen of an item, in a title or outside of it. -/
def HtmlItem.visible (inTitle : Bool) : HtmlItem → List (Piece UInt8)
  | .char c | .entity _ c =>
    if inTitle then [] else if htmlIsSpace c then [.space] else [.char c]
  | .tag _ name _ => if htmlIsBlockTag (name.map cssLower) then [.lineBreak] else []
  | .raw _ _ _ _ _ | .comment _ | .declaration _ => []

/-- Whether a title is open behind an item. -/
def HtmlItem.inTitle (inTitle : Bool) : HtmlItem → Bool
  | .tag closing name _ => if name.map cssLower = chars "title" then !closing else inTitle
  | _ => inTitle

/-- The visible text of a page, which is not in a title. -/
def htmlVisible : Bool → List HtmlItem → List (Piece UInt8)
  | _, [] => []
  | inTitle, item :: items => item.visible inTitle ++ htmlVisible (item.inTitle inTitle) items

/-- The words and breaks of the visible text. -/
def htmlText (items : List HtmlItem) : List (Option (List UInt8)) :=
  pieceItems [] (htmlVisible false items)

/-- The number of open elements behind a tag. -/
def htmlDepth (depth : ℕ) (closing : Bool) (name : List UInt8) : ℕ :=
  if closing = false ∧ name ≠ chars "br" ∧ depth < htmlStyleStackMax - 1 then depth + 1
  else if closing then depth - 1
  else depth

/-- A cut at the closing tag of an open element, in front of other pieces. -/
def htmlCut (depth : ℕ) (closing : Bool) (ps : List (Piece UInt8)) : List (Piece UInt8) :=
  if closing ∧ depth > 0 then .cut :: ps else ps

/-- The text of the tags and characters that the walk finds, with the cuts at the closing tags of
    open elements. -/
def htmlPieces : ℕ → Bool → List HtmlToken → List (Piece UInt8)
  | _, _, [] => []
  | depth, true, .char _ :: tokens => htmlPieces depth true tokens
  | depth, false, .char c :: tokens =>
    (if htmlIsSpace c then .space else .char c) :: htmlPieces depth false tokens
  | depth, inTitle, .tag closing name _ :: tokens =>
    if name = chars "script" ∨ name = chars "style" then htmlPieces depth inTitle tokens
    else if name = chars "title" then htmlPieces depth (!closing) tokens
    else if htmlIsBlockTag name then
      htmlCut depth closing (.lineBreak :: htmlPieces (htmlDepth depth closing name) inTitle tokens)
    else htmlCut depth closing (htmlPieces (htmlDepth depth closing name) inTitle tokens)

theorem uncutPieces_htmlCut (depth : ℕ) (closing : Bool) (ps : List (Piece UInt8)) :
    uncutPieces (htmlCut depth closing ps) = uncutPieces ps := by
  rw [htmlCut]
  split_ifs
  · rfl
  · rfl

section Items

variable {depth : ℕ} {inTitle : Bool} {tokens : List HtmlToken}

theorem uncutPieces_char (c : UInt8) :
    uncutPieces (htmlPieces depth inTitle (.char c :: tokens)) =
      HtmlItem.visible inTitle (.char c) ++ uncutPieces (htmlPieces depth inTitle tokens) := by
  cases inTitle with
  | true => rfl
  | false =>
    rw [htmlPieces, HtmlItem.visible, if_neg Bool.false_ne_true]
    split_ifs
    · rfl
    · rfl

theorem uncutPieces_tag (closing : Bool) (name attrs : List UInt8) :
    ∃ depth', uncutPieces (htmlPieces depth inTitle (.tag closing name attrs :: tokens)) =
      (if htmlIsBlockTag name then [.lineBreak] else []) ++
        uncutPieces (htmlPieces depth'
          (if name = chars "title" then !closing else inTitle) tokens) := by
  rw [htmlPieces.eq_4]
  by_cases hraw : name = chars "script" ∨ name = chars "style"
  · refine ⟨depth, ?_⟩
    obtain rfl | rfl := hraw
    · rfl
    · rfl
  rw [if_neg hraw]
  by_cases htitle : name = chars "title"
  · refine ⟨depth, ?_⟩
    rw [htitle]
    rfl
  refine ⟨htmlDepth depth closing name, ?_⟩
  rw [if_neg htitle, if_neg htitle]
  split_ifs
  · rw [uncutPieces_htmlCut]
    rfl
  · rw [uncutPieces_htmlCut]
    rfl

/-- The walk takes a comment or a declaration for a tag whose name starts with `!`. -/
theorem uncutPieces_mark (text : List UInt8) :
    ∃ depth', uncutPieces (htmlPieces depth inTitle (htmlMarkToken (ascii '!' :: text) :: tokens)) =
      uncutPieces (htmlPieces depth' inTitle tokens) := by
  obtain ⟨depth', htag⟩ := @uncutPieces_tag depth inTitle tokens false
    (htmlTagName ((ascii '!' :: text).takeWhile htmlInTagName))
    ((ascii '!' :: text).dropWhile htmlInTagName)
  refine ⟨depth', htag.trans ?_⟩
  have hfirst := head?_htmlTagName_mark text
  have hother : ∀ name ∈ [chars "title", chars "br", chars "p", chars "div", chars "li",
      chars "tr", chars "h1", chars "h2", chars "h3", chars "h4", chars "h5", chars "h6"],
      name.head? ≠ some (ascii '!') := by decide
  rw [if_neg, if_neg]
  · rfl
  · exact fun heq => hother _ List.mem_cons_self (heq ▸ hfirst)
  · exact fun hblock => hother _ (List.mem_cons_of_mem _ (of_decide_eq_true hblock)) hfirst

/-- The walk finds of an item what is seen of it. -/
theorem HtmlItem.Valid.uncutPieces {item : HtmlItem} {rest : List UInt8} (h : item.Valid rest) :
    ∃ depth', uncutPieces (htmlPieces depth inTitle (item.token :: tokens)) =
      item.visible inTitle ++ uncutPieces (htmlPieces depth' (item.inTitle inTitle) tokens) := by
  cases item with
  | char c => exact ⟨depth, uncutPieces_char c⟩
  | entity name c => exact ⟨depth, uncutPieces_char c⟩
  | tag closing name attrs => exact uncutPieces_tag closing (name.map cssLower) _
  | raw name attrs content closeName closeText =>
    obtain ⟨-, -, hraw, -⟩ := h
    exact ⟨depth, congrArg Lib.uncutPieces (if_pos hraw)⟩
  | comment body => exact uncutPieces_mark _
  | declaration body => exact uncutPieces_mark _

end Items

/-- The walk finds the visible text of the items of a page but for the cuts. -/
theorem uncutPieces_htmlPieces {items : List HtmlItem} (h : HtmlMarkup items) (depth : ℕ)
    (inTitle : Bool) : uncutPieces (htmlPieces depth inTitle (items.map HtmlItem.token)) =
      htmlVisible inTitle items := by
  induction items generalizing depth inTitle with
  | nil => rfl
  | cons item items ih =>
    obtain ⟨depth', hitem⟩ := @HtmlItem.Valid.uncutPieces depth inTitle (items.map HtmlItem.token)
      item _ h.1
    rw [List.map_cons, hitem, ih h.2, htmlVisible]

/-- The characters of the text that the walk finds are not spaces. -/
theorem not_space_of_mem_pieceChars {c : UInt8} {depth : ℕ} {inTitle : Bool}
    {tokens : List HtmlToken} (h : c ∈ pieceChars (htmlPieces depth inTitle tokens)) :
    htmlIsSpace c = false := by
  have hcut : ∀ depth closing ps, pieceChars (htmlCut depth closing ps) = pieceChars ps := by
    intro depth closing ps
    rw [htmlCut]
    split_ifs
    · rfl
    · rfl
  induction tokens generalizing depth inTitle with
  | nil => exact absurd h List.not_mem_nil
  | cons token tokens ih =>
    cases token with
    | char b =>
      cases inTitle with
      | true => exact ih h
      | false =>
        rw [htmlPieces] at h
        split_ifs at h with hb
        · exact ih h
        · obtain rfl | h := List.mem_cons.mp h
          · exact Bool.eq_false_of_not_eq_true hb
          · exact ih h
    | tag closing name attrs =>
      rw [htmlPieces.eq_4] at h
      split_ifs at h
      · exact ih h
      · exact ih h
      · rw [hcut] at h
        exact ih h
      · rw [hcut] at h
        exact ih h

/-- A word or a break of a span. -/
def HtmlSpan.item : HtmlSpan → Option (List UInt8)
  | .word text _ => some text
  | .lineBreak _ => none

section Output

variable {sheet : CssSheet} {st : HtmlState} {tokens : List HtmlToken}

/-- A stream of spans shows words and breaks, up to the first NUL of each word. -/
def Shows (spans : List HtmlSpan) (items : List (Option (List UInt8))) : Prop :=
  spans.map HtmlSpan.item = items.map (Option.map cString)

theorem Shows.append {spans spans' : List HtmlSpan} {items items' : List (Option (List UInt8))}
    (h : Shows spans items) (h' : Shows spans' items') :
      Shows (spans ++ spans') (items ++ items') := by
  rw [Shows, List.map_append, List.map_append, h, h']

theorem HtmlState.flushed_shows (st : HtmlState) : Shows st.flushed (closeWord st.word []) := by
  rw [Shows, closeWord, HtmlState.flushed]
  split_ifs
  · rfl
  · rfl

/-- A break emits the word in front of it. -/
theorem HtmlState.lineBreak_items (st : HtmlState) (ps : List (Piece UInt8)) :
    ∃ front, pieceItems st.word (.lineBreak :: ps) = front ++ pieceItems st.lineBreak.1.word ps ∧
      Shows st.lineBreak.2 front := by
  refine ⟨closeWord st.word [] ++ [none], ?_, st.flushed_shows.append rfl⟩
  rw [pieceItems, closeWord_eq_append, List.append_assoc]
  rfl

theorem HtmlState.char_items (st : HtmlState) (c : UInt8)
    (h : ∀ w, some w ∈
      pieceItems st.word (htmlPieces st.below.length st.inTitle (.char c :: tokens)) →
      w.length < htmlLineMax) :
    ∃ front, pieceItems st.word (htmlPieces st.below.length st.inTitle (.char c :: tokens)) =
        front ++ pieceItems (st.char c).1.word
          (htmlPieces (st.char c).1.below.length (st.char c).1.inTitle tokens) ∧
      Shows (st.char c).2 front := by
  rw [HtmlState.char]
  by_cases htitle : st.inTitle = true
  · rw [if_pos htitle]
    exact ⟨[], by rw [htitle]; rfl, rfl⟩
  · have hfalse := Bool.eq_false_of_not_eq_true htitle
    rw [hfalse, htmlPieces] at h ⊢
    rw [if_neg Bool.false_ne_true]
    split_ifs at h ⊢ with hspace hroom
    · refine ⟨closeWord st.word [], ?_, st.flushed_shows⟩
      rw [pieceItems, closeWord_eq_append]
    · exact ⟨[], rfl, rfl⟩
    · -- the word would be longer than there is room for
      have hlen := length_le_of_pieceItems
        (show ∀ w, some w ∈ pieceItems (st.word ++ [c]) (htmlPieces st.below.length false tokens) →
          w.length ≤ htmlLineMax - 1 from fun w hw => Nat.le_sub_one_of_lt (h w hw))
      rw [List.length_append, List.length_singleton] at hlen
      exact absurd (Nat.lt_of_succ_le hlen) hroom

/-- A tag other than those of the title, scripts and styles, up to the breaks. -/
theorem HtmlState.styleTag_items (sheet : CssSheet) (st : HtmlState) (closing : Bool)
    (name attrs : List UInt8) (hname : name ≠ chars "title") (ps : List (Piece UInt8)) :
    ∃ front, pieceItems st.word (htmlCut st.below.length closing ps) =
        front ++ pieceItems (st.styleTag sheet closing name attrs).1.word ps ∧
      Shows (st.styleTag sheet closing name attrs).2 front ∧
      (st.styleTag sheet closing name attrs).1.below.length =
        htmlDepth st.below.length closing name ∧
      (st.styleTag sheet closing name attrs).1.inTitle = st.inTitle := by
  rw [HtmlState.styleTag, if_neg hname, htmlDepth, htmlCut]
  by_cases hopen : closing = false ∧ name ≠ chars "br" ∧ st.below.length < htmlStyleStackMax - 1
  · have hopens : st.Opens closing name := hopen
    rw [if_pos hopens, if_pos hopen, hopen.1, if_neg fun h => Bool.false_ne_true h.1]
    exact ⟨[], rfl, rfl, rfl, rfl⟩
  · have hopens : ¬st.Opens closing name := hopen
    rw [if_neg hopens, if_neg hopen]
    cases closing with
    | false =>
      rw [if_neg fun h => Bool.false_ne_true h.1, if_neg Bool.false_ne_true,
        if_neg Bool.false_ne_true]
      exact ⟨[], rfl, rfl, rfl, rfl⟩
    | true =>
      rw [if_pos rfl, if_pos rfl, HtmlState.close]
      cases hbelow : st.below with
      | nil => exact ⟨[], rfl, rfl, congrArg List.length hbelow, rfl⟩
      | cons parent below =>
        rw [if_pos ⟨rfl, Nat.succ_pos _⟩]
        exact ⟨closeWord st.word [], by rw [pieceItems, closeWord_eq_append], st.flushed_shows, rfl,
          rfl⟩

/-- A step emits the words that end with it. -/
theorem HtmlState.step_items (sheet : CssSheet) (st : HtmlState) (token : HtmlToken)
    (h : ∀ w, some w ∈
      pieceItems st.word (htmlPieces st.below.length st.inTitle (token :: tokens)) →
      w.length < htmlLineMax) :
    ∃ front, pieceItems st.word (htmlPieces st.below.length st.inTitle (token :: tokens)) =
        front ++ pieceItems (st.step sheet token).1.word
          (htmlPieces (st.step sheet token).1.below.length (st.step sheet token).1.inTitle tokens) ∧
      Shows (st.step sheet token).2 front := by
  cases token with
  | char c => exact st.char_items c h
  | tag closing name attrs =>
    rw [htmlPieces.eq_4, HtmlState.step]
    by_cases hraw : name = chars "script" ∨ name = chars "style"
    · rw [if_pos hraw, if_pos hraw]
      exact ⟨[], rfl, rfl⟩
    · rw [if_neg hraw, if_neg hraw]
      by_cases htitle : name = chars "title"
      · rw [if_pos htitle, htitle, if_neg (by decide), HtmlState.styleTag, if_pos rfl]
        exact ⟨[], rfl, rfl⟩
      · rw [if_neg htitle]
        split_ifs
        · obtain ⟨front, hitems, hshows, hdepth, hin⟩ := st.styleTag_items sheet closing name attrs
            htitle (.lineBreak :: htmlPieces (htmlDepth st.below.length closing name) st.inTitle
              tokens)
          obtain ⟨front', hitems', hshows'⟩ :=
            (st.styleTag sheet closing name attrs).1.lineBreak_items
              (htmlPieces (htmlDepth st.below.length closing name) st.inTitle tokens)
          refine ⟨front ++ front', ?_, hshows.append hshows'⟩
          rw [hitems, hitems', List.append_assoc, ← hdepth, ← hin]
          rfl
        · obtain ⟨front, hitems, hshows, hdepth, hin⟩ := st.styleTag_items sheet closing name attrs
            htitle (htmlPieces (htmlDepth st.below.length closing name) st.inTitle tokens)
          exact ⟨front, by rw [hitems, hdepth, hin], hshows⟩

/-- The words of the spans are those of the text with the cuts. -/
theorem htmlOutput_shows (h : ∀ w, some w ∈ pieceItems st.word
      (htmlPieces st.below.length st.inTitle tokens) → w.length < htmlLineMax) :
    Shows (htmlOutput sheet tokens st)
      (pieceItems st.word (htmlPieces st.below.length st.inTitle tokens)) := by
  induction tokens generalizing st with
  | nil => exact st.flushed_shows
  | cons token tokens ih =>
    obtain ⟨front, hitems, hshows⟩ := st.step_items sheet token h
    rw [hitems] at h ⊢
    rw [htmlOutput]
    exact hshows.append (ih fun w hw => h w (List.mem_append_right front hw))

end Output

end AuroraOS.Html
