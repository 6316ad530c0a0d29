import AuroraOS.Css.Model

/-!
# Pages

The three stages of `kernel/html.c`: the style sheets of a page, the walk over its tags and text,
and the lines. A read outside the page fails, and so does a store that leaves its array. A text of C
is the list of the characters in front of its terminator. Positions are `uint32_t`, which matters
where a sum can pass the end of the page.

## Main definitions

- `HtmlSpan`, `HtmlLine`, `HtmlPage`
- `htmlFindAttr`, `htmlCollectStylesheets`
- `HtmlWalk`, `htmlWalk` — the style stack and the spans
- `htmlLayoutWithCss`
-/

namespace AuroraOS.Html

open Lib Css

/-- `HTML_TAG_MAX`. -/
def htmlTagMax : ℕ := 31

/-- `HTML_ATTR_VALUE_MAX`. -/
def htmlAttrValueMax : ℕ := 64

/-- `HTML_MAX_SPANS`. -/
def htmlMaxSpans : ℕ := 8192

/-- `HTML_STYLE_STACK_MAX`. -/
def htmlStyleStackMax : ℕ := 64

/-- `HTML_MAX_LINES`. -/
def htmlMaxLines : ℕ := 2048

/-- `HTML_LINE_MAX`. -/
def htmlLineMax : ℕ := 256

/-- `HTML_TITLE_MAX`. -/
def htmlTitleMax : ℕ := 128

/-- `HTML_RUN_TEXT_MAX`. -/
def htmlRunTextMax : ℕ := 64

/-- `HTML_MAX_RUNS_PER_LINE`. -/
def htmlMaxRunsPerLine : ℕ := 6

/-- `struct html_style_frame`. -/
structure HtmlStyleFrame where
  color : UInt32
  background : UInt32
  hasBackground : Bool
  bold : Bool
  align : ℕ
deriving DecidableEq

/-- `struct html_span`: a word with its style, or a break, of which only `align` is set. -/
inductive HtmlSpan where
  | word (text : List UInt8) (style : HtmlStyleFrame)
  | lineBreak (align : ℕ)
deriving DecidableEq

def HtmlSpan.isBreak : HtmlSpan → Bool
  | .word _ _ => false
  | .lineBreak _ => true

def HtmlSpan.align : HtmlSpan → ℕ
  | .word _ style => style.align
  | .lineBreak align => align

/-- `struct html_run`. -/
structure HtmlRun where
  text : List UInt8
  color : UInt32
  background : UInt32
  hasBackground : Bool
  bold : Bool
deriving DecidableEq

/-- `struct html_line`. -/
structure HtmlLine where
  runs : List HtmlRun
  align : ℕ
deriving DecidableEq

/-- `struct html_page`. -/
structure HtmlPage where
  title : List UInt8
  lines : List HtmlLine
deriving DecidableEq

section Characters

/-- `html_isspace`. -/
def htmlIsSpace (c : UInt8) : Bool := c == ascii ' ' || c == 0x09 || c == 0x0a || c == 0x0d

/-- The table of `decode_entity`. -/
def htmlEntities : List (List UInt8 × UInt8) := [
  (chars "amp;", ascii '&'), (chars "lt;", ascii '<'), (chars "gt;", ascii '>'),
  (chars "quot;", ascii '\x22'), (chars "#39;", ascii '\x27'), (chars "apos;", ascii '\x27'),
  (chars "nbsp;", ascii ' ')]

/-- A store behind the characters of a text, in an array of `size` bytes. -/
def storeChar (size : ℕ) (text : List UInt8) (c : UInt8) : Option (List UInt8) :=
  if text.length < size then some (text ++ [c]) else none

/-- A store of a text and its terminator, in an array of `size` bytes. -/
def storeText (size : ℕ) (text : List UInt8) : Option (List UInt8) :=
  if text.length < size then some text else none

end Characters

section Reading

variable (html : List UInt8)

/-- `decode_entity` for the text at `i`: the name without its `&`, and the character. -/
def decodeEntity (i : ℕ) : List (List UInt8 × UInt8) → Option (Option (List UInt8 × UInt8))
  | [] => some none
  | (name, c) :: table =>
    if html.length - i ≥ name.length then do
      let text ← readSlice html i name.length
      if text = name then some (some (name, c)) else decodeEntity i table
    else decodeEntity i table

/-- The character at `i`, and how far to advance. -/
def htmlCharAt (i : ℕ) : Option (UInt8 × ℕ) := do
  let c ← html[i]?
  if c = ascii '&' then do
    let entity ← decodeEntity html (i + 1) htmlEntities
    match entity with
    | some (name, c) => some (c, name.length + 1)
    | none => some (ascii '&', 1)
  else some (c, 1)

/-- What belongs to the name of an attribute. -/
def htmlInAttrName (c : UInt8) : Bool := c ≠ ascii '=' ∧ !htmlIsSpace c

/-- What belongs to a value, by its quote. -/
def htmlInAttrValue : Option UInt8 → UInt8 → Bool
  | some quote, c => c ≠ quote
  | none, c => !htmlIsSpace c

/-- The quote at `i`, if there is one. -/
def htmlQuoteAt (e i : ℕ) : Option (Option UInt8) :=
  if i < e then do
    let c ← html[i]?
    some (if c = ascii '\x22' ∨ c = ascii '\x27' then some c else none)
  else some none

/-- The comparison of a name of `len` characters at `i`. -/
def htmlNameIs (i len : ℕ) (name : List UInt8) : Option Bool :=
  if len = name.length then do
    let text ← readSlice html i len
    some (text.map cssLower == name)
  else some false

/-- `html_find_attr` from a position on, up to `e`. -/
def htmlFindAttr (e : ℕ) (name : List UInt8) : ℕ → ℕ → Option (Option (List UInt8))
  | 0, _ => none
  | fuel + 1, i =>
    if i < e then do
      let nameStart ← scanWhile html htmlIsSpace (e - i) i
      let i ← scanWhile html htmlInAttrName (e - nameStart) nameStart
      let isMatch ← htmlNameIs html nameStart (i - nameStart) name
      let i ← scanWhile html htmlIsSpace (e - i) i
      let equals ← scanAt html e i (ascii '=')
      if !equals then htmlFindAttr e name fuel i
      else do
        let i := i + 1
        let i ← scanWhile html htmlIsSpace (e - i) i
        let quote ← htmlQuoteAt html e i
        let valStart := if quote.isSome then i + 1 else i
        let i ← scanWhile html (htmlInAttrValue quote) (e - valStart) valStart
        if isMatch then do
          let value ← readSlice html valStart (min (i - valStart) (htmlAttrValueMax - 1))
          let out ← storeChar htmlAttrValueMax value 0
          some (some (cString out))
        else htmlFindAttr e name fuel (if quote.isSome ∧ i < e then i + 1 else i)
    else some none

/-- `marker` stands at `j`, in any case. -/
def htmlMarkerAt (marker : List UInt8) (j : ℕ) : Option Bool := do
  let c ← html[j]?
  if c = ascii '<' ∧ (j + marker.length) % 2 ^ 32 ≤ html.length then do
    let text ← readSlice html j marker.length
    some (text.map cssLower == marker)
  else some false

/-- The loop that looks for an end marker, with `n` characters to the end. -/
def htmlFindMarker (marker : List UInt8) : ℕ → ℕ → Option ℕ
  | 0, j => some j
  | n + 1, j => do
    let found ← htmlMarkerAt html marker j
    if found then some j else htmlFindMarker marker n (j + 1)

/-- The position behind the next `>`. -/
def htmlBehindTag (j : ℕ) : Option ℕ := do
  let j ← scanWhile html (· ≠ ascii '>') (html.length - j) j
  some (if j < html.length then j + 1 else j)

end Reading

section Stylesheets

variable (html : List UInt8)

/-- `is_style_open`. -/
def htmlIsStyleOpen (i : ℕ) : Option Bool :=
  if (i + 6) % 2 ^ 32 < html.length then do
    let text ← readSlice html (i + 1) 6
    some ((text.take 5).map cssLower == chars "style" &&
      (text.drop 5).all fun c => c == ascii '>' || htmlIsSpace c)
  else some false

/-- `html_collect_stylesheets` from a position on. -/
def htmlCollectStylesheets : ℕ → ℕ → CssSheet → Option CssSheet
  | 0, _, _ => none
  | fuel + 1, i, sheet =>
    if i < html.length then do
      let c ← html[i]?
      if c ≠ ascii '<' then htmlCollectStylesheets fuel (i + 1) sheet
      else do
        let isStyleOpen ← htmlIsStyleOpen html i
        if !isStyleOpen then htmlCollectStylesheets fuel (i + 1) sheet
        else do
          let contentStart ← htmlBehindTag html i
          let contentEnd ← htmlFindMarker html (chars "</style") (html.length - contentStart)
            contentStart
          let css ← readSlice html contentStart (contentEnd - contentStart)
          let sheet ← cssParseStylesheet css fuel sheet
          let i ← htmlBehindTag html contentEnd
          htmlCollectStylesheets fuel i sheet
    else some sheet

end Stylesheets

section Walk

/-- The local variables of `html_walk`. The stack has the innermost element first. -/
structure HtmlWalk where
  stack : List HtmlStyleFrame
  word : List UInt8
  lastWasSpace : Bool
  inTitle : Bool
  title : List UInt8
  spans : List HtmlSpan
deriving DecidableEq

/-- The style of a page without styles. -/
def htmlBodyFrame : HtmlStyleFrame := ⟨gfxRgb 0xec 0xee 0xf2, 0, false, false, 0⟩

def HtmlWalk.start : HtmlWalk := ⟨[htmlBodyFrame], [], true, false, [], []⟩

/-- `stack_top`. -/
def HtmlWalk.stackTop (w : HtmlWalk) : ℕ := w.stack.length - 1

/-- `FLUSH_WORD`. -/
def HtmlWalk.flushWord (spanMax : ℕ) (w : HtmlWalk) : Option HtmlWalk :=
  if w.word.length > 0 ∧ w.spans.length < spanMax then do
    let cur ← w.stack.head?
    let word ← storeChar htmlLineMax w.word 0
    some { w with spans := w.spans ++ [.word (cString word) cur], word := [] }
  else some { w with word := [] }

/-- `EMIT_BREAK`. -/
def HtmlWalk.emitBreak (spanMax : ℕ) (w : HtmlWalk) : Option HtmlWalk := do
  let w ← w.flushWord spanMax
  if w.spans.length < spanMax then do
    let cur ← w.stack.head?
    some { w with spans := w.spans ++ [.lineBreak cur.align], lastWasSpace := true }
  else some { w with lastWasSpace := true }

/-- The tags whose elements are bold without a style. -/
def htmlIsBoldTag (tag : List UInt8) : Bool :=
  tag ∈ [chars "strong", chars "b", chars "h1", chars "h2", chars "h3", chars "h4", chars "h5",
    chars "h6"]

/-- The tags with a line of their own. -/
def htmlIsBlockTag (tag : List UInt8) : Bool :=
  tag ∈ [chars "br", chars "p", chars "div", chars "li", chars "tr", chars "h1", chars "h2",
    chars "h3", chars "h4", chars "h5", chars "h6"]

/-- The frame of an element with these declarations inside `parent`. -/
def htmlDeclaredFrame (resolved : CssDeclared) (tag : List UInt8) (parent : HtmlStyleFrame) :
    HtmlStyleFrame :=
  { color := resolved.color.getD parent.color
    background := resolved.background.getD parent.background
    hasBackground := resolved.background.isSome || parent.hasBackground
    bold := resolved.bold.getD (htmlIsBoldTag tag || parent.bold)
    align := resolved.align.getD parent.align }

/-- The frame of an element inside `parent`. -/
def htmlFrame (sheet : CssSheet) (tag : List UInt8) (id classes : Option (List UInt8))
    (inlineDecl : Option CssDeclared) (parent : HtmlStyleFrame) : HtmlStyleFrame :=
  htmlDeclaredFrame (cssResolveStyle sheet (some tag) id classes inlineDecl) tag parent

/-- A tag, with the part of the page that holds its attributes. -/
structure HtmlTag where
  closing : Bool
  name : List UInt8
  attrStart : ℕ
  attrEnd : ℕ

/-- What belongs to the name of a tag. -/
def htmlInTagName (c : UInt8) : Bool := c ≠ ascii '>' ∧ !htmlIsSpace c

variable (html : List UInt8)

/-- The tag at `i`, and the position behind it. -/
def htmlReadTag (i : ℕ) : Option (HtmlTag × ℕ) := do
  let closing ← scanAt html html.length (i + 1) (ascii '/')
  let start := if closing then i + 2 else i + 1
  let attrStart ← scanWhile html htmlInTagName (html.length - start) start
  let name ← readSlice html start (attrStart - start)
  let tag ← storeChar (htmlTagMax + 1) ((name.map cssLower).take htmlTagMax) 0
  let attrEnd ← scanWhile html (· ≠ ascii '>') (html.length - attrStart) attrStart
  some (⟨closing, cString tag, attrStart, attrEnd⟩,
    if attrEnd < html.length then attrEnd + 1 else attrEnd)

/-- The declarations of a `style` attribute. -/
def htmlInlineDecl (fuel : ℕ) : Option (List UInt8) → Option (Option CssDeclared)
  | none => some none
  | some style => do
    let decl ← cssParseInlineStyle fuel style
    some (some decl)

/-- The stack at an opening tag. -/
def htmlOpenTag (fuel : ℕ) (sheet : CssSheet) (tag : HtmlTag) (w : HtmlWalk) :
    Option HtmlWalk := do
  let id ← htmlFindAttr html tag.attrEnd (chars "id") fuel tag.attrStart
  let classes ← htmlFindAttr html tag.attrEnd (chars "class") fuel tag.attrStart
  let style ← htmlFindAttr html tag.attrEnd (chars "style") fuel tag.attrStart
  let inlineDecl ← htmlInlineDecl fuel style
  let parent ← w.stack.head?
  let frame := htmlFrame sheet tag.name id classes inlineDecl parent
  if w.stack.length < htmlStyleStackMax then some { w with stack := frame :: w.stack } else none

/-- A tag other than those of scripts and styles, up to the breaks. -/
def htmlStyleTag (fuel : ℕ) (sheet : CssSheet) (spanMax : ℕ) (tag : HtmlTag) (w : HtmlWalk) :
    Option HtmlWalk :=
  if tag.name = chars "title" then some { w with inTitle := !tag.closing }
  else if !tag.closing ∧ tag.name ≠ chars "br" ∧ w.stackTop < htmlStyleStackMax - 1 then
    htmlOpenTag html fuel sheet tag w
  else if tag.closing ∧ w.stackTop > 0 then do
    let w ← w.flushWord spanMax
    some { w with stack := w.stack.tail }
  else some w

/-- The break at a tag. -/
def htmlBreakTag (spanMax : ℕ) (tag : HtmlTag) (w : HtmlWalk) : Option HtmlWalk :=
  if htmlIsBlockTag tag.name then w.emitBreak spanMax else some w

/-- The end marker of a script or a style. -/
def htmlEndMarker (tag : HtmlTag) : List UInt8 :=
  if tag.name = chars "script" then chars "</script" else chars "</style"

/-- The position behind the content of a script or a style. -/
def htmlSkipRaw (tag : HtmlTag) (j : ℕ) : Option ℕ :=
  if tag.closing then some j
  else do
    let j ← htmlFindMarker html (htmlEndMarker tag) (html.length - j) j
    htmlBehindTag html j

/-- A character of the page. -/
def HtmlWalk.char (spanMax : ℕ) (w : HtmlWalk) (c : UInt8) : Option HtmlWalk :=
  if w.inTitle then
    if w.title.length < htmlTitleMax - 1 ∧ c ≠ 0x0a ∧ c ≠ 0x0d ∧ c ≠ 0x09 then do
      let title ← storeChar htmlTitleMax w.title c
      some { w with title := title }
    else some w
  else if htmlIsSpace c then
    if !w.lastWasSpace then do
      let w ← w.flushWord spanMax
      some { w with lastWasSpace := true }
    else some w
  else if w.word.length < htmlLineMax - 1 then do
    let word ← storeChar htmlLineMax w.word c
    some { w with word := word, lastWasSpace := false }
  else some { w with lastWasSpace := false }

/-- One turn of the loop of `html_walk`. -/
def htmlTurn (fuel : ℕ) (sheet : CssSheet) (spanMax i : ℕ) (w : HtmlWalk) :
    Option (ℕ × HtmlWalk) := do
  let c ← html[i]?
  if c = ascii '<' then do
    let (tag, j) ← htmlReadTag html i
    if tag.name = chars "script" ∨ tag.name = chars "style" then do
      let j ← htmlSkipRaw html tag j
      some (j, w)
    else do
      let w ← htmlStyleTag html fuel sheet spanMax tag w
      let w ← htmlBreakTag spanMax tag w
      some (j, w)
  else do
    let (c, advance) ← htmlCharAt html i
    let w ← w.char spanMax c
    some (i + advance, w)

/-- The loop of `html_walk` from a position on. -/
def htmlWalkFrom (sheet : CssSheet) (spanMax : ℕ) : ℕ → ℕ → HtmlWalk → Option HtmlWalk
  | 0, _, _ => none
  | fuel + 1, i, w =>
    if i < html.length then do
      let (i, w) ← htmlTurn html fuel sheet spanMax i w
      htmlWalkFrom sheet spanMax fuel i w
    else some w

/-- The end of `html_walk`: the title and the spans. -/
def HtmlWalk.finish (spanMax : ℕ) (w : HtmlWalk) : Option (List UInt8 × List HtmlSpan) := do
  let w ← w.flushWord spanMax
  let title ← storeChar htmlTitleMax w.title 0
  some (cString title, w.spans)

/-- `html_walk`. -/
def htmlWalk (sheet : CssSheet) (spanMax fuel : ℕ) : Option (List UInt8 × List HtmlSpan) := do
  let w ← htmlWalkFrom html sheet spanMax fuel 0 .start
  w.finish spanMax

end Walk

section Layout

/-- The clamped `wrap_cols`. -/
def htmlClampCols (wrapCols : ℤ) : ℕ :=
  if wrapCols < 8 then 8 else if wrapCols > htmlLineMax - 1 then htmlLineMax - 1 else wrapCols.toNat

/-- `can_extend` for a run and `n` more characters. -/
def HtmlRun.canExtend (run : HtmlRun) (style : HtmlStyleFrame) (n : ℕ) : Bool :=
  run.color = style.color ∧ run.bold = style.bold ∧ run.hasBackground = style.hasBackground ∧
    (!style.hasBackground ∨ run.background = style.background) ∧
    run.text.length + n < htmlRunTextMax - 1

/-- A new run, with as much of the word as fits. -/
def htmlNewRun (gap word : List UInt8) (style : HtmlStyleFrame) (runs : List HtmlRun) :
    Option (List HtmlRun) :=
  if runs.length < htmlMaxRunsPerLine then do
    let copyLen := if gap.length + word.length > htmlRunTextMax - 1 then
        htmlRunTextMax - 1 - gap.length
      else word.length
    let text ← storeText htmlRunTextMax (gap ++ word.take copyLen)
    some (⟨text, style.color, style.background, style.hasBackground, style.bold⟩ :: runs)
  else some runs

/-- A word on a line, behind a `gap` of at most one space. The last run comes first. -/
def htmlPlaceWord (gap word : List UInt8) (style : HtmlStyleFrame) :
    List HtmlRun → Option (List HtmlRun)
  | [] => htmlNewRun gap word style []
  | last :: runs =>
    if last.canExtend style (gap.length + word.length) then do
      let text ← storeText htmlRunTextMax (last.text ++ gap ++ word)
      some ({ last with text := text } :: runs)
    else htmlNewRun gap word style (last :: runs)

/-- The gap in front of a word. -/
def htmlGap (col : ℕ) : List UInt8 := if col > 0 then [ascii ' '] else []

/-- The loop over the words of a line: its runs, `any_word`, and the spans that are left. -/
def htmlFillLine (wrapCols : ℕ) :
    List HtmlSpan → ℕ → List HtmlRun → Bool → Option (List HtmlRun × Bool × List HtmlSpan)
  | [], _, runs, anyWord => some (runs, anyWord, [])
  | .lineBreak align :: spans, _, runs, anyWord => some (runs, anyWord, .lineBreak align :: spans)
  | .word text style :: spans, col, runs, anyWord =>
    let word := text.take wrapCols
    if col > 0 ∧ col + 1 + word.length > wrapCols then
      some (runs, anyWord, .word text style :: spans)
    else do
      let runs ← htmlPlaceWord (htmlGap col) word style runs
      htmlFillLine wrapCols spans (col + (word.length + (htmlGap col).length)) runs true

/-- The break behind a line. -/
def htmlSkipBreak : List HtmlSpan → List HtmlSpan
  | .lineBreak _ :: spans => spans
  | spans => spans

/-- The loop over the lines, with `prev_blank`. -/
def htmlLines (wrapCols : ℕ) :
    ℕ → List HtmlSpan → List HtmlLine → Bool → Option (List HtmlLine)
  | 0, _, _, _ => none
  | fuel + 1, spans, lines, prevBlank =>
    if spans ≠ [] ∧ lines.length < htmlMaxLines - 1 then
      match spans.dropWhile HtmlSpan.isBreak with
      | [] => some lines
      | span :: spans => do
        let (runs, anyWord, rest) ← htmlFillLine wrapCols (span :: spans) 0 [] false
        if anyWord ∨ !prevBlank then
          htmlLines wrapCols fuel (htmlSkipBreak rest) (lines ++ [⟨runs.reverse, span.align⟩])
            (!anyWord)
        else htmlLines wrapCols fuel (htmlSkipBreak rest) lines prevBlank
    else some lines

/-- The rules of the external style sheets. -/
def htmlExtraSheet (extraCss : List UInt8) (fuel : ℕ) : Option CssSheet :=
  if extraCss.length > 0 then cssParseStylesheet extraCss fuel .empty else some .empty

/-- `html_layout_with_css`. -/
def htmlLayoutWithCss (html extraCss : List UInt8) (wrapCols : ℤ) (fuel : ℕ) :
    Option HtmlPage := do
  let sheet ← htmlExtraSheet extraCss fuel
  let sheet ← htmlCollectStylesheets html fuel 0 sheet
  let (title, spans) ← htmlWalk html sheet htmlMaxSpans fuel
  let lines ← htmlLines (htmlClampCols wrapCols) fuel spans [] true
  some ⟨title, lines.rdropWhile fun line => line.runs.isEmpty⟩

end Layout

end AuroraOS.Html
