import AuroraOS.Lib.Ascii
import AuroraOS.Lib.CString
import AuroraOS.Lib.Int32
import AuroraOS.Lib.Scan
import Mathlib.Data.List.DropRight

/-!
# Style sheets

The parser and the cascade of `kernel/css.c`. A string of C is the list of its characters; a read
outside the input, or a write outside a rule or the array of rules, fails. A position is a
`uint32_t`, which matters where it can move behind the end of the input. The loops that can move on
by more than one character run on fuel.

## Main definitions

- `CssDeclared`, `CssSheet`
- `cssParseColor`, `cssApplyProperty`
- `cssParseDeclarations`, `cssParseStylesheet`
- `cssResolveStyle`
-/

namespace AuroraOS.Css

open Lib

/-- `CSS_SELECTOR_NAME_MAX`. -/
def cssSelectorNameMax : ℕ := 32

/-- `CSS_VALUE_MAX`. -/
def cssValueMax : ℕ := 32

/-- `CSS_SHEET_MAX_RULES`. -/
def cssSheetMaxRules : ℕ := 256

/-- `struct css_declared`, with `none` where a `has_` flag is not set. -/
structure CssDeclared where
  color : Option UInt32
  background : Option UInt32
  bold : Option Bool
  align : Option ℕ
deriving DecidableEq

/-- A cleared `struct css_declared`. -/
def CssDeclared.empty : CssDeclared := ⟨none, none, none, none⟩

/-- `enum css_selector_kind`. -/
inductive CssSelectorKind where
  | selTag
  | selClass
  | selId
deriving DecidableEq

/-- `struct css_rule`. -/
structure CssRule where
  selectorKind : CssSelectorKind
  selectorName : Buffer cssSelectorNameMax
  decl : CssDeclared
  sourceOrder : ℤ

/-- `struct css_sheet`. -/
structure CssSheet where
  rules : Vector CssRule cssSheetMaxRules
  ruleCount : ℕ

/-- A cleared `struct css_sheet`. -/
def CssSheet.empty : CssSheet :=
  ⟨Vector.replicate _ ⟨.selTag, Buffer.zeros _, .empty, 0⟩, 0⟩

section Characters

/-- `css_isspace`. -/
def cssIsSpace (c : UInt8) : Bool := c == ascii ' ' || c == 0x09 || c == 0x0a || c == 0x0d

/-- A capital letter becomes a small one. -/
def cssLower (c : UInt8) : UInt8 := if ascii 'A' ≤ c ∧ c ≤ ascii 'Z' then c + 32 else c

def cssIsDigit (c : UInt8) : Bool := ascii '0' ≤ c && c ≤ ascii '9'

/-- `css_hex_digit`, without the -1. -/
def cssHexDigit (c : UInt8) : Option ℕ :=
  if cssIsDigit c then some (c - ascii '0').toNat
  else if ascii 'a' ≤ c ∧ c ≤ ascii 'f' then some ((c - ascii 'a').toNat + 10)
  else if ascii 'A' ≤ c ∧ c ≤ ascii 'F' then some ((c - ascii 'A').toNat + 10)
  else none

/-- The loops that read an `int` in decimal, which wraps around. -/
def cssDecimal (digits : List UInt8) : ℤ :=
  digits.foldl (fun v c => wrap32 (wrap32 (v * 10) + (c - ascii '0').toNat)) 0

end Characters

section Properties

/-- `GFX_RGB` of three bytes. -/
def gfxRgb (r g b : UInt8) : UInt32 := (r.toUInt32 <<< 16) ||| (g.toUInt32 <<< 8) ||| b.toUInt32

/-- `CSS_NAMED_COLORS`. -/
def cssNamedColors : List (List UInt8 × UInt32) := [
  (chars "black", gfxRgb 0x00 0x00 0x00), (chars "white", gfxRgb 0xff 0xff 0xff),
  (chars "red", gfxRgb 0xff 0x00 0x00), (chars "green", gfxRgb 0x00 0x80 0x00),
  (chars "blue", gfxRgb 0x00 0x00 0xff), (chars "yellow", gfxRgb 0xff 0xff 0x00),
  (chars "orange", gfxRgb 0xff 0xa5 0x00), (chars "purple", gfxRgb 0x80 0x00 0x80),
  (chars "gray", gfxRgb 0x80 0x80 0x80), (chars "grey", gfxRgb 0x80 0x80 0x80),
  (chars "silver", gfxRgb 0xc0 0xc0 0xc0), (chars "maroon", gfxRgb 0x80 0x00 0x00),
  (chars "navy", gfxRgb 0x00 0x00 0x80), (chars "teal", gfxRgb 0x00 0x80 0x80),
  (chars "olive", gfxRgb 0x80 0x80 0x00), (chars "lime", gfxRgb 0x00 0xff 0x00),
  (chars "aqua", gfxRgb 0x00 0xff 0xff), (chars "cyan", gfxRgb 0x00 0xff 0xff),
  (chars "magenta", gfxRgb 0xff 0x00 0xff), (chars "fuchsia", gfxRgb 0xff 0x00 0xff),
  (chars "pink", gfxRgb 0xff 0xc0 0xcb), (chars "brown", gfxRgb 0xa5 0x2a 0x2a),
  (chars "transparent", gfxRgb 0x00 0x00 0x00)]

/-- `css_parse_color` behind a `#`. -/
def cssHexColor (text : List UInt8) : Option UInt32 :=
  match (text.takeWhile fun c => (cssHexDigit c).isSome).filterMap cssHexDigit with
  | [r₁, r₀, g₁, g₀, b₁, b₀] => some (gfxRgb (.ofNat (r₁ * 16 + r₀)) (.ofNat (g₁ * 16 + g₀))
      (.ofNat (b₁ * 16 + b₀)))
  | [r, g, b] => some (gfxRgb (.ofNat (r * 16 + r)) (.ofNat (g * 16 + g)) (.ofNat (b * 16 + b)))
  | _ => none

/-- One of the channels of `rgb(...)`, and the text behind it. -/
def cssChannel (text : List UInt8) : Option (UInt8 × List UInt8) :=
  let text := text.dropWhile fun c => cssIsSpace c || c == ascii ','
  let digits := text.takeWhile cssIsDigit
  if digits = [] then none
  else
    let v := cssDecimal digits
    some (UInt8.ofInt (if v > 255 then 255 else v), text.dropWhile cssIsDigit)

/-- `css_parse_color` behind the `(` of `rgb(` or `rgba(`. -/
def cssRgbColor (text : List UInt8) : Option UInt32 := do
  let (r, text) ← cssChannel text
  let (g, text) ← cssChannel text
  let (b, _) ← cssChannel text
  some (gfxRgb r g b)

/-- `css_parse_color`. -/
def cssParseColor (value : List UInt8) : Option UInt32 :=
  let text := value.dropWhile cssIsSpace
  if text.head? = some (ascii '#') then cssHexColor text.tail
  else if chars "rgb(" <+: text ∨ chars "rgba(" <+: text then
    cssRgbColor (text.dropWhile (· ≠ ascii '(')).tail
  else (cssNamedColors.find? fun cand => cand.1 == text.map cssLower).map Prod.snd

/-- `css_apply_property` for `font-weight`. -/
def cssIsBold (value : List UInt8) : Bool :=
  value == chars "bold" || value == chars "bolder" ||
    (value.head?.any cssIsDigit && cssDecimal (value.takeWhile cssIsDigit) ≥ 700)

/-- `css_apply_property` for `text-align`. -/
def cssAlign (value : List UInt8) : Option ℕ :=
  if value = chars "left" then some 0
  else if value = chars "center" then some 1
  else if value = chars "right" then some 2
  else none

/-- `css_apply_property`. -/
def cssApplyProperty (decl : CssDeclared) (prop value : List UInt8) : CssDeclared :=
  if prop = chars "color" then
    match cssParseColor value with
    | some c => { decl with color := some c }
    | none => decl
  else if prop = chars "background-color" ∨ prop = chars "background" then
    match cssParseColor value with
    | some c => { decl with background := some c }
    | none => decl
  else if prop = chars "font-weight" then { decl with bold := some (cssIsBold value) }
  else if prop = chars "text-align" then
    match cssAlign value with
    | some align => { decl with align := some align }
    | none => decl
  else decl

end Properties

section Declarations

/-- What is in front of the trailing spaces. -/
def cssTrimRight (text : List UInt8) : List UInt8 := text.rdropWhile cssIsSpace

/-- What is in front of a colon or a semicolon. -/
def cssInName (c : UInt8) : Bool := c ≠ ascii ':' ∧ c ≠ ascii ';'

/-- What the name of a property keeps of a character. -/
def cssKeep (c : UInt8) : Option UInt8 := if cssIsSpace c then none else some (cssLower c)

/-- What is in front of a semicolon. -/
def cssInValue (c : UInt8) : Bool := c ≠ ascii ';'

/-- What is skipped in front of a declaration. -/
def cssIsGap (c : UInt8) : Bool := cssIsSpace c || c == ascii ';'

/-- `css_parse_declarations` from a position on, up to `e`. -/
def cssParseDeclarations (s : List UInt8) (e : ℕ) : ℕ → ℕ → CssDeclared → Option CssDeclared
  | 0, _, _ => none
  | fuel + 1, i, decl =>
    if i < e then do
      let i ← scanWhile s cssIsGap (e - i) i
      if i ≥ e then some decl
      else do
        let (prop, i) ← scanInto s cssInName cssKeep (cssSelectorNameMax - 1) (e - i) i []
        let i ← scanWhile s cssInName (e - i) i
        let colon ← scanAt s e i (ascii ':')
        if !colon then do
          let i ← scanWhile s cssInValue (e - i) i
          cssParseDeclarations s e fuel i decl
        else do
          let i := i + 1
          let i ← scanWhile s cssIsSpace (e - i) i
          let (value, i) ← scanInto s cssInValue some (cssValueMax - 1) (e - i) i []
          let decl := if prop.length > 0 then
              cssApplyProperty decl (cString prop) (cString (cssTrimRight value))
            else decl
          cssParseDeclarations s e fuel i decl
    else some decl

/-- `css_parse_inline_style`. -/
def cssParseInlineStyle (fuel : ℕ) (styleAttr : List UInt8) : Option CssDeclared :=
  cssParseDeclarations styleAttr styleAttr.length fuel 0 .empty

end Declarations

section Stylesheets

variable (css : List UInt8)

/-- `css_skip_ws`. -/
def cssSkipWs (i : ℕ) : Option ℕ := scanWhile css cssIsSpace (css.length - i) i

/-- The loop that looks for the end of a comment. -/
def cssSkipComment : ℕ → ℕ → Option ℕ
  | 0, _ => none
  | fuel + 1, i =>
    if (i + 1) % 2 ^ 32 < css.length then do
      let a ← css[i]?
      let b ← css[(i + 1) % 2 ^ 32]?
      if a = ascii '*' ∧ b = ascii '/' then some i else cssSkipComment fuel (i + 1)
    else some i

/-- A comment starts at `i`. -/
def cssAtComment (i : ℕ) : Option Bool :=
  if i + 1 < css.length then do
    let a ← css[i]?
    let b ← css[i + 1]?
    some (a == ascii '/' && b == ascii '*')
  else some false

/-- The resynchronisation, to the next `}` or the end. -/
def cssResync (i : ℕ) : Option ℕ := do
  let i ← scanWhile css (· ≠ ascii '}') (css.length - i) i
  some (if i < css.length then i + 1 else i)

/-- What belongs to the name of a selector. -/
def cssInSelector (c : UInt8) : Bool := c ≠ ascii ',' ∧ c ≠ ascii '{' ∧ !cssIsSpace c

/-- A selector, with the name that is stored of it. -/
abbrev CssSelector := CssSelectorKind × List UInt8

/-- The kind of a selector, by its first character. -/
def cssKindOf (c : UInt8) : CssSelectorKind :=
  if c = ascii '.' then .selClass else if c = ascii '#' then .selId else .selTag

/-- One selector of a group, which starts with `c` at `i`: what is stored, and the position behind
    it. -/
def cssSelector (c : UInt8) (i : ℕ) (selectors : List CssSelector) :
    Option (List CssSelector × ℕ) := do
  let start := if cssKindOf c = .selTag then i else i + 1
  let (name, i) ← scanInto css cssInSelector (some ∘ cssLower) (cssSelectorNameMax - 1)
    (css.length - start) start []
  let i ← cssSkipWs css i
  some (if name.length > 0 ∧ selectors.length < 16 then
    selectors ++ [(cssKindOf c, cString name)] else selectors, i)

/-- The loop over a group of selectors, with `malformed` last. -/
def cssSelectorGroup : ℕ → ℕ → List CssSelector → Option (List CssSelector × ℕ × Bool)
  | 0, _, _ => none
  | fuel + 1, i, selectors => do
    let i ← cssSkipWs css i
    if i ≥ css.length then some (selectors, i, true)
    else do
      let c ← css[i]?
      if c = ascii '{' ∨ c = ascii '}' then some (selectors, i, true)
      else do
        let (selectors, i) ← cssSelector css c i selectors
        let comma ← scanAt css css.length i (ascii ',')
        if comma then cssSelectorGroup fuel (i + 1) selectors else some (selectors, i, false)

/-- The loop that adds a rule for every selector. -/
def cssAddRules (decl : CssDeclared) : List CssSelector → CssSheet → Option CssSheet
  | [], sheet => some sheet
  | (kind, name) :: selectors, sheet =>
    if h : sheet.ruleCount < cssSheetMaxRules then do
      let selectorName ← sheet.rules[sheet.ruleCount].selectorName.store 0 (name ++ [0])
      let rule := ⟨kind, selectorName, decl, sheet.ruleCount⟩
      cssAddRules decl selectors
        ⟨sheet.rules.set sheet.ruleCount rule h, sheet.ruleCount + 1⟩
    else some sheet

/-- One turn of `css_parse_stylesheet` at a rule: its position afterwards and the sheet. -/
def cssParseRule (fuel i : ℕ) (sheet : CssSheet) : Option (ℕ × CssSheet) := do
  let (selectors, i, malformed) ← cssSelectorGroup css fuel i []
  if malformed then do
    let i ← cssResync css i
    some (i, sheet)
  else do
    let i ← cssSkipWs css i
    let brace ← scanAt css css.length i (ascii '{')
    if !brace then do
      let i ← cssResync css i
      some (i, sheet)
    else do
      let declStart := i + 1
      let declEnd ← scanWhile css (· ≠ ascii '}') (css.length - declStart) declStart
      let i := if declEnd < css.length then declEnd + 1 else declEnd
      let decl ← cssParseDeclarations css declEnd fuel declStart .empty
      let sheet ← cssAddRules decl selectors sheet
      some (i, sheet)

/-- `css_parse_stylesheet` from a position on. -/
def cssParseFrom : ℕ → ℕ → CssSheet → Option CssSheet
  | 0, _, _ => none
  | fuel + 1, i, sheet =>
    if i < css.length ∧ sheet.ruleCount < cssSheetMaxRules then do
      let i ← cssSkipWs css i
      if i ≥ css.length then some sheet
      else do
        let comment ← cssAtComment css i
        if comment then do
          let i ← cssSkipComment css fuel ((i + 2) % 2 ^ 32)
          cssParseFrom fuel ((i + 2) % 2 ^ 32) sheet
        else do
          let (i, sheet) ← cssParseRule css fuel i sheet
          cssParseFrom fuel i sheet
    else some sheet

/-- `css_parse_stylesheet`. -/
def cssParseStylesheet (fuel : ℕ) (sheet : CssSheet) : Option CssSheet :=
  cssParseFrom css fuel 0 sheet

end Stylesheets

section Cascade

/-- `css_specificity`. -/
def cssSpecificity : CssSelectorKind → ℤ
  | .selId => 100
  | .selClass => 10
  | .selTag => 1

/-- The loop over the class names, from a place in the list on. -/
def cssHasClass (name : List UInt8) : ℕ → List UInt8 → Bool
  | 0, _ => false
  | _ + 1, [] => false
  | fuel + 1, p =>
    let p := p.dropWhile (· = ascii ' ')
    let word := p.takeWhile (· ≠ ascii ' ')
    if word.length = name.length ∧ word.length > 0 ∧ word = name then true
    else cssHasClass name fuel (p.drop word.length)

/-- The part of `css_resolve_style` that matches a rule. -/
def CssRule.matches (rule : CssRule) (tag id classes : Option (List UInt8)) : Bool :=
  match rule.selectorKind with
  | .selTag => tag == some rule.selectorName.str
  | .selId => id == some rule.selectorName.str
  | .selClass => classes.any fun p => cssHasClass rule.selectorName.str p.length p

/-- A property of `out`, with its `best_` variables. -/
structure CssBest (α : Type) where
  value : Option α
  spec : ℤ
  order : ℤ

/-- The `if` of a matching rule that may declare the property. -/
def CssBest.offer {α : Type} (best : CssBest α) (value : Option α) (spec order : ℤ) : CssBest α :=
  if value.isSome ∧ (spec > best.spec ∨ spec = best.spec ∧ order > best.order) then
    ⟨value, spec, order⟩
  else best

/-- The properties of `out` in the loop over the rules. -/
structure CssOut where
  color : CssBest UInt32
  background : CssBest UInt32
  bold : CssBest Bool
  align : CssBest ℕ

def CssOut.start : CssOut := ⟨⟨none, -1, -1⟩, ⟨none, -1, -1⟩, ⟨none, -1, -1⟩, ⟨none, -1, -1⟩⟩

/-- One turn of the loop over the rules. -/
def CssOut.step (tag id classes : Option (List UInt8)) (out : CssOut) (rule : CssRule) : CssOut :=
  if rule.matches tag id classes then
    let spec := cssSpecificity rule.selectorKind
    ⟨out.color.offer rule.decl.color spec rule.sourceOrder,
      out.background.offer rule.decl.background spec rule.sourceOrder,
      out.bold.offer rule.decl.bold spec rule.sourceOrder,
      out.align.offer rule.decl.align spec rule.sourceOrder⟩
  else out

/-- The rules below `rule_count`. -/
def CssSheet.used (sheet : CssSheet) : List CssRule := sheet.rules.toList.take sheet.ruleCount

/-- `css_resolve_style`. -/
def cssResolveStyle (sheet : CssSheet) (tag id classes : Option (List UInt8))
    (inlineDecl : Option CssDeclared) : CssDeclared :=
  let out := sheet.used.foldl (CssOut.step tag id classes) .start
  match inlineDecl with
  | none => ⟨out.color.value, out.background.value, out.bold.value, out.align.value⟩
  | some decl => ⟨decl.color <|> out.color.value, decl.background <|> out.background.value,
      decl.bold <|> out.bold.value, decl.align <|> out.align.value⟩

end Cascade

end AuroraOS.Css
