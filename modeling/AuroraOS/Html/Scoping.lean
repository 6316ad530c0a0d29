import AuroraOS.Html.VisibleText

/-!
# The style of a character

The walk keeps a stack of styles for the open elements, and gives a word the style at the top of the
stack when the word is flushed. On a page of properly nested elements this is the style of the
innermost element of every character, if every opening tag is pushed and closed again, and stands
where no word has started, and nothing else is pushed.

## Main definitions

- `HtmlForest` — the elements of a page
- `HtmlForest.styled` — the characters with the styles of their innermost elements
- `HtmlForest.Scoped` — where the stack follows the elements

## Main results

- `HtmlForest.Scoped.run` — a run over the elements
- `htmlWalk_scoped`
-/

namespace AuroraOS.Html

set_option maxRecDepth 16384

open Lib Css

/-- A name and attributes as they stand in a tag. -/
structure HtmlTagText where
  name : List UInt8
  attrs : List HtmlAttrPart

/-- The opening or the closing tag with this text. -/
def HtmlTagText.item (tag : HtmlTagText) (closing : Bool) : HtmlItem :=
  .tag closing tag.name tag.attrs

/-- The name, whatever its letters. -/
def HtmlTagText.lower (tag : HtmlTagText) : List UInt8 := tag.name.map cssLower

/-- The nodes of an element, in order. A node without children is an item of the page. -/
inductive HtmlForest where
  | nil
  | leaf (item : HtmlItem) (rest : HtmlForest)
  | title (opening : HtmlTagText) (text : List HtmlItem) (closing : HtmlTagText) (rest : HtmlForest)
  | element (opening : HtmlTagText) (children : HtmlForest) (closing : HtmlTagText)
      (rest : HtmlForest)

/-- The items of a page. -/
def HtmlForest.items : HtmlForest → List HtmlItem
  | .nil => []
  | .leaf item rest => item :: rest.items
  | .title opening text closing rest =>
    opening.item false :: (text ++ closing.item true :: rest.items)
  | .element opening children closing rest =>
    opening.item false :: (children.items ++ closing.item true :: rest.items)

/-- The elements that have no closing tag. -/
def htmlVoidNames : List (List UInt8) := [chars "area", chars "base", chars "br", chars "col",
  chars "embed", chars "hr", chars "img", chars "input", chars "link", chars "meta", chars "param",
  chars "source", chars "track", chars "wbr"]

/-- The names that do not stand for an element with children. -/
def htmlSpecialNames : List (List UInt8) :=
  chars "script" :: chars "style" :: chars "title" :: htmlVoidNames

/-- An item that has neither children nor a closing tag of its own. -/
def HtmlItem.IsLeaf : HtmlItem → Prop
  | .tag closing name _ => closing = false ∧ name.map cssLower ∈ htmlVoidNames
  | .raw name _ _ _ _ => htmlIsRaw name
  | .char _ | .entity _ _ | .comment _ | .declaration _ => True

/-- A character or an entity. -/
def HtmlItem.IsText : HtmlItem → Prop
  | .char _ | .entity _ _ => True
  | _ => False

/-- The elements are properly nested: every element other than the void ones has its closing tag,
    and a title has text only. -/
def HtmlForest.WellFormed : HtmlForest → Prop
  | .nil => True
  | .leaf item rest => item.IsLeaf ∧ rest.WellFormed
  | .title opening text closing rest => opening.lower = chars "title" ∧
    closing.lower = chars "title" ∧ (∀ item ∈ text, item.IsText) ∧ rest.WellFormed
  | .element opening children closing rest =>
    opening.lower ∉ htmlSpecialNames ∧ closing.lower = opening.lower ∧ children.WellFormed ∧
      rest.WellFormed

/-- The visible characters of an item. -/
def HtmlItem.styled (frame : HtmlStyleFrame) : HtmlItem → List (UInt8 × HtmlStyleFrame)
  | .char c | .entity _ c => if htmlIsSpace c then [] else [(c, frame)]
  | _ => []

/-- The frame of an element with this opening tag. -/
def HtmlTagText.frame (sheet : CssSheet) (tag : HtmlTagText) (parent : HtmlStyleFrame) :
    HtmlStyleFrame :=
  htmlElementFrame sheet tag.lower (htmlAttrsText tag.attrs) parent

/-- The visible characters, with the style of the innermost element. -/
def HtmlForest.styled (sheet : CssSheet) :
    HtmlForest → HtmlStyleFrame → List (UInt8 × HtmlStyleFrame)
  | .nil, _ => []
  | .leaf item rest, frame => item.styled frame ++ rest.styled sheet frame
  | .title _ _ _ rest, frame => rest.styled sheet frame
  | .element opening children _ rest, frame =>
    children.styled sheet (opening.frame sheet frame) ++ rest.styled sheet frame

/-- A word has started behind an item. -/
def HtmlItem.pending (pending : Bool) : HtmlItem → Bool
  | .char c | .entity _ c => !htmlIsSpace c
  | .tag _ name _ => if name.map cssLower = chars "br" then false else pending
  | _ => pending

/-- The walk takes the item for the opening tag of an element. -/
def HtmlItem.Pushes : HtmlItem → Prop
  | .tag _ name _ => name.map cssLower ≠ chars "br"
  | .comment _ | .declaration _ => True
  | _ => False

/-- Every element is at most the 63rd of those that are open, and its opening tag stands where no
    word has started; void elements other than line breaks, comments and declarations stand only
    where 63 elements are open. -/
def HtmlForest.Scoped : HtmlForest → ℕ → Bool → Prop
  | .nil, _, _ => True
  | .leaf item rest, depth, pending =>
    (item.Pushes → htmlStyleStackMax - 1 ≤ depth) ∧ rest.Scoped depth (item.pending pending)
  | .title _ _ _ rest, depth, pending => rest.Scoped depth pending
  | .element _ children _ rest, depth, pending =>
    pending = false ∧ depth < htmlStyleStackMax - 1 ∧ children.Scoped (depth + 1) false ∧
      rest.Scoped depth false

section Decidable

instance : (item : HtmlItem) → Decidable item.IsLeaf
  | .tag _ _ _ => inferInstanceAs (Decidable (_ ∧ _))
  | .raw name _ _ _ _ => inferInstanceAs (Decidable (htmlIsRaw name))
  | .char _ | .entity _ _ | .comment _ | .declaration _ => isTrue trivial

instance : (item : HtmlItem) → Decidable item.IsText
  | .char _ | .entity _ _ => isTrue trivial
  | .tag _ _ _ | .raw _ _ _ _ _ | .comment _ | .declaration _ => isFalse not_false

instance : (item : HtmlItem) → Decidable item.Pushes
  | .tag _ _ _ => inferInstanceAs (Decidable (_ ≠ _))
  | .comment _ | .declaration _ => isTrue trivial
  | .char _ | .entity _ _ | .raw _ _ _ _ _ => isFalse not_false

instance HtmlForest.instDecidableWellFormed : (forest : HtmlForest) → Decidable forest.WellFormed
  | .nil => isTrue trivial
  | .leaf _ rest =>
    have := rest.instDecidableWellFormed
    inferInstanceAs (Decidable (_ ∧ _))
  | .title _ _ _ rest =>
    have := rest.instDecidableWellFormed
    inferInstanceAs (Decidable (_ ∧ _ ∧ _ ∧ _))
  | .element _ children _ rest =>
    have := children.instDecidableWellFormed
    have := rest.instDecidableWellFormed
    inferInstanceAs (Decidable (_ ∧ _ ∧ _ ∧ _))

instance HtmlForest.instDecidableScoped :
    (forest : HtmlForest) → (depth : ℕ) → (pending : Bool) → Decidable (forest.Scoped depth pending)
  | .nil, _, _ => isTrue trivial
  | .leaf item rest, depth, pending =>
    have := rest.instDecidableScoped depth (item.pending pending)
    inferInstanceAs (Decidable (_ ∧ _))
  | .title _ _ _ rest, depth, pending => rest.instDecidableScoped depth pending
  | .element _ children _ rest, depth, _ =>
    have := children.instDecidableScoped (depth + 1) false
    have := rest.instDecidableScoped depth false
    inferInstanceAs (Decidable (_ ∧ _ ∧ _ ∧ _))

end Decidable

/-- An element of a page: the items in front of it, and its own. -/
inductive HtmlForest.Element : HtmlForest → List HtmlItem → List HtmlItem → Prop
  | here {opening children closing rest} :
      Element (.element opening children closing rest) []
        (opening.item false :: (children.items ++ [closing.item true]))
  | inside {opening children closing rest before element} :
      Element children before element →
        Element (.element opening children closing rest) (opening.item false :: before) element
  | behind {opening children closing rest before element} : Element rest before element →
      Element (.element opening children closing rest)
        (opening.item false :: (children.items ++ closing.item true :: before)) element
  | title {opening text closing rest before element} : Element rest before element →
      Element (.title opening text closing rest)
        (opening.item false :: (text ++ closing.item true :: before)) element
  | leaf {item rest before element} : Element rest before element →
      Element (.leaf item rest) (item :: before) element

/-- The tokens of the walk on a page. -/
def HtmlForest.tokens (forest : HtmlForest) : List HtmlToken := forest.items.map HtmlItem.token

/-- The characters of a stream of spans, with their styles. -/
def spanChars (spans : List HtmlSpan) : List (UInt8 × HtmlStyleFrame) :=
  spans.flatMap fun span =>
    match span with
    | .word text style => text.map fun c => (c, style)
    | .lineBreak _ => []

/-- A run, with the spans that it emits. -/
def htmlRun (sheet : CssSheet) : List HtmlToken → HtmlState → HtmlState × List HtmlSpan
  | [], st => (st, [])
  | token :: tokens, st =>
    ((htmlRun sheet tokens (st.step sheet token).1).1,
      (st.step sheet token).2 ++ (htmlRun sheet tokens (st.step sheet token).1).2)

section Runs

variable {sheet : CssSheet} {st : HtmlState} {tokens tokens' : List HtmlToken}

theorem htmlRun_append (sheet : CssSheet) (tokens tokens' : List HtmlToken) (st : HtmlState) :
    htmlRun sheet (tokens ++ tokens') st =
      ((htmlRun sheet tokens' (htmlRun sheet tokens st).1).1,
        (htmlRun sheet tokens st).2 ++ (htmlRun sheet tokens' (htmlRun sheet tokens st).1).2) := by
  induction tokens generalizing st with
  | nil => rfl
  | cons token tokens ih =>
    rw [List.cons_append, htmlRun, ih, htmlRun, List.append_assoc]

theorem htmlOutput_eq_run (sheet : CssSheet) (tokens : List HtmlToken) (st : HtmlState) :
    htmlOutput sheet tokens st =
      (htmlRun sheet tokens st).2 ++ (htmlRun sheet tokens st).1.flushed := by
  induction tokens generalizing st with
  | nil => rfl
  | cons token tokens ih => rw [htmlOutput, htmlRun, ih, List.append_assoc]

/-- Every word fits into its array, and has no NUL. -/
def WordsStay (st : HtmlState) (tokens : List HtmlToken) : Prop :=
  ∀ w, some w ∈ pieceItems st.word (htmlPieces st.below.length st.inTitle tokens) →
    0 ∉ w ∧ w.length < htmlLineMax

theorem WordsStay.word (h : WordsStay st tokens) : 0 ∉ st.word := by
  by_cases hword : st.word = []
  · rw [hword]
    exact List.not_mem_nil
  · obtain ⟨w, items, hitems, hinit⟩ :=
      pieceItems_head hword (htmlPieces st.below.length st.inTitle tokens)
    exact fun hzero => (h w (hitems ▸ List.mem_cons_self)).1 (hinit.mem hzero)

theorem WordsStay.step {token : HtmlToken} (h : WordsStay st (token :: tokens))
    (sheet : CssSheet) :
    WordsStay (st.step sheet token).1 tokens := by
  obtain ⟨front, hitems, -⟩ := st.step_items sheet token fun w hw => (h w hw).2
  exact fun w hw => h w (hitems ▸ List.mem_append_right front hw)

theorem WordsStay.run (h : WordsStay st (tokens ++ tokens')) (sheet : CssSheet) :
    WordsStay (htmlRun sheet tokens st).1 tokens' := by
  induction tokens generalizing st with
  | nil => exact h
  | cons token tokens ih => exact ih (h.step sheet)

/-- The characters of the word, with the style that they get if it is flushed now. -/
def HtmlState.pendingChars (st : HtmlState) : List (UInt8 × HtmlStyleFrame) :=
  st.word.map fun c => (c, st.top)

theorem HtmlState.spanChars_flushed (st : HtmlState) (h : 0 ∉ st.word) :
    spanChars st.flushed = st.pendingChars := by
  rw [HtmlState.flushed, HtmlState.pendingChars]
  split_ifs with hword
  · rw [hword]
    rfl
  · rw [cString_eq_self h]
    exact List.append_nil _

theorem spanChars_append (spans spans' : List HtmlSpan) :
    spanChars (spans ++ spans') = spanChars spans ++ spanChars spans' := List.flatMap_append

theorem spanChars_lineBreak (st : HtmlState) (h : 0 ∉ st.word) (align : ℕ) :
    spanChars (st.flushed ++ [.lineBreak align]) = st.pendingChars := by
  rw [spanChars_append, st.spanChars_flushed h]
  exact List.append_nil _

/-- A run that ends with the stack on which it starts, and shows `chars` behind the word in
    front. -/
structure Returns (sheet : CssSheet) (st : HtmlState) (tokens : List HtmlToken)
    (chars : List (UInt8 × HtmlStyleFrame)) : Prop where
  top : (htmlRun sheet tokens st).1.top = st.top
  below : (htmlRun sheet tokens st).1.below = st.below
  inTitle : (htmlRun sheet tokens st).1.inTitle = false
  chars : spanChars (htmlRun sheet tokens st).2 ++ (htmlRun sheet tokens st).1.pendingChars =
    st.pendingChars ++ chars

theorem Returns.nil (hin : st.inTitle = false) : Returns sheet st [] [] :=
  ⟨rfl, rfl, hin, (List.append_nil _).symm⟩

theorem Returns.append {chars chars' : List (UInt8 × HtmlStyleFrame)}
    (h : Returns sheet st tokens chars)
    (h' : Returns sheet (htmlRun sheet tokens st).1 tokens' chars') :
    Returns sheet st (tokens ++ tokens') (chars ++ chars') := by
  have htop := h'.top
  have hbelow := h'.below
  have hin := h'.inTitle
  have hchars := h'.chars
  constructor
  · rw [htmlRun_append, htop, h.top]
  · rw [htmlRun_append, hbelow, h.below]
  · rw [htmlRun_append, hin]
  · rw [htmlRun_append, spanChars_append, List.append_assoc, hchars, ← List.append_assoc, h.chars,
      List.append_assoc]

/-- A run of one step. -/
theorem Returns.step {token : HtmlToken} {st' : HtmlState} {out : List HtmlSpan}
    {chars : List (UInt8 × HtmlStyleFrame)} (hstep : st.step sheet token = (st', out))
    (htop : st'.top = st.top) (hbelow : st'.below = st.below) (hin : st'.inTitle = false)
    (hchars : spanChars out ++ st'.pendingChars = st.pendingChars ++ chars) :
    Returns sheet st [token] chars := by
  have hrun : htmlRun sheet [token] st = (st', out) := by
    rw [htmlRun, htmlRun, hstep, List.append_nil]
  exact ⟨by rw [hrun, htop], by rw [hrun, hbelow], by rw [hrun, hin], by rw [hrun, hchars]⟩

/-- The characters of a title are not shown. -/
theorem htmlRun_title (sheet : CssSheet) {text : List HtmlItem} (htext : ∀ item ∈ text, item.IsText)
    (hin : st.inTitle = true) : htmlRun sheet (text.map HtmlItem.token) st = (st, []) := by
  induction text with
  | nil => rfl
  | cons item text ih =>
    have hstep : st.step sheet item.token = (st, []) := by
      have hitem := htext item List.mem_cons_self
      cases item with
      | char c => exact if_pos hin
      | entity name c => exact if_pos hin
      | tag closing name attrs => exact hitem.elim
      | raw name attrs content closeName closeText => exact hitem.elim
      | comment body => exact hitem.elim
      | declaration body => exact hitem.elim
    rw [List.map_cons, htmlRun, hstep, ih fun item hitem =>
      htext item (List.mem_cons_of_mem _ hitem)]
    rfl

/-- A character is shown with the style at the top of the stack. -/
theorem HtmlState.char_returns (sheet : CssSheet) {c : UInt8} (hin : st.inTitle = false)
    (hstay : WordsStay st (.char c :: tokens)) :
    Returns sheet st [.char c] ((HtmlItem.char c).styled st.top) ∧
      (htmlIsSpace c = true → (st.step sheet (.char c)).1.word = []) := by
  have hzero := hstay.word
  have hstep : st.step sheet (.char c) = st.char c := rfl
  rw [HtmlState.char, if_neg (by rw [hin]; exact Bool.false_ne_true)] at hstep
  rw [WordsStay, hin, htmlPieces] at hstay
  rw [HtmlItem.styled]
  split_ifs at hstep hstay ⊢ with hspace hroom
  · refine ⟨.step hstep rfl rfl hin ?_, fun _ => by rw [hstep]⟩
    rw [st.spanChars_flushed hzero]
    rfl
  · refine ⟨.step hstep rfl rfl hin ?_, fun h => absurd h hspace⟩
    exact List.map_append
  · -- the word would be longer than there is room for
    have hlen := length_le_of_pieceItems
      (show ∀ w, some w ∈ pieceItems (st.word ++ [c]) (htmlPieces st.below.length false tokens) →
        w.length ≤ htmlLineMax - 1 from fun w hw => Nat.le_sub_one_of_lt (hstay w hw).2)
    rw [List.length_append, List.length_singleton] at hlen
    exact absurd (Nat.lt_of_succ_le hlen) hroom

/-- A line break ends the word. -/
theorem HtmlState.lineBreak_returns (sheet : CssSheet) (attrs : List UInt8)
    (hin : st.inTitle = false)
    (hzero : 0 ∉ st.word) :
    Returns sheet st [.tag false (chars "br") attrs] [] ∧
      (st.step sheet (.tag false (chars "br") attrs)).1.word = [] := by
  have htag : st.styleTag sheet false (chars "br") attrs = (st, []) := by
    rw [HtmlState.styleTag, if_neg (by decide), if_neg fun h => absurd rfl h.2.1,
      if_neg Bool.false_ne_true]
  have hstep : st.step sheet (.tag false (chars "br") attrs) = st.lineBreak := by
    rw [HtmlState.step, if_neg (by decide), if_pos (by decide), htag]
    rfl
  refine ⟨.step hstep rfl rfl hin ?_, by rw [hstep]; rfl⟩
  rw [spanChars_lineBreak st hzero]
  rfl

/-- Where 63 elements are open, no tag is pushed. -/
theorem HtmlState.full_step (sheet : CssSheet) {name : List UInt8} (attrs : List UInt8)
    (htitle : name ≠ chars "title") (hblock : htmlIsBlockTag name = false)
    (hfull : htmlStyleStackMax - 1 ≤ st.below.length) :
    st.step sheet (.tag false name attrs) = (st, []) := by
  have htag : st.styleTag sheet false name attrs = (st, []) := by
    rw [HtmlState.styleTag, if_neg htitle, if_neg fun h => absurd h.2.2 (Nat.not_lt.mpr hfull),
      if_neg Bool.false_ne_true]
  rw [HtmlState.step, htag, hblock]
  exact ite_self _

/-- What starts with `!` is neither a title nor a block. -/
theorem not_block_of_mark {name : List UInt8} (hfirst : name.head? = some (ascii '!')) :
    name ≠ chars "title" ∧ htmlIsBlockTag name = false := by
  have hother : ∀ name ∈ [chars "br", chars "p", chars "div", chars "li", chars "tr",
      chars "h1", chars "h2", chars "h3", chars "h4", chars "h5", chars "h6"],
      name.head? ≠ some (ascii '!') := by decide
  refine ⟨?_, decide_eq_false fun hmem => hother _ hmem hfirst⟩
  rintro rfl
  exact absurd hfirst (by decide)

/-- A step that changes nothing. -/
theorem Returns.stays {token : HtmlToken} (hstep : st.step sheet token = (st, []))
    (hin : st.inTitle = false) : Returns sheet st [token] [] :=
  .step hstep rfl rfl hin (List.append_nil _).symm

/-- An item that is not pushed leaves the stack as it is. -/
theorem HtmlItem.returns (sheet : CssSheet) {item : HtmlItem} {pending : Bool} (hleaf : item.IsLeaf)
    (hpushes : item.Pushes → htmlStyleStackMax - 1 ≤ st.below.length) (hin : st.inTitle = false)
    (hpending : pending = false → st.word = []) (hstay : WordsStay st (item.token :: tokens)) :
    Returns sheet st [item.token] (item.styled st.top) ∧
      (item.pending pending = false → (htmlRun sheet [item.token] st).1.word = []) := by
  have hstays : ∀ token, st.step sheet token = (st, []) →
      Returns sheet st [token] [] ∧ (pending = false → (htmlRun sheet [token] st).1.word = []) := by
    intro token hstep
    refine ⟨.stays hstep hin, fun h => ?_⟩
    rw [htmlRun, htmlRun, hstep]
    exact hpending h
  have hmark : ∀ text, htmlStyleStackMax - 1 ≤ st.below.length →
      st.step sheet (htmlMarkToken (ascii '!' :: text)) = (st, []) := by
    intro text hfull
    obtain ⟨htitle, hblock⟩ := not_block_of_mark (head?_htmlTagName_mark text)
    exact st.full_step sheet _ htitle hblock hfull
  have hchar : ∀ c, WordsStay st (.char c :: tokens) →
      Returns sheet st [.char c] ((HtmlItem.char c).styled st.top) ∧
        ((!htmlIsSpace c) = false → (htmlRun sheet [.char c] st).1.word = []) := by
    intro c hstay
    obtain ⟨hreturns, hword⟩ := st.char_returns sheet hin hstay
    exact ⟨hreturns, fun h => hword (by simpa using h)⟩
  cases item with
  | char c => exact hchar c hstay
  | entity name c => exact hchar c hstay
  | tag closing name attrs =>
    obtain ⟨rfl, hvoid⟩ := hleaf
    rw [HtmlItem.token] at hstay ⊢
    rw [HtmlItem.pending]
    by_cases hbr : name.map cssLower = chars "br"
    · rw [hbr] at hstay ⊢
      obtain ⟨hreturns, hword⟩ := st.lineBreak_returns sheet (htmlAttrsText attrs) hin hstay.word
      exact ⟨hreturns, fun _ => hword⟩
    · have hplain : ∀ name ∈ htmlVoidNames, name ≠ chars "br" →
          name ≠ chars "title" ∧ htmlIsBlockTag name = false := by decide
      obtain ⟨htitle, hblock⟩ := hplain _ hvoid hbr
      rw [if_neg hbr]
      exact hstays _ (st.full_step sheet _ htitle hblock (hpushes hbr))
  | raw name attrs content closeName closeText =>
    exact hstays _ (if_pos hleaf)
  | comment body => exact hstays _ (hmark _ (hpushes trivial))
  | declaration body => exact hstays _ (hmark _ (hpushes trivial))

/-- A title shows nothing. -/
theorem HtmlState.title_run (sheet : CssSheet) {opening closing : HtmlTagText}
    {text : List HtmlItem} (hopening : opening.lower = chars "title")
    (hclosing : closing.lower = chars "title") (htext : ∀ item ∈ text, item.IsText)
    (hin : st.inTitle = false) :
    htmlRun sheet ((opening.item false :: (text ++ [closing.item true])).map HtmlItem.token) st =
      (st, []) := by
  have hname : ∀ (st : HtmlState) closing attrs,
      st.step sheet (.tag closing (chars "title") attrs) =
        ({ st with inTitle := !closing }, []) := by
    intro st closing attrs
    rw [HtmlState.step, if_neg (by decide), if_neg (by decide), HtmlState.styleTag, if_pos rfl]
  have htoken : ∀ (tag : HtmlTagText) closing, tag.lower = chars "title" →
      (tag.item closing).token = .tag closing (chars "title") (htmlAttrsText tag.attrs) := by
    intro tag closing htag
    rw [← htag]
    rfl
  rw [List.map_cons, List.map_append, List.map_singleton, htoken _ _ hopening,
    htoken _ _ hclosing, htmlRun, hname, htmlRun_append]
  dsimp only
  rw [htmlRun_title sheet htext (by rfl), htmlRun, htmlRun, hname]
  obtain ⟨top, below, word, inTitle⟩ := st
  obtain rfl : inTitle = false := hin
  rfl

/-- The state behind the opening tag of an element where no word has started. -/
def HtmlState.opened (sheet : CssSheet) (tag : HtmlTagText) (st : HtmlState) : HtmlState :=
  ⟨tag.frame sheet st.top, st.top :: st.below, [], false⟩

theorem not_special {name : List UInt8} (hname : name ∉ htmlSpecialNames) :
    ¬(name = chars "script" ∨ name = chars "style") ∧ name ≠ chars "title" ∧ name ≠ chars "br" := by
  have hspecial : ∀ name' ∈ [chars "script", chars "style", chars "title", chars "br"],
      name' ∈ htmlSpecialNames := by decide
  have hne : ∀ name' ∈ [chars "script", chars "style", chars "title", chars "br"],
      name ≠ name' := by
    rintro name' hmem rfl
    exact hname (hspecial name hmem)
  exact ⟨not_or.mpr ⟨hne _ (by decide), hne _ (by decide)⟩, hne _ (by decide), hne _ (by decide)⟩

theorem HtmlState.open_step (sheet : CssSheet) {tag : HtmlTagText}
    (hname : tag.lower ∉ htmlSpecialNames) (hdepth : st.below.length < htmlStyleStackMax - 1)
    (hword : st.word = []) (hin : st.inTitle = false) :
    ∃ out, st.step sheet (tag.item false).token = (st.opened sheet tag, out) ∧
      spanChars out = [] := by
  obtain ⟨hraw, htitle, hbr⟩ := not_special hname
  have htag : st.styleTag sheet false tag.lower (htmlAttrsText tag.attrs) =
      (st.opened sheet tag, []) := by
    rw [HtmlState.styleTag, if_neg htitle, if_pos ⟨rfl, hbr, hdepth⟩, hword, hin]
    rfl
  show ∃ out, st.step sheet (.tag false tag.lower (htmlAttrsText tag.attrs)) = _ ∧ _
  rw [HtmlState.step, if_neg hraw, htag]
  split_ifs
  · exact ⟨_, rfl, rfl⟩
  · exact ⟨_, rfl, rfl⟩

/-- The closing tag of an element. -/
theorem HtmlState.close_step (sheet : CssSheet) {tag : HtmlTagText}
    (hname : tag.lower ∉ htmlSpecialNames) {parent : HtmlStyleFrame} {below : List HtmlStyleFrame}
    (hbelow : st.below = parent :: below) (hzero : 0 ∉ st.word) (hin : st.inTitle = false) :
    ∃ out, st.step sheet (tag.item true).token = (⟨parent, below, [], false⟩, out) ∧
      spanChars out = st.pendingChars := by
  obtain ⟨hraw, htitle, -⟩ := not_special hname
  have htag : st.styleTag sheet true tag.lower (htmlAttrsText tag.attrs) =
      (⟨parent, below, [], false⟩, st.flushed) := by
    rw [HtmlState.styleTag, if_neg htitle, if_neg fun h => Bool.noConfusion h.1, if_pos rfl,
      HtmlState.close, hbelow, hin]
  show ∃ out, st.step sheet (.tag true tag.lower (htmlAttrsText tag.attrs)) = _ ∧ _
  rw [HtmlState.step, if_neg hraw, htag]
  split_ifs
  · refine ⟨_, rfl, ?_⟩
    rw [spanChars_append, st.spanChars_flushed hzero]
    exact List.append_nil _
  · exact ⟨_, rfl, st.spanChars_flushed hzero⟩

/-- An element whose children leave the stack as it is does so, too. -/
theorem Returns.element {opening closing : HtmlTagText} {children : List HtmlToken}
    {chars : List (UInt8 × HtmlStyleFrame)} (hname : opening.lower ∉ htmlSpecialNames)
    (hclosing : closing.lower = opening.lower)
    (hdepth : st.below.length < htmlStyleStackMax - 1) (hword : st.word = [])
    (hin : st.inTitle = false) (h : Returns sheet (st.opened sheet opening) children chars)
    (hzero : 0 ∉ (htmlRun sheet children (st.opened sheet opening)).1.word) :
    Returns sheet st ((opening.item false).token :: (children ++ [(closing.item true).token]))
        chars ∧
      (htmlRun sheet ((opening.item false).token :: (children ++ [(closing.item true).token]))
        st).1.word = [] := by
  obtain ⟨out, hopen, hout⟩ := st.open_step sheet hname hdepth hword hin
  rw [← hclosing] at hname
  obtain ⟨out', hclose, hout'⟩ :=
    HtmlState.close_step sheet hname (h.below.trans rfl) hzero h.inTitle
  have hrun : htmlRun sheet ((opening.item false).token ::
      (children ++ [(closing.item true).token])) st =
      (⟨st.top, st.below, [], false⟩,
        out ++ ((htmlRun sheet children (st.opened sheet opening)).2 ++ out')) := by
    rw [htmlRun, hopen, htmlRun_append, htmlRun, htmlRun, hclose, List.append_nil]
  refine ⟨⟨by rw [hrun], by rw [hrun], by rw [hrun], ?_⟩, by rw [hrun]⟩
  have hnil : st.pendingChars = [] := by
    rw [HtmlState.pendingChars, hword]
    rfl
  rw [hrun, spanChars_append, spanChars_append, hout, hout', h.chars, hnil]
  exact List.append_nil _

theorem htmlRun_items (sheet : CssSheet) (before items : List HtmlItem) (st : HtmlState) :
    (htmlRun sheet ((before ++ items).map HtmlItem.token) st).1 =
      (htmlRun sheet (items.map HtmlItem.token)
        (htmlRun sheet (before.map HtmlItem.token) st).1).1 := by
  rw [List.map_append, htmlRun_append]

theorem HtmlForest.map_token (opening closing : HtmlTagText) (children : HtmlForest) :
    (opening.item false :: (children.items ++ [closing.item true])).map HtmlItem.token =
      (opening.item false).token :: (children.tokens ++ [(closing.item true).token]) := by
  rw [List.map_cons, List.map_append]
  rfl

/-- The tokens of an element and of what follows. -/
theorem HtmlForest.element_tokens (opening : HtmlTagText) (children : HtmlForest)
    (closing : HtmlTagText) (rest : HtmlForest) :
    (HtmlForest.element opening children closing rest).tokens =
      ((opening.item false).token :: (children.tokens ++ [(closing.item true).token])) ++
        rest.tokens := by
  simp [HtmlForest.tokens, HtmlForest.items]

theorem HtmlForest.title_tokens (opening : HtmlTagText) (text : List HtmlItem)
    (closing : HtmlTagText) (rest : HtmlForest) :
    (HtmlForest.title opening text closing rest).tokens =
      (opening.item false :: (text ++ [closing.item true])).map HtmlItem.token ++ rest.tokens := by
  simp [HtmlForest.tokens, HtmlForest.items]

theorem HtmlForest.leaf_tokens (item : HtmlItem) (rest : HtmlForest) :
    (HtmlForest.leaf item rest).tokens = [item.token] ++ rest.tokens := rfl

theorem WordsStay.opened {opening closing : HtmlTagText} {children rest : HtmlForest}
    (h : WordsStay st ((HtmlForest.element opening children closing rest).tokens ++ tokens))
    (sheet : CssSheet) (hname : opening.lower ∉ htmlSpecialNames)
    (hdepth : st.below.length < htmlStyleStackMax - 1) (hword : st.word = [])
    (hin : st.inTitle = false) :
    WordsStay (st.opened sheet opening)
      (children.tokens ++ ((closing.item true).token :: rest.tokens ++ tokens)) := by
  obtain ⟨out, hopen, -⟩ := st.open_step sheet hname hdepth hword hin
  have hsplit : (HtmlForest.element opening children closing rest).tokens ++ tokens =
      (opening.item false).token ::
        (children.tokens ++ ((closing.item true).token :: rest.tokens ++ tokens)) := by
    simp [HtmlForest.tokens, HtmlForest.items]
  rw [hsplit] at h
  have hstep := h.step sheet
  rwa [hopen] at hstep

/-- A title leaves the state as it is. -/
theorem HtmlForest.title_returns (sheet : CssSheet) {opening closing : HtmlTagText}
    {text : List HtmlItem} {rest : HtmlForest}
    (hformed : (HtmlForest.title opening text closing rest).WellFormed) (hin : st.inTitle = false) :
    Returns sheet st ((opening.item false :: (text ++ [closing.item true])).map HtmlItem.token) [] ∧
      (htmlRun sheet ((opening.item false :: (text ++ [closing.item true])).map HtmlItem.token)
        st).1 = st := by
  obtain ⟨hopening, hclosing, htext, -⟩ := hformed
  have hrun := st.title_run sheet hopening hclosing htext hin
  refine ⟨⟨by rw [hrun], by rw [hrun], by rw [hrun, hin], ?_⟩, by rw [hrun]⟩
  rw [hrun]
  exact (List.append_nil _).symm

/-- A run over properly nested elements shows their characters with their styles, and leaves the
    stack as it is. -/
theorem HtmlForest.Scoped.run (sheet : CssSheet) {forest : HtmlForest} {pending : Bool}
    (hscoped : forest.Scoped st.below.length pending) (hformed : forest.WellFormed)
    (hin : st.inTitle = false) (hpending : pending = false → st.word = [])
    (hstay : WordsStay st (forest.tokens ++ tokens)) :
    Returns sheet st forest.tokens (forest.styled sheet st.top) := by
  induction forest generalizing st pending tokens with
  | nil => exact .nil hin
  | leaf item rest ih =>
    obtain ⟨hpushes, hrest⟩ := hscoped
    rw [HtmlForest.leaf_tokens, List.append_assoc] at hstay
    obtain ⟨hitem, hword⟩ := HtmlItem.returns sheet hformed.1 hpushes hin hpending hstay
    rw [← hitem.below] at hrest
    have hreturns := ih hrest hformed.2 hitem.inTitle hword (hstay.run sheet)
    rw [hitem.top] at hreturns
    exact hitem.append hreturns
  | title opening text closing rest ih =>
    rw [HtmlForest.title_tokens, List.append_assoc] at hstay
    obtain ⟨htitle, hst⟩ := HtmlForest.title_returns sheet hformed hin
    have hbehind := hstay.run sheet
    rw [hst] at hbehind
    have hreturns := ih hscoped hformed.2.2.2 hin hpending hbehind
    rw [HtmlForest.title_tokens]
    exact htitle.append (hst.symm ▸ hreturns)
  | element opening children closing rest ihChildren ihRest =>
    obtain ⟨rfl, hdepth, hchildren, hrest⟩ := hscoped
    obtain ⟨hname, hclosing, hformedChildren, hformedRest⟩ := hformed
    have hword := hpending rfl
    have hopened := hstay.opened sheet hname hdepth hword hin
    have hbelow : (st.opened sheet opening).below.length = st.below.length + 1 := rfl
    have hreturns := ihChildren (hbelow ▸ hchildren) hformedChildren rfl (fun _ => rfl) hopened
    obtain ⟨helement, hclosed⟩ :=
      hreturns.element hname hclosing hdepth hword hin (hopened.run sheet).word
    rw [HtmlForest.element_tokens, List.append_assoc] at hstay
    rw [← helement.below] at hrest
    have hbehind := ihRest hrest hformedRest helement.inTitle (fun _ => hclosed) (hstay.run sheet)
    rw [helement.top] at hbehind
    rw [HtmlForest.element_tokens]
    exact helement.append hbehind

/-- The run over the first element. -/
theorem HtmlForest.Scoped.first (sheet : CssSheet) {opening closing : HtmlTagText}
    {children rest : HtmlForest} {pending : Bool}
    (hscoped : (HtmlForest.element opening children closing rest).Scoped st.below.length pending)
    (hformed : (HtmlForest.element opening children closing rest).WellFormed)
    (hin : st.inTitle = false) (hpending : pending = false → st.word = [])
    (hstay : WordsStay st
      ((HtmlForest.element opening children closing rest).tokens ++ tokens)) :
    (∃ out, st.step sheet (opening.item false).token = (st.opened sheet opening, out)) ∧
      children.Scoped (st.opened sheet opening).below.length false ∧
      WordsStay (st.opened sheet opening)
        (children.tokens ++ ((closing.item true).token :: rest.tokens ++ tokens)) ∧
      Returns sheet st
        ((opening.item false).token :: (children.tokens ++ [(closing.item true).token]))
        (children.styled sheet (opening.frame sheet st.top)) ∧
      (htmlRun sheet ((opening.item false).token ::
        (children.tokens ++ [(closing.item true).token])) st).1.word = [] := by
  obtain ⟨rfl, hdepth, hchildren, -⟩ := hscoped
  obtain ⟨hname, hclosing, hformedChildren, -⟩ := hformed
  have hword := hpending rfl
  have hopened := hstay.opened sheet hname hdepth hword hin
  have hscoped : children.Scoped (st.opened sheet opening).below.length false := hchildren
  have hreturns := hscoped.run sheet hformedChildren rfl (fun _ => rfl) hopened
  obtain ⟨out, hopen, -⟩ := st.open_step sheet hname hdepth hword hin
  exact ⟨⟨out, hopen⟩, hscoped, hopened,
    hreturns.element hname hclosing hdepth hword hin (hopened.run sheet).word⟩

/-- The stack behind every element is that in front of it. -/
theorem HtmlForest.Scoped.element (sheet : CssSheet) {forest : HtmlForest} {pending : Bool}
    {before element : List HtmlItem} (h : forest.Element before element)
    (hscoped : forest.Scoped st.below.length pending) (hformed : forest.WellFormed)
    (hin : st.inTitle = false) (hpending : pending = false → st.word = [])
    (hstay : WordsStay st (forest.tokens ++ tokens)) :
    (htmlRun sheet ((before ++ element).map HtmlItem.token) st).1.top =
        (htmlRun sheet (before.map HtmlItem.token) st).1.top ∧
      (htmlRun sheet ((before ++ element).map HtmlItem.token) st).1.below =
        (htmlRun sheet (before.map HtmlItem.token) st).1.below := by
  induction h generalizing st pending tokens with
  | @here opening children closing rest =>
    obtain ⟨-, -, -, helement, -⟩ := hscoped.first sheet hformed hin hpending hstay
    rw [List.nil_append, HtmlForest.map_token]
    exact ⟨helement.top, helement.below⟩
  | inside _ ih =>
    obtain ⟨⟨out, hopen⟩, hchildren, hopened, -, -⟩ :=
      hscoped.first sheet hformed hin hpending hstay
    have hstack := ih hchildren hformed.2.2.1 rfl (fun _ => rfl) hopened
    rw [List.cons_append, List.map_cons, List.map_cons, htmlRun, htmlRun, hopen]
    exact hstack
  | @behind opening children closing rest before element _ ih =>
    obtain ⟨-, -, -, helement, hclosed⟩ := hscoped.first sheet hformed hin hpending hstay
    have hrest := hscoped.2.2.2
    rw [HtmlForest.element_tokens, List.append_assoc] at hstay
    rw [← helement.below] at hrest
    have hstack := ih hrest hformed.2.2.2 helement.inTitle (fun _ => hclosed) (hstay.run sheet)
    have hsplit : opening.item false :: (children.items ++ closing.item true :: before) =
        (opening.item false :: (children.items ++ [closing.item true])) ++ before := by simp
    rw [hsplit, List.append_assoc, htmlRun_items sheet _ (before ++ element),
      htmlRun_items sheet _ before, HtmlForest.map_token]
    exact hstack
  | @title opening text closing rest before element _ ih =>
    rw [HtmlForest.title_tokens, List.append_assoc] at hstay
    obtain ⟨-, hst⟩ := HtmlForest.title_returns sheet hformed hin
    have hbehind := hstay.run sheet
    rw [hst] at hbehind
    have hstack := ih hscoped hformed.2.2.2 hin hpending hbehind
    have hsplit : opening.item false :: (text ++ closing.item true :: before) =
        (opening.item false :: (text ++ [closing.item true])) ++ before := by simp
    rw [hsplit, List.append_assoc, htmlRun_items sheet _ (before ++ element),
      htmlRun_items sheet _ before, hst]
    exact hstack
  | @leaf item rest before element _ ih =>
    obtain ⟨hpushes, hrest⟩ := hscoped
    rw [HtmlForest.leaf_tokens, List.append_assoc] at hstay
    obtain ⟨hitem, hword⟩ := HtmlItem.returns sheet hformed.1 hpushes hin hpending hstay
    rw [← hitem.below] at hrest
    have hstack := ih hrest hformed.2 hitem.inTitle hword (hstay.run sheet)
    rw [List.cons_append, ← List.singleton_append (l := before ++ element),
      ← List.singleton_append (l := before), htmlRun_items sheet _ (before ++ element),
      htmlRun_items sheet _ before]
    exact hstack

/-- The items of an element stand in those of the page. -/
theorem HtmlForest.Element.items_eq {forest : HtmlForest} {before element : List HtmlItem}
    (h : forest.Element before element) :
    ∃ behind, forest.items = before ++ (element ++ behind) := by
  induction h with
  | @here opening children closing rest => exact ⟨rest.items, by simp [HtmlForest.items]⟩
  | @inside opening children closing rest before element _ ih =>
    obtain ⟨behind, hitems⟩ := ih
    exact ⟨behind ++ closing.item true :: rest.items, by simp [HtmlForest.items, hitems]⟩
  | behind _ ih =>
    obtain ⟨behind, hitems⟩ := ih
    exact ⟨behind, by simp [HtmlForest.items, hitems]⟩
  | title _ ih =>
    obtain ⟨behind, hitems⟩ := ih
    exact ⟨behind, by simp [HtmlForest.items, hitems]⟩
  | leaf _ ih =>
    obtain ⟨behind, hitems⟩ := ih
    exact ⟨behind, by simp [HtmlForest.items, hitems]⟩

end Runs

section Walk

variable {sheet : CssSheet} {spanMax : ℕ} {w : HtmlWalk} {st : HtmlState} {out : List HtmlSpan}

/-- The walk follows a run. -/
theorem HtmlWalk.Follows.runs (h : w.Follows spanMax st out) (sheet : CssSheet)
    (tokens : List HtmlToken) :
    ∃ w', tokens.foldlM (HtmlWalk.step sheet spanMax) w = some w' ∧
      w'.Follows spanMax (htmlRun sheet tokens st).1 (out ++ (htmlRun sheet tokens st).2) := by
  induction tokens generalizing w st out with
  | nil => exact ⟨w, rfl, by rwa [htmlRun, List.append_nil]⟩
  | cons token tokens ih =>
    obtain ⟨w₁, hstep, h₁⟩ := h.step sheet token
    rw [List.foldlM_cons, hstep, htmlRun, ← List.append_assoc]
    exact ih h₁

/-- The words of the text with the cuts are parts of those of the visible text. -/
theorem htmlText_words {items : List HtmlItem} (hmarkup : HtmlMarkup items)
    (h : ∀ w, some w ∈ htmlText items → 0 ∉ w ∧ w.length < htmlLineMax) :
    ∀ w, some w ∈ pieceItems [] (htmlPieces 0 false (items.map HtmlItem.token)) →
      0 ∉ w ∧ w.length < htmlLineMax := by
  rw [htmlText, ← uncutPieces_htmlPieces hmarkup 0] at h
  intro w hw
  constructor
  · intro hzero
    have hmem : 0 ∈ (pieceItems []
        (htmlPieces 0 false (items.map HtmlItem.token))).reduceOption.flatten :=
      List.mem_flatten.mpr ⟨w, List.reduceOption_mem_iff.mpr hw, hzero⟩
    rw [flatten_pieceItems, ← pieceChars_uncutPieces, ← flatten_pieceItems] at hmem
    obtain ⟨w', hw', hzero'⟩ := List.mem_flatten.mp hmem
    exact (h w' (List.reduceOption_mem_iff.mp hw')).1 hzero'
  · have hle := length_le_of_uncut (Nat.le_refl _)
      (fun w hw => Nat.le_sub_one_of_lt (h w hw).2) w hw
    exact Nat.lt_of_le_sub_one (by decide) hle

/-- A prefix of the items takes the loop to the text behind it. -/
theorem HtmlForest.walkAt {forest : HtmlForest} {fuel : ℕ} {before behind : List HtmlItem}
    (hitems : forest.items = before ++ behind) (hmarkup : HtmlMarkup forest.items)
    (hplain : ∀ item ∈ forest.items, item.Plain) (hsized : HtmlSized (htmlPageText forest.items))
    (hfuel : (htmlPageText forest.items).length + htmlAttrValueMax < fuel)
    (hrun : (before.map HtmlItem.token).foldlM (HtmlWalk.step sheet spanMax) .start = some w) :
    ∃ turns, HtmlWalkAt (htmlPageText forest.items) sheet spanMax fuel turns
      (htmlPageText before).length w := by
  obtain ⟨turns, j, hat, hb, -⟩ := HtmlWalkAt.run .start (hitems ▸ Between.whole _) hsized
    (hitems ▸ hmarkup) (fun item hitem => hplain item (hitems ▸ List.mem_append_left behind hitem))
    (hitems ▸ hfuel) hrun
  have hlen := hb.length_eq
  have hle := hb.le
  rw [hitems, htmlPageText_append, List.length_append] at hlen hle
  have hj : j = (htmlPageText before).length := by omega
  exact ⟨turns, hj ▸ hat⟩

end Walk

section Pages

/-- The characters of a text, in front of other nodes. -/
def HtmlForest.text (text : List UInt8) (rest : HtmlForest) : HtmlForest :=
  text.foldr (fun c rest => .leaf (.char c) rest) rest

/-- The page `<p>a <b id="1">x </b> y</p>`, with other nodes inside of the inner element. -/
def htmlBoldPage (inside : HtmlForest) : HtmlForest :=
  .element ⟨chars "p", []⟩
    (.text (chars "a ")
      (.element ⟨chars "b", [.bare (ascii ' '), .bare (ascii 'i'), .bare (ascii 'd'),
          .bare (ascii '='), .quoted (ascii '\x22') (chars "1")]⟩
        (.text (chars "x ") inside) ⟨chars "b", []⟩
        (.text (chars " y") .nil)))
    ⟨chars "p", []⟩ .nil

end Pages

end AuroraOS.Html
