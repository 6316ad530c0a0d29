import Mathlib.Data.List.Infix
import AuroraOS.Html.Lexer

/-!
# Markup

A page as it is meant: characters, entities, tags with quoted values, scripts and styles with their
content, and comments. What a reader sees of it is said of these items and not of the text. The tags
and characters that the walk finds in the text are those of the items where every tag and every
comment ends at its first `>`, every name is followed by a blank or the end of its tag, and no `<`
stands for itself.

## Main definitions

- `HtmlItem`, `htmlPageText` — the items of a page, and its text
- `HtmlMarkup` — the items can be told apart in the text
- `HtmlItem.Plain` — the walk can tell them apart
- `HtmlItem.token` — what the walk finds of an item

## Main results

- `htmlTokens_pageText`
-/

namespace AuroraOS.Html

open Lib Css

/-- A part of the text of attributes: a character outside of quotes, or a quoted value. -/
inductive HtmlAttrPart where
  | bare (c : UInt8)
  | quoted (quote : UInt8) (body : List UInt8)
deriving DecidableEq

def HtmlAttrPart.text : HtmlAttrPart → List UInt8
  | .bare c => [c]
  | .quoted quote body => quote :: (body ++ [quote])

/-- The text of the attributes of a tag. -/
def htmlAttrsText (attrs : List HtmlAttrPart) : List UInt8 := attrs.flatMap HtmlAttrPart.text

/-- An item of a page. -/
inductive HtmlItem where
  | char (c : UInt8)
  | entity (name : List UInt8) (c : UInt8)
  | tag (closing : Bool) (name : List UInt8) (attrs : List HtmlAttrPart)
  /-- a script or a style, with its content and its closing tag -/
  | raw (name : List UInt8) (attrs : List HtmlAttrPart) (content closeName closeText : List UInt8)
  | comment (body : List UInt8)
  /-- a declaration such as the type of the document -/
  | declaration (body : List UInt8)
deriving DecidableEq

/-- The text of a comment between its brackets. -/
def htmlCommentText (body : List UInt8) : List UInt8 := chars "!--" ++ (body ++ chars "--")

/-- The text of a closing tag behind its slash. -/
def htmlCloseText (name text : List UInt8) : List UInt8 :=
  ascii '<' :: ascii '/' :: (name ++ (text ++ [ascii '>']))

/-- The text of a tag between its brackets. -/
def htmlTagText (closing : Bool) (text : List UInt8) : List UInt8 :=
  if closing then ascii '/' :: text else text

def HtmlItem.text : HtmlItem → List UInt8
  | .char c => [c]
  | .entity name _ => ascii '&' :: name
  | .tag closing name attrs =>
    ascii '<' :: (htmlTagText closing (name ++ htmlAttrsText attrs) ++ [ascii '>'])
  | .raw name attrs content closeName closeText =>
    ascii '<' :: (name ++ htmlAttrsText attrs ++ [ascii '>']) ++
      (content ++ htmlCloseText closeName closeText)
  | .comment body => ascii '<' :: (htmlCommentText body ++ [ascii '>'])
  | .declaration body => ascii '<' :: (ascii '!' :: body ++ [ascii '>'])

/-- The text of a page. -/
def htmlPageText (items : List HtmlItem) : List UInt8 := items.flatMap HtmlItem.text

/-- A letter. -/
def htmlIsLetter (c : UInt8) : Bool :=
  (ascii 'a' ≤ c ∧ c ≤ ascii 'z') ∨ (ascii 'A' ≤ c ∧ c ≤ ascii 'Z')

/-- What starts a tag, a comment or a declaration behind its `<`. -/
def htmlStartsMarkup (c : UInt8) : Bool :=
  htmlIsLetter c || c == ascii '/' || c == ascii '!' || c == ascii '?'

/-- A blank of a tag. -/
def htmlIsBlank (c : UInt8) : Bool := htmlIsSpace c || c == 0x0c

/-- The name of an element: a letter first, and no blank, slash, `>` or NUL. -/
structure HtmlName (name : List UInt8) : Prop where
  first : name.head?.any htmlIsLetter = true
  rest : ∀ c ∈ name, htmlIsBlank c = false ∧ c ≠ ascii '/' ∧ c ≠ ascii '>' ∧ c ≠ 0

/-- The names of the elements whose content is not markup. -/
def htmlIsRaw (name : List UInt8) : Prop :=
  name.map cssLower = chars "script" ∨ name.map cssLower = chars "style"

instance (name : List UInt8) : Decidable (htmlIsRaw name) := inferInstanceAs (Decidable (_ ∨ _))

/-- A part of attributes without a quote or an end of the tag that is not meant. -/
def HtmlAttrPart.Valid : HtmlAttrPart → Prop
  | .bare c => c ≠ ascii '>' ∧ c ≠ ascii '\x22' ∧ c ≠ ascii '\x27'
  | .quoted quote body => (quote = ascii '\x22' ∨ quote = ascii '\x27') ∧ quote ∉ body

/-- The attributes of a tag stand apart from its name. -/
structure HtmlAttrs (attrs : List HtmlAttrPart) : Prop where
  parts : ∀ part ∈ attrs, part.Valid
  apart : (htmlAttrsText attrs).head?.all (fun c => htmlIsBlank c || c == ascii '/') = true

/-- An item in front of a text can be told apart from it. A `&` that starts the name of an entity
    and a `<` that starts a tag do not stand for themselves. -/
def HtmlItem.Valid (rest : List UInt8) : HtmlItem → Prop
  | .char c => (c = ascii '&' → htmlEntity rest = none) ∧
    (c = ascii '<' → rest.head?.any htmlStartsMarkup = false)
  | .entity name c => (name, c) ∈ htmlEntities
  | .tag closing name attrs => HtmlName name ∧ HtmlAttrs attrs ∧ (closing = false → ¬htmlIsRaw name)
  | .raw name attrs content closeName closeText => HtmlName name ∧ HtmlAttrs attrs ∧
    htmlIsRaw name ∧ closeName.map cssLower = name.map cssLower ∧ ascii '>' ∉ closeText ∧
    ¬(ascii '<' :: ascii '/' :: name.map cssLower) <:+: content.map cssLower
  | .comment body => ¬chars "-->" <:+: body ++ chars "--"
  | .declaration body => body.head? ≠ some (ascii '-') ∧ ascii '>' ∉ body

/-- The items of a page can be told apart. -/
def HtmlMarkup : List HtmlItem → Prop
  | [] => True
  | item :: items => item.Valid (htmlPageText items) ∧ HtmlMarkup items

/-- Attributes that end at the first `>` and start with a blank, which a slash is not. -/
structure HtmlAttrs.Plain (attrs : List HtmlAttrPart) : Prop where
  ends : ascii '>' ∉ htmlAttrsText attrs
  apart : (htmlAttrsText attrs).head?.all htmlIsSpace = true

/-- The walk reads the item as it is meant: it ends at its first `>`, its name has room in `tag` and
    is followed by a blank or the end of the tag, and it is not a `<` that stands for itself. -/
def HtmlItem.Plain : HtmlItem → Prop
  | .char c => c ≠ ascii '<'
  | .entity _ _ => True
  | .tag _ name attrs => name.length ≤ htmlTagMax ∧ HtmlAttrs.Plain attrs
  | .raw _ attrs _ _ _ => HtmlAttrs.Plain attrs
  | .comment body => ascii '>' ∉ body
  | .declaration _ => True

section Decidable

instance (name : List UInt8) : Decidable (HtmlName name) :=
  haveI : Decidable (∀ c ∈ name, htmlIsBlank c = false ∧ c ≠ ascii '/' ∧ c ≠ ascii '>' ∧ c ≠ 0) :=
    List.decidableBAll _ _
  decidable_of_iff (name.head?.any htmlIsLetter = true ∧
      ∀ c ∈ name, htmlIsBlank c = false ∧ c ≠ ascii '/' ∧ c ≠ ascii '>' ∧ c ≠ 0)
    ⟨fun h => ⟨h.1, h.2⟩, fun h => ⟨h.first, h.rest⟩⟩

instance : (part : HtmlAttrPart) → Decidable part.Valid
  | .bare _ => inferInstanceAs (Decidable (_ ∧ _ ∧ _))
  | .quoted _ _ => inferInstanceAs (Decidable (_ ∧ _))

instance (attrs : List HtmlAttrPart) : Decidable (HtmlAttrs attrs) :=
  decidable_of_iff ((∀ part ∈ attrs, part.Valid) ∧
      (htmlAttrsText attrs).head?.all (fun c => htmlIsBlank c || c == ascii '/') = true)
    ⟨fun h => ⟨h.1, h.2⟩, fun h => ⟨h.parts, h.apart⟩⟩

instance (rest : List UInt8) : (item : HtmlItem) → Decidable (item.Valid rest)
  | .char _ => inferInstanceAs (Decidable (_ ∧ _))
  | .entity _ _ => inferInstanceAs (Decidable (_ ∈ htmlEntities))
  | .tag _ _ _ => inferInstanceAs (Decidable (_ ∧ _ ∧ _))
  | .raw _ _ _ _ _ => inferInstanceAs (Decidable (_ ∧ _ ∧ _ ∧ _ ∧ _ ∧ _))
  | .comment _ => inferInstanceAs (Decidable (¬_))
  | .declaration _ => inferInstanceAs (Decidable (_ ∧ _))

instance instDecidableHtmlMarkup : (items : List HtmlItem) → Decidable (HtmlMarkup items)
  | [] => isTrue trivial
  | item :: items =>
    have := instDecidableHtmlMarkup items
    inferInstanceAs (Decidable (item.Valid _ ∧ HtmlMarkup items))

instance (attrs : List HtmlAttrPart) : Decidable (HtmlAttrs.Plain attrs) :=
  decidable_of_iff (ascii '>' ∉ htmlAttrsText attrs ∧
      (htmlAttrsText attrs).head?.all htmlIsSpace = true)
    ⟨fun h => ⟨h.1, h.2⟩, fun h => ⟨h.ends, h.apart⟩⟩

instance : (item : HtmlItem) → Decidable item.Plain
  | .char _ => inferInstanceAs (Decidable (_ ≠ _))
  | .entity _ _ => isTrue trivial
  | .tag _ _ _ => inferInstanceAs (Decidable (_ ∧ _))
  | .raw _ attrs _ _ _ => inferInstanceAs (Decidable (HtmlAttrs.Plain attrs))
  | .comment _ => inferInstanceAs (Decidable (_ ∉ _))
  | .declaration _ => isTrue trivial

end Decidable

/-- What the walk finds between the brackets of a comment or a declaration: a tag. -/
def htmlMarkToken (text : List UInt8) : HtmlToken :=
  .tag false (htmlTagName (text.takeWhile htmlInTagName)) (text.dropWhile htmlInTagName)

/-- What the walk finds of an item. -/
def HtmlItem.token : HtmlItem → HtmlToken
  | .char c => .char c
  | .entity _ c => .char c
  | .tag closing name attrs => .tag closing (name.map cssLower) (htmlAttrsText attrs)
  | .raw name attrs _ _ _ => .tag false (name.map cssLower) (htmlAttrsText attrs)
  | .comment body => htmlMarkToken (htmlCommentText body)
  | .declaration body => htmlMarkToken (ascii '!' :: body)

/-- The name that the walk finds in a comment or a declaration starts with `!`. -/
theorem head?_htmlTagName_mark (text : List UInt8) :
    (htmlTagName ((ascii '!' :: text).takeWhile htmlInTagName)).head? = some (ascii '!') := by
  rw [List.takeWhile_cons_of_pos (by decide)]
  rfl

@[simp]
theorem htmlPageText_nil : htmlPageText [] = [] := rfl

@[simp]
theorem htmlPageText_cons (item : HtmlItem) (items : List HtmlItem) :
    htmlPageText (item :: items) = item.text ++ htmlPageText items := rfl

@[simp]
theorem htmlPageText_append (items items' : List HtmlItem) :
    htmlPageText (items ++ items') = htmlPageText items ++ htmlPageText items' :=
  List.flatMap_append

section Tags

variable {name text rest : List UInt8} {attrs : List HtmlAttrPart}

/-- A tag whose text has no `>` is read as it is. -/
theorem htmlTagToken_text (closing : Bool) (htext : ascii '>' ∉ text)
    (hslash : closing = false → text.head? ≠ some (ascii '/')) (rest : List UInt8) :
    htmlTagToken (htmlTagText closing text ++ ascii '>' :: rest) =
        .tag closing (htmlTagName (text.takeWhile htmlInTagName)) (text.dropWhile htmlInTagName) ∧
      htmlDropTag ((htmlTagBody (htmlTagText closing text ++ ascii '>' :: rest)).dropWhile
        htmlInTagName) = rest := by
  have hbody : htmlTagBody (htmlTagText closing text ++ ascii '>' :: rest) =
      text ++ ascii '>' :: rest ∧
      decide ((htmlTagText closing text ++ ascii '>' :: rest).head? = some (ascii '/')) =
        closing := by
    cases closing with
    | true => exact ⟨rfl, rfl⟩
    | false =>
      have hne : (text ++ ascii '>' :: rest).head? ≠ some (ascii '/') := by
        cases text with
        | nil => exact fun h => absurd (Option.some.inj h) (by decide)
        | cons c text => exact hslash rfl
      exact ⟨if_neg hne, decide_eq_false hne⟩
  have hstop : (ascii '>' :: rest).dropWhile htmlInTagName = ascii '>' :: rest :=
    List.dropWhile_cons_of_neg (by decide)
  have hin : ∀ c ∈ text, decide (c ≠ ascii '>') = true := fun c hc =>
    decide_eq_true fun heq => htext (heq ▸ hc)
  have hend : (ascii '>' :: rest).dropWhile (· ≠ ascii '>') = ascii '>' :: rest := rfl
  -- the name ends in the text, or at the end of the tag
  have hname : (text ++ ascii '>' :: rest).takeWhile htmlInTagName = text.takeWhile htmlInTagName ∧
      (text ++ ascii '>' :: rest).dropWhile htmlInTagName =
        text.dropWhile htmlInTagName ++ ascii '>' :: rest := by
    have hsplit := List.takeWhile_append_dropWhile (p := htmlInTagName) (l := text)
    generalize hfront : text.takeWhile htmlInTagName = front at hsplit
    generalize hback : text.dropWhile htmlInTagName = back at hsplit
    have hall : ∀ c ∈ front, htmlInTagName c = true := fun c hc =>
      List.mem_takeWhile_imp (hfront ▸ hc)
    have hback' : (back ++ ascii '>' :: rest).dropWhile htmlInTagName =
      back ++ ascii '>' :: rest := by
      cases back with
      | nil => exact hstop
      | cons c back =>
        exact List.dropWhile_cons_of_neg (by rw [not_of_dropWhile_eq_cons hback]; decide)
    rw [← hsplit, List.append_assoc]
    exact ⟨takeWhile_append_of_stop hall hback', by rw [List.dropWhile_append_of_pos hall, hback']⟩
  have hattrs : ∀ c ∈ text.dropWhile htmlInTagName, decide (c ≠ ascii '>') = true := fun c hc =>
    hin c ((List.dropWhile_suffix _).mem hc)
  refine ⟨?_, ?_⟩
  · rw [htmlTagToken, hbody.1, hbody.2, hname.1, hname.2, takeWhile_append_of_stop hattrs hend]
  · rw [hbody.1, hname.2, htmlDropTag, List.dropWhile_append_of_pos hattrs, hend, List.tail_cons]

theorem HtmlName.inTagName (h : HtmlName name) : ∀ c ∈ name, htmlInTagName c = true := by
  intro c hc
  obtain ⟨hblank, -, hend, -⟩ := h.rest c hc
  rw [htmlIsBlank, Bool.or_eq_false_iff] at hblank
  exact decide_eq_true ⟨hend, by rw [hblank.1]; rfl⟩

theorem HtmlName.not_slash (h : HtmlName name) (text : List UInt8) :
    (name ++ text).head? ≠ some (ascii '/') := by
  cases name with
  | nil => exact absurd h.first (by decide)
  | cons c name => exact fun hc => (h.rest c List.mem_cons_self).2.1 (Option.some.inj hc)

/-- A name that has room in `tag` is kept, in small letters. -/
theorem HtmlName.tagName (h : HtmlName name) (hlen : name.length ≤ htmlTagMax) :
    htmlTagName name = name.map cssLower := by
  rw [htmlTagName, List.take_of_length_le (by rwa [List.length_map]), cString_eq_self]
  intro hzero
  obtain ⟨c, hc, hlower⟩ := List.mem_map.mp hzero
  rw [cssLower] at hlower
  split_ifs at hlower with hcapital
  · have hlow : 65 ≤ c.toNat := UInt8.le_iff_toNat_le.mp hcapital.1
    have hhigh : c.toNat ≤ 90 := UInt8.le_iff_toNat_le.mp hcapital.2
    have hsum := congrArg UInt8.toNat hlower
    rw [UInt8.toNat_add] at hsum
    have hstep : (32 : UInt8).toNat = 32 := rfl
    have hnul : (0 : UInt8).toNat = 0 := rfl
    omega
  · exact (h.rest c hc).2.2.2 hlower

/-- The name of a tag ends where its attributes start. -/
theorem HtmlAttrs.Plain.split (h : HtmlAttrs.Plain attrs) (hname : HtmlName name) :
    (name ++ htmlAttrsText attrs).takeWhile htmlInTagName = name ∧
      (name ++ htmlAttrsText attrs).dropWhile htmlInTagName = htmlAttrsText attrs := by
  have hstop : (htmlAttrsText attrs).dropWhile htmlInTagName = htmlAttrsText attrs := by
    have happart := h.apart
    cases htext : htmlAttrsText attrs with
    | nil => rfl
    | cons c text =>
      rw [htext] at happart
      have hspace : htmlIsSpace c = true := happart
      refine List.dropWhile_cons_of_neg ?_
      rw [htmlInTagName, hspace]
      simp
  exact ⟨takeWhile_append_of_stop hname.inTagName hstop, by
    rw [List.dropWhile_append_of_pos hname.inTagName, hstop]⟩

/-- A tag of a page is read as it is meant. -/
theorem htmlTagToken_tag (closing : Bool) (hname : HtmlName name) (hlen : name.length ≤ htmlTagMax)
    (hattrs : HtmlAttrs.Plain attrs) (rest : List UInt8) :
    htmlTagToken (htmlTagText closing (name ++ htmlAttrsText attrs) ++ ascii '>' :: rest) =
        .tag closing (name.map cssLower) (htmlAttrsText attrs) ∧
      htmlDropTag ((htmlTagBody (htmlTagText closing (name ++ htmlAttrsText attrs) ++
        ascii '>' :: rest)).dropWhile htmlInTagName) = rest := by
  have htext : ascii '>' ∉ name ++ htmlAttrsText attrs := by
    rw [List.mem_append]
    exact not_or.mpr ⟨fun hc => (hname.rest _ hc).2.2.1 rfl, hattrs.ends⟩
  obtain ⟨htoken, hrest⟩ := htmlTagToken_text closing htext (fun _ => hname.not_slash _) rest
  rw [(hattrs.split hname).1, (hattrs.split hname).2, hname.tagName hlen] at htoken
  exact ⟨htoken, hrest⟩

end Tags

section Raw

variable {marker content tail : List UInt8}

/-- The first end marker behind a content that has none. -/
theorem htmlDropTo_content (hmarker : ascii '<' ∉ marker)
    (hcontent : ¬(ascii '<' :: marker) <:+: content.map cssLower)
    (htail : marker <+: tail.map cssLower) :
    htmlDropTo (ascii '<' :: marker) (content ++ ascii '<' :: tail) = ascii '<' :: tail := by
  induction content with
  | nil =>
    have hinit : ascii '<' :: marker <+: (ascii '<' :: tail).map cssLower :=
      List.cons_prefix_cons.mpr ⟨rfl, htail⟩
    exact if_pos ⟨rfl, List.isPrefixOf_iff_prefix.mpr hinit⟩
  | cons c content ih =>
    have hrest := ih fun hin => hcontent (hin.trans (List.suffix_cons _ _).isInfix)
    rw [List.cons_append, htmlDropTo, if_neg, hrest]
    rintro ⟨-, hinit⟩
    rw [List.isPrefixOf_iff_prefix, ← List.cons_append, List.map_append] at hinit
    -- a marker that starts in the content does not reach behind it, where there is a `<`
    obtain hinit' | ⟨back, hback⟩ :=
      List.prefix_or_prefix_of_prefix hinit (List.prefix_append ((c :: content).map cssLower) _)
    · exact hcontent hinit'.isInfix
    · cases back with
      | nil =>
        rw [List.append_nil] at hback
        exact hcontent (hback ▸ List.infix_rfl)
      | cons d back =>
        rw [← hback, List.prefix_append_right_inj, List.map_cons, List.cons_prefix_cons] at hinit
        rw [List.map_cons, List.cons_append] at hback
        have hmem : d ∈ marker := by
          rw [← (List.cons.inj hback).2]
          simp
        rw [hinit.1] at hmem
        exact hmarker hmem

/-- A script or a style is read up to the end of its closing tag. -/
theorem htmlDropRaw_content {name closeName closeText rest : List UInt8}
    (hname : ascii '<' ∉ name)
    (hcontent : ¬(ascii '<' :: ascii '/' :: name) <:+: content.map cssLower)
    (hclose : closeName.map cssLower = name) (hletters : ascii '>' ∉ closeName)
    (htext : ascii '>' ∉ closeText) :
    htmlDropRaw (ascii '<' :: ascii '/' :: name)
      (content ++ htmlCloseText closeName closeText ++ rest) = rest := by
  have hdrop := @htmlDropTo_content (ascii '/' :: name) content
    (ascii '/' :: (closeName ++ (closeText ++ [ascii '>'])) ++ rest)
    (List.not_mem_cons_of_ne_of_not_mem (by decide) hname) hcontent (by
      rw [List.cons_append, List.map_cons, List.append_assoc, List.map_append, hclose]
      exact List.cons_prefix_cons.mpr ⟨rfl, List.prefix_append _ _⟩)
  have hin : ∀ c ∈ ascii '<' :: ascii '/' :: (closeName ++ closeText),
      decide (c ≠ ascii '>') = true := by
    intro c hc
    refine decide_eq_true ?_
    simp only [List.mem_cons, List.mem_append] at hc
    obtain rfl | rfl | hc | hc := hc
    · decide
    · decide
    · exact fun heq => hletters (heq ▸ hc)
    · exact fun heq => htext (heq ▸ hc)
  rw [htmlDropRaw, htmlCloseText, List.append_assoc, List.cons_append, hdrop, htmlDropTag,
    show ascii '<' :: (ascii '/' :: (closeName ++ (closeText ++ [ascii '>'])) ++ rest) =
      (ascii '<' :: ascii '/' :: (closeName ++ closeText)) ++ ascii '>' :: rest by simp,
    List.dropWhile_append_of_pos hin]
  rfl

end Raw

section Items

variable {item : HtmlItem} {items : List HtmlItem} {rest : List UInt8}

theorem htmlEntity_of_mem {name : List UInt8} {c : UInt8} (h : (name, c) ∈ htmlEntities)
    (rest : List UInt8) : htmlEntity (name ++ rest) = some (name, c) := by
  simp only [htmlEntities, List.mem_cons, List.not_mem_nil, or_false, Prod.mk.injEq] at h
  obtain ⟨rfl, rfl⟩ | ⟨rfl, rfl⟩ | ⟨rfl, rfl⟩ | ⟨rfl, rfl⟩ | ⟨rfl, rfl⟩ |
    ⟨rfl, rfl⟩ | ⟨rfl, rfl⟩ := h
  · rfl
  · rfl
  · rfl
  · rfl
  · rfl
  · rfl
  · rfl

/-- A comment or a declaration is read up to its end, and names no element. -/
theorem htmlToken_mark {text : List UInt8} (htext : ascii '>' ∉ text) (rest : List UInt8) :
    htmlToken (ascii '<') (ascii '!' :: text ++ ascii '>' :: rest) =
      (htmlMarkToken (ascii '!' :: text), rest) := by
  have htext' : ascii '>' ∉ ascii '!' :: text :=
    List.not_mem_cons_of_ne_of_not_mem (by decide) htext
  obtain ⟨htoken, hrest⟩ := htmlTagToken_text false htext'
    (fun _ hc => absurd (Option.some.inj hc) (by decide)) rest
  have hname : ¬(htmlTagName ((ascii '!' :: text).takeWhile htmlInTagName) = chars "script" ∨
      htmlTagName ((ascii '!' :: text).takeWhile htmlInTagName) = chars "style") := by
    have hfirst := head?_htmlTagName_mark text
    rintro (heq | heq)
    · rw [heq] at hfirst
      exact absurd hfirst (by decide)
    · rw [heq] at hfirst
      exact absurd hfirst (by decide)
  rw [htmlTagText, if_neg Bool.false_ne_true] at htoken hrest
  rw [htmlToken, if_pos rfl, htoken, hrest, htmlMarkToken]
  rw [htmlBehind, if_neg (not_or.mp hname).1, if_neg (not_or.mp hname).2]

/-- A tag of an element whose content is read as well. -/
theorem htmlToken_tag {closing : Bool} {name : List UInt8} {attrs : List HtmlAttrPart}
    (h : (HtmlItem.tag closing name attrs).Valid rest)
    (hplain : (HtmlItem.tag closing name attrs).Plain) :
    htmlToken (ascii '<') (htmlTagText closing (name ++ htmlAttrsText attrs) ++ ascii '>' :: rest) =
      ((HtmlItem.tag closing name attrs).token, rest) := by
  obtain ⟨hname, -, hraw⟩ := h
  obtain ⟨htoken, hrest⟩ := htmlTagToken_tag closing hname hplain.1 hplain.2 rest
  rw [htmlToken, if_pos rfl, htoken, hrest]
  cases closing with
  | true => rfl
  | false =>
    obtain ⟨hscript, hstyle⟩ := not_or.mp (hraw rfl)
    rw [htmlBehind, if_neg hscript, if_neg hstyle]
    rfl

/-- A closing tag of a script or a style is named with the letters of that name. -/
theorem ascii_not_mem_rawName {c : UInt8} {name closeName : List UInt8}
    (hraw : name.map cssLower = chars "script" ∨ name.map cssLower = chars "style")
    (hclose : closeName.map cssLower = name.map cssLower)
    (hscript : cssLower c ∉ chars "script") (hstyle : cssLower c ∉ chars "style") :
    c ∉ closeName := by
  intro hc
  have hmem : cssLower c ∈ closeName.map cssLower := List.mem_map_of_mem hc
  rw [hclose] at hmem
  obtain hraw | hraw := hraw
  · exact hscript (hraw ▸ hmem)
  · exact hstyle (hraw ▸ hmem)

/-- A script or a style is one token with its content and its closing tag. -/
theorem htmlToken_raw {name content closeName closeText : List UInt8} {attrs : List HtmlAttrPart}
    (h : (HtmlItem.raw name attrs content closeName closeText).Valid rest)
    (hplain : (HtmlItem.raw name attrs content closeName closeText).Plain) :
    htmlToken (ascii '<') (htmlTagText false (name ++ htmlAttrsText attrs) ++ ascii '>' ::
        (content ++ htmlCloseText closeName closeText ++ rest)) =
      ((HtmlItem.raw name attrs content closeName closeText).token, rest) := by
  obtain ⟨hname, -, hraw, hclose, htext, hcontent⟩ := h
  have hlen : name.length ≤ htmlTagMax := by
    obtain hraw | hraw := hraw
    · rw [← List.length_map cssLower, hraw]
      decide
    · rw [← List.length_map cssLower, hraw]
      decide
  obtain ⟨htoken, hrest⟩ := htmlTagToken_tag false hname hlen hplain
    (content ++ htmlCloseText closeName closeText ++ rest)
  have hletters : ascii '>' ∉ closeName :=
    ascii_not_mem_rawName hraw hclose (by decide) (by decide)
  rw [htmlToken, if_pos rfl, htoken, hrest]
  obtain hraw | hraw := hraw
  · rw [hraw] at hcontent hclose
    have hdrop := @htmlDropRaw_content content (chars "script") closeName closeText rest
      (by decide) hcontent hclose hletters htext
    rw [HtmlItem.token, hraw, htmlBehind, if_pos rfl]
    exact congrArg _ hdrop
  · rw [hraw] at hcontent hclose
    have hdrop := @htmlDropRaw_content content (chars "style") closeName closeText rest
      (by decide) hcontent hclose hletters htext
    rw [HtmlItem.token, hraw, htmlBehind, if_neg (by decide), if_pos rfl]
    exact congrArg _ hdrop

/-- The first item of a text is the first token of the walk. -/
theorem HtmlItem.Valid.token (h : item.Valid rest) (hplain : item.Plain) :
    ∃ c l, item.text ++ rest = c :: l ∧ htmlToken c l = (item.token, rest) := by
  cases item with
  | char c =>
    refine ⟨c, rest, rfl, ?_⟩
    rw [htmlToken, if_neg hplain, htmlChar]
    split_ifs with hamp
    · rw [h.1 hamp, hamp]
      rfl
    · rfl
  | entity name c =>
    refine ⟨ascii '&', name ++ rest, rfl, ?_⟩
    rw [htmlToken, if_neg (by decide), htmlChar, if_pos rfl, htmlEntity_of_mem h rest]
    show (HtmlToken.char c, (name ++ rest).drop name.length) = _
    rw [List.drop_left]
    rfl
  | tag closing name attrs =>
    refine ⟨ascii '<', htmlTagText closing (name ++ htmlAttrsText attrs) ++ ascii '>' :: rest, ?_,
      htmlToken_tag h hplain⟩
    simp [HtmlItem.text]
  | raw name attrs content closeName closeText =>
    refine ⟨ascii '<', htmlTagText false (name ++ htmlAttrsText attrs) ++ ascii '>' ::
      (content ++ htmlCloseText closeName closeText ++ rest), ?_, htmlToken_raw h hplain⟩
    simp [HtmlItem.text, htmlTagText]
  | comment body =>
    have hbody : ascii '>' ∉ chars "--" ++ (body ++ chars "--") := by
      simp only [List.mem_append, not_or]
      exact ⟨by decide, hplain, by decide⟩
    refine ⟨ascii '<', htmlCommentText body ++ ascii '>' :: rest, ?_, htmlToken_mark hbody rest⟩
    simp [HtmlItem.text]
  | declaration body =>
    refine ⟨ascii '<', ascii '!' :: body ++ ascii '>' :: rest, ?_, htmlToken_mark h.2 rest⟩
    simp [HtmlItem.text]

/-- The walk finds the items of a page. -/
theorem htmlTokens_pageText (h : HtmlMarkup items) (hplain : ∀ item ∈ items, item.Plain) :
    htmlTokens (htmlPageText items) = items.map HtmlItem.token := by
  induction items with
  | nil =>
    rw [htmlPageText_nil, htmlTokens]
    rfl
  | cons item items ih =>
    obtain ⟨c, l, htext, htoken⟩ := h.1.token (hplain item List.mem_cons_self)
    rw [htmlPageText_cons, htext, htmlTokens, htoken, List.map_cons,
      ih h.2 fun item hitem => hplain item (List.mem_cons_of_mem _ hitem)]

/-- The loop of the walk passes the items of a page one by one. -/
theorem HtmlWalkAt.run {html : List UInt8} {sheet : CssSheet} {spanMax start fuel i : ℕ}
    {w w' : HtmlWalk} {behind : List HtmlItem} (h : HtmlWalkAt html sheet spanMax start fuel i w)
    (hb : Between html i html.length (htmlPageText (items ++ behind))) (hsized : HtmlSized html)
    (hmarkup : HtmlMarkup (items ++ behind)) (hplain : ∀ item ∈ items, item.Plain)
    (hfuel : (htmlPageText (items ++ behind)).length + htmlAttrValueMax < fuel)
    (hrun : (items.map HtmlItem.token).foldlM (HtmlWalk.step sheet spanMax) w = some w') :
    ∃ fuel' j, HtmlWalkAt html sheet spanMax start fuel' j w' ∧
      Between html j html.length (htmlPageText behind) ∧
      (htmlPageText behind).length + htmlAttrValueMax < fuel' := by
  induction items generalizing fuel i w with
  | nil =>
    obtain rfl := Option.some.inj hrun
    exact ⟨fuel, i, h, hb, hfuel⟩
  | cons item items ih =>
    have hvalid : item.Valid (htmlPageText (items ++ behind)) := hmarkup.1
    obtain ⟨c, l, htext, htoken⟩ := hvalid.token (hplain item List.mem_cons_self)
    rw [List.cons_append, htmlPageText_cons, htext] at hb hfuel
    obtain ⟨fuel, rfl⟩ := Nat.exists_eq_succ_of_ne_zero (Nat.ne_zero_of_lt hfuel)
    rw [List.length_cons] at hfuel
    obtain ⟨j, hturn, hb'⟩ := @htmlTurn_eq html l i fuel c sheet spanMax hb hsized (by omega) w
    rw [List.map_cons, List.foldlM_cons] at hrun
    obtain ⟨w₁, hstep, hrest⟩ := Option.bind_eq_some_iff.mp hrun
    rw [htoken, hstep] at hturn
    rw [htoken] at hb'
    have hlt := length_htmlToken_lt c l
    rw [htoken, List.length_cons] at hlt
    exact ih (.turn h hb.lt hturn) hb' hmarkup.2
      (fun item hitem => hplain item (List.mem_cons_of_mem _ hitem)) (by dsimp only at hlt; omega)
      hrest

end Items

end AuroraOS.Html
