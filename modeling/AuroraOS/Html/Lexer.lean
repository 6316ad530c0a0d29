import AuroraOS.Css.Stylesheet
import AuroraOS.Html.Model

/-!
# Tags and characters

The stages of `kernel/html.c` that read a page, as functions of the text that is still to be read:
they read inside the page, and to its end.

## Main definitions

- `htmlAttr` — the value of an attribute
- `HtmlToken`, `htmlTokens` — the tags and the characters of a page
- `HtmlWalk.step` — what the walk does with one of them

## Main results

- `htmlFindAttr_eq`
- `htmlWalkFrom_eq` — the walk is a run over the tokens
- `htmlCollectStylesheets_total`
-/

namespace AuroraOS.Html

open Lib Css

variable {html l : List UInt8} {i e fuel : ℕ} {c : UInt8}

section Characters

/-- The entity whose name starts a text. -/
def htmlEntity (l : List UInt8) : Option (List UInt8 × UInt8) :=
  htmlEntities.find? fun entity => entity.1.isPrefixOf l

/-- The character that starts a text, and the text behind it. -/
def htmlChar (c : UInt8) (l : List UInt8) : UInt8 × List UInt8 :=
  if c = ascii '&' then
    match htmlEntity l with
    | some (name, c) => (c, l.drop name.length)
    | none => (ascii '&', l)
  else (c, l)

theorem take_eq_iff_isPrefixOf (name : List UInt8) :
    l.take name.length = name ↔ name.isPrefixOf l = true := by
  rw [List.isPrefixOf_iff_prefix, List.prefix_iff_eq_take, eq_comm]

theorem decodeEntity_eq (h : Between html i html.length l) (table : List (List UInt8 × UInt8)) :
    decodeEntity html i table = some (table.find? fun entity => entity.1.isPrefixOf l) := by
  have hlen := h.length_eq
  induction table with
  | nil => rfl
  | cons entity table ih =>
    obtain ⟨name, c⟩ := entity
    rw [decodeEntity, List.find?_cons]
    by_cases hroom : html.length - i ≥ name.length
    · rw [if_pos hroom, h.readSlice (by omega), Option.bind_eq_bind, Option.bind_some]
      by_cases hname : name.isPrefixOf l = true
      · rw [if_pos ((take_eq_iff_isPrefixOf name).mpr hname), hname]
      · rw [if_neg (fun heq => hname ((take_eq_iff_isPrefixOf name).mp heq)), ih,
          Bool.eq_false_of_not_eq_true hname]
    · have hname : name.isPrefixOf l = false := by
        rw [Bool.eq_false_iff, ne_eq, List.isPrefixOf_iff_prefix]
        intro hinit
        have hle := hinit.length_le
        omega
      rw [if_neg hroom, ih, hname]

theorem htmlCharAt_eq (h : Between html i html.length (c :: l)) :
    ∃ advance, htmlCharAt html i = some ((htmlChar c l).1, advance) ∧
      Between html (i + advance) html.length (htmlChar c l).2 := by
  obtain ⟨hget, hrest⟩ := h.uncons
  rw [htmlCharAt, hget, Option.bind_eq_bind, Option.bind_some, htmlChar]
  split_ifs
  · rw [decodeEntity_eq hrest, Option.bind_eq_bind, Option.bind_some]
    show ∃ advance, (match htmlEntity l with
      | some (name, c) => some (c, name.length + 1)
      | none => some (ascii '&', 1)) = _ ∧ _
    cases hentity : htmlEntity l with
    | none => exact ⟨1, rfl, hrest⟩
    | some entity =>
      have hinit := List.find?_some hentity
      rw [List.isPrefixOf_iff_prefix] at hinit
      refine ⟨entity.1.length + 1, rfl, ?_⟩
      rw [show i + (entity.1.length + 1) = i + 1 + entity.1.length by omega]
      exact hrest.drop hinit.length_le
  · exact ⟨1, rfl, hrest⟩

theorem length_htmlChar_lt (c : UInt8) (l : List UInt8) :
    (htmlChar c l).2.length < (c :: l).length := by
  rw [htmlChar]
  split_ifs
  · cases htmlEntity l with
    | none => exact Nat.lt_succ_self _
    | some entity => exact Nat.lt_succ_of_le (List.drop_suffix _ _).length_le
  · exact Nat.lt_succ_self _

end Characters

section Attributes

/-- The quote that starts a value. -/
def htmlQuote (l : List UInt8) : Option UInt8 :=
  l.head?.filter fun c => c = ascii '\x22' ∨ c = ascii '\x27'

/-- The text behind the quote that starts it. -/
def htmlUnquote (quote : Option UInt8) (l : List UInt8) : List UInt8 :=
  if quote.isSome then l.tail else l

/-- The value behind the sign in front of it, or the text that is left. -/
def htmlAttrValue (isMatch : Bool) (l : List UInt8) : Option (List UInt8) × List UInt8 :=
  let l := l.dropWhile htmlIsSpace
  let inValue := htmlInAttrValue (htmlQuote l)
  let value := htmlUnquote (htmlQuote l) l
  if isMatch then (some (cString ((value.takeWhile inValue).take (htmlAttrValueMax - 1))), [])
  else (none, htmlUnquote (htmlQuote l) (value.dropWhile inValue))

/-- One turn of `html_find_attr`: the value, or the text that is left. -/
def htmlAttrTurn (name l : List UInt8) : Option (List UInt8) × List UInt8 :=
  let l := l.dropWhile htmlIsSpace
  match (l.dropWhile htmlInAttrName).dropWhile htmlIsSpace with
  | [] => (none, [])
  | c :: rest =>
    if c = ascii '=' then htmlAttrValue ((l.takeWhile htmlInAttrName).map cssLower == name) rest
    else (none, c :: rest)

theorem length_htmlUnquote_le (quote : Option UInt8) (l : List UInt8) :
    (htmlUnquote quote l).length ≤ l.length := by
  rw [htmlUnquote]
  split_ifs
  · rw [List.length_tail]
    exact Nat.sub_le _ _
  · exact Nat.le_refl _

theorem length_htmlAttrValue_le (isMatch : Bool) (l : List UInt8) :
    (htmlAttrValue isMatch l).2.length ≤ l.length := by
  rw [htmlAttrValue]
  split_ifs
  · exact Nat.zero_le _
  · exact (length_htmlUnquote_le _ _).trans ((length_dropWhile_le _ _).trans
      ((length_htmlUnquote_le _ _).trans (length_dropWhile_le _ _)))

/-- Every turn reads on. -/
theorem length_htmlAttrTurn_lt (name : List UInt8) (hl : l ≠ []) :
    (htmlAttrTurn name l).2.length < l.length := by
  have hspace := length_dropWhile_le htmlIsSpace l
  rw [htmlAttrTurn]
  cases hdrop : (((l.dropWhile htmlIsSpace).dropWhile htmlInAttrName).dropWhile htmlIsSpace) with
  | nil => exact List.length_pos_iff.mpr hl
  | cons d rest =>
    have hle₁ := length_dropWhile_le htmlInAttrName (l.dropWhile htmlIsSpace)
    have hle₂ :=
      length_dropWhile_le htmlIsSpace ((l.dropWhile htmlIsSpace).dropWhile htmlInAttrName)
    rw [hdrop, List.length_cons] at hle₂
    dsimp only
    split_ifs with hd
    · have hle := length_htmlAttrValue_le
        (((l.dropWhile htmlIsSpace).takeWhile htmlInAttrName).map cssLower == name) rest
      omega
    · -- the text does not start with a sign, so the name is read or a space in front of it
      show (d :: rest).length < l.length
      rw [List.length_cons]
      by_contra hlt
      cases hfirst : l.dropWhile htmlIsSpace with
      | nil =>
        rw [hfirst] at hle₁
        have hzero : (List.dropWhile htmlInAttrName ([] : List UInt8)).length = 0 := rfl
        rw [hfirst, hzero] at hle₂
        exact absurd hle₂ (by omega)
      | cons b l' =>
        have hb := not_of_dropWhile_eq_cons hfirst
        by_cases hin : htmlInAttrName b = true
        · have hle := length_dropWhile_le htmlInAttrName l'
          rw [hfirst, List.dropWhile_cons, if_pos hin] at hle₂
          rw [hfirst, List.length_cons] at hspace
          omega
        · rw [hfirst, List.dropWhile_cons, if_neg hin, List.dropWhile_cons,
            if_neg (by rw [hb]; exact Bool.false_ne_true)] at hdrop
          obtain ⟨rfl, -⟩ := List.cons.inj hdrop
          exact hin (decide_eq_true ⟨hd, by rw [hb]; rfl⟩)

/-- `html_find_attr` on the text of a tag. -/
def htmlAttr (name l : List UInt8) : Option (List UInt8) :=
  if _h : l = [] then none
  else (htmlAttrTurn name l).1.or (htmlAttr name (htmlAttrTurn name l).2)
termination_by l.length
decreasing_by exact length_htmlAttrTurn_lt name _h

theorem htmlQuoteAt_eq (h : Between html i e l) : htmlQuoteAt html e i = some (htmlQuote l) := by
  rw [htmlQuoteAt, htmlQuote]
  cases l with
  | nil => rw [if_neg h.not_lt]; rfl
  | cons c l =>
    rw [if_pos h.lt, h.uncons.1, Option.bind_eq_bind, Option.bind_some, List.head?_cons,
      Option.filter_some]
    simp only [decide_eq_true_eq]

theorem htmlNameIs_eq (h : Between html i e l) {n : ℕ} (hn : n ≤ l.length) (name : List UInt8) :
    htmlNameIs html i n name = some ((l.take n).map cssLower == name) := by
  rw [htmlNameIs]
  split_ifs with hlen
  · rw [h.readSlice hn]
    rfl
  · congr 1
    rw [eq_comm, beq_eq_false_iff_ne]
    rintro rfl
    rw [List.length_map, List.length_take, Nat.min_eq_left hn] at hlen
    exact hlen rfl

theorem htmlUnquote_between {quote : Option UInt8} (h : Between html i e l) :
    Between html (if quote.isSome ∧ i < e then i + 1 else i) e (htmlUnquote quote l) := by
  rw [htmlUnquote]
  by_cases hquote : quote.isSome = true
  · rw [if_pos hquote]
    cases l with
    | nil =>
      rw [if_neg fun h' => h.not_lt h'.2]
      exact h
    | cons c l =>
      rw [if_pos ⟨hquote, h.lt⟩]
      exact h.uncons.2
  · rw [if_neg hquote, if_neg fun h' => hquote h'.1]
    exact h

/-- A quote is a character of the text. -/
theorem htmlUnquote_between_self (h : Between html i e l) :
    Between html (if (htmlQuote l).isSome then i + 1 else i) e (htmlUnquote (htmlQuote l) l) := by
  cases l with
  | nil => exact h
  | cons c l =>
    have hb : Between html (if (htmlQuote (c :: l)).isSome ∧ i < e then i + 1 else i) e
        (htmlUnquote (htmlQuote (c :: l)) (c :: l)) := htmlUnquote_between h
    simpa only [h.lt, and_true] using hb

/-- How the value of an attribute is read. -/
theorem htmlAttrValue_read (h : Between html i e l) :
    ∃ j₁ j₂ valStart, ∃ quote value, scanWhile html htmlIsSpace (e - i) i = some j₁ ∧
      htmlQuoteAt html e j₁ = some quote ∧
      valStart = (if quote.isSome then j₁ + 1 else j₁) ∧
      scanWhile html (htmlInAttrValue quote) (e - valStart) valStart = some j₂ ∧
      readSlice html valStart (min (j₂ - valStart) (htmlAttrValueMax - 1)) = some value ∧
      value.length < htmlAttrValueMax ∧ htmlAttrValue true l = (some (cString value), []) ∧
      Between html (if quote.isSome ∧ j₂ < e then j₂ + 1 else j₂) e (htmlAttrValue false l).2 := by
  obtain ⟨j₁, hspace, hb₁⟩ := h.scanWhile htmlIsSpace
  have hquote := htmlQuoteAt_eq hb₁
  have hb₂ := htmlUnquote_between_self hb₁
  have hvalue : ∀ isMatch, htmlAttrValue isMatch l = _ := fun isMatch =>
    htmlAttrValue.eq_1 isMatch l
  generalize htmlQuote (l.dropWhile htmlIsSpace) = quote at hquote hb₂ hvalue
  generalize htmlUnquote quote (l.dropWhile htmlIsSpace) = text at hb₂ hvalue
  obtain ⟨hscan, hin, hrest⟩ := hb₂.scanWhile_eq (htmlInAttrValue quote)
  refine ⟨j₁, _, _, quote, (text.takeWhile (htmlInAttrValue quote)).take (htmlAttrValueMax - 1),
    hspace, hquote, rfl, hscan, ?_, ?_, hvalue true, ?_⟩
  · rw [Nat.add_sub_cancel_left, hin.readSlice (Nat.min_le_left _ _), Nat.min_comm,
      ← List.take_take, List.take_length]
  · rw [List.length_take]
    exact Nat.lt_of_le_of_lt (Nat.min_le_left _ _) (by decide)
  · rw [hvalue]
    exact htmlUnquote_between hrest

/-- The search for an attribute reads inside of the tag, and ends. -/
theorem htmlFindAttr_eq (h : Between html i e l) (hfuel : l.length < fuel) (name : List UInt8) :
    htmlFindAttr html e name fuel i = some (htmlAttr name l) := by
  induction fuel generalizing i l with
  | zero => exact absurd hfuel (Nat.not_lt_zero _)
  | succ fuel ih =>
    rw [htmlFindAttr, htmlAttr]
    cases l with
    | nil => rw [if_neg h.not_lt, dif_pos rfl]
    | cons c l =>
      have hlt := length_htmlAttrTurn_lt name (List.cons_ne_nil c l)
      obtain ⟨j₁, hspace, hb₁⟩ := h.scanWhile htmlIsSpace
      obtain ⟨hname, hnameAt, hb₂⟩ := hb₁.scanWhile_eq htmlInAttrName
      obtain ⟨j₃, hspace', hb₃⟩ := hb₂.scanWhile htmlIsSpace
      have hmatch := htmlNameIs_eq hnameAt (Nat.le_refl _) name
      rw [List.take_length] at hmatch
      rw [if_pos h.lt, dif_neg (List.cons_ne_nil c l), hspace, Option.bind_eq_bind,
        Option.bind_some, hname, Option.bind_eq_bind, Option.bind_some, Nat.add_sub_cancel_left,
        hmatch, Option.bind_eq_bind, Option.bind_some, hspace', Option.bind_eq_bind,
        Option.bind_some]
      rw [htmlAttrTurn] at hlt ⊢
      dsimp only at hlt ⊢
      cases hdrop : (((c :: l).dropWhile htmlIsSpace).dropWhile htmlInAttrName).dropWhile
          htmlIsSpace with
      | nil =>
        rw [hdrop] at hb₃
        rw [hb₃.scanAt_nil, Option.bind_some, if_pos (by rfl)]
        exact ih hb₃ (Nat.zero_lt_of_lt (Nat.lt_of_succ_lt_succ hfuel))
      | cons d rest =>
        rw [hdrop] at hb₃ hlt
        rw [hb₃.scanAt_cons, Option.bind_some]
        dsimp only at hlt ⊢
        by_cases hd : d = ascii '='
        · rw [if_pos hd] at hlt ⊢
          obtain ⟨j₄, j₅, valStart, quote, value, hspace'', hquote, rfl, hvalue, hread, hlen, htrue,
            hrest⟩ := htmlAttrValue_read hb₃.uncons.2
          rw [if_neg (by rw [hd]; decide), hspace'', Option.bind_some, hquote, Option.bind_some,
            hvalue, Option.bind_some]
          generalize
            (List.map cssLower (((c :: l).dropWhile htmlIsSpace).takeWhile htmlInAttrName) ==
            name) = isMatch at hlt ⊢
          cases isMatch with
          | true =>
            rw [if_pos rfl, hread, Option.bind_some, storeChar, if_pos hlen, htrue,
              Option.bind_some, cString_append_zero]
            rfl
          | false =>
            rw [if_neg Bool.false_ne_true]
            exact ih hrest (hlt.trans_le (Nat.le_of_lt_succ hfuel))
        · rw [if_neg hd] at hlt ⊢
          rw [if_pos (by rw [beq_eq_false_iff_ne.mpr hd]; rfl)]
          exact ih hb₃ (hlt.trans_le (Nat.le_of_lt_succ hfuel))

theorem length_htmlAttrValue_lt {isMatch : Bool} {value : List UInt8}
    (h : (htmlAttrValue isMatch l).1 = some value) : value.length < htmlAttrValueMax := by
  rw [htmlAttrValue] at h
  split_ifs at h
  obtain rfl := Option.some.inj h
  refine Nat.lt_of_le_of_lt ((List.takeWhile_prefix _).length_le.trans ?_)
    (show htmlAttrValueMax - 1 < htmlAttrValueMax by decide)
  rw [List.length_take]
  exact Nat.min_le_left _ _

/-- A value fits into its array. -/
theorem length_htmlAttr_lt {name value : List UInt8} (h : htmlAttr name l = some value) :
    value.length < htmlAttrValueMax := by
  fun_induction htmlAttr name l with
  | case1 => exact absurd h (Option.some_ne_none _).symm
  | case2 l hl ih =>
    obtain hturn | ⟨-, hrest⟩ := Option.or_eq_some_iff.mp h
    · rw [htmlAttrTurn] at hturn
      split at hturn
      · exact absurd hturn (Option.some_ne_none _).symm
      · split_ifs at hturn
        exact length_htmlAttrValue_lt hturn
    · exact ih hrest

end Attributes

section Markers

/-- The text from the next marker on. -/
def htmlDropTo (marker : List UInt8) : List UInt8 → List UInt8
  | [] => []
  | c :: l =>
    if c = ascii '<' ∧ marker.isPrefixOf ((c :: l).map cssLower) then c :: l
    else htmlDropTo marker l

/-- The length is a `uint32_t`, and no `<` is so near to its limit that the sum of its position and
    the length of a marker wraps around. -/
structure HtmlSized (html : List UInt8) : Prop where
  size : html.length < 2 ^ 32
  low : ∀ i, html[i]? = some (ascii '<') → i + 8 < 2 ^ 32

theorem HtmlSized.of_lt (h : html.length + 8 < 2 ^ 32) : HtmlSized html where
  size := by omega
  low i hget := by
    obtain ⟨hi, -⟩ := List.getElem?_eq_some_iff.mp hget
    omega

/-- The text behind the next `>`. -/
def htmlDropTag (l : List UInt8) : List UInt8 := (l.dropWhile (· ≠ ascii '>')).tail

variable {marker : List UInt8}

theorem htmlDropTo_suffix (marker l : List UInt8) : htmlDropTo marker l <:+ l := by
  induction l with
  | nil => exact List.suffix_refl _
  | cons c l ih =>
    rw [htmlDropTo]
    split_ifs
    · exact List.suffix_refl _
    · exact ih.trans (List.suffix_cons c l)

theorem htmlDropTag_suffix (l : List UInt8) : htmlDropTag l <:+ l :=
  (List.tail_suffix _).trans (List.dropWhile_suffix _)

theorem htmlDropTag_cons (hc : c ≠ ascii '>') (l : List UInt8) :
    htmlDropTag (c :: l) = htmlDropTag l := by
  have hdrop : (c :: l).dropWhile (· ≠ ascii '>') = l.dropWhile (· ≠ ascii '>') :=
    List.dropWhile_cons_of_pos (decide_eq_true hc)
  rw [htmlDropTag, hdrop, htmlDropTag]

theorem length_htmlDropTag_le (l : List UInt8) : (htmlDropTag l).length ≤ l.length - 1 := by
  rw [htmlDropTag, List.length_tail]
  exact Nat.sub_le_sub_right (length_dropWhile_le _ l) 1

theorem htmlMarkerAt_eq (h : Between html i html.length (c :: l)) (hsized : HtmlSized html)
    (hmarker : marker.length ≤ 8) :
    htmlMarkerAt html marker i =
      some (decide (c = ascii '<' ∧ marker.isPrefixOf ((c :: l).map cssLower) = true)) := by
  have hlength := h.length_eq
  rw [htmlMarkerAt, h.uncons.1, Option.bind_eq_bind, Option.bind_some]
  by_cases hlt : c = ascii '<'
  · have hlow := hsized.low i (hlt ▸ h.uncons.1)
    rw [Nat.mod_eq_of_lt (show i + marker.length < 2 ^ 32 by omega)]
    by_cases hroom : i + marker.length ≤ html.length
    · rw [if_pos ⟨hlt, hroom⟩, h.readSlice (show marker.length ≤ (c :: l).length by omega),
        Option.bind_eq_bind, Option.bind_some, List.map_take]
      congr 1
      rw [Bool.eq_iff_iff, beq_iff_eq, decide_eq_true_eq, take_eq_iff_isPrefixOf]
      exact ⟨fun hinit => ⟨hlt, hinit⟩, fun hinit => hinit.2⟩
    · rw [if_neg fun hc => hroom hc.2]
      congr 1
      rw [eq_comm, decide_eq_false_iff_not]
      rintro ⟨-, hinit⟩
      have hle := (List.isPrefixOf_iff_prefix.mp hinit).length_le
      rw [List.length_map] at hle
      omega
  · rw [if_neg fun hc => hlt hc.1]
    congr 1
    rw [eq_comm, decide_eq_false_iff_not]
    exact fun hc => hlt hc.1

theorem htmlFindMarker_eq (h : Between html i html.length l) (hsized : HtmlSized html)
    (hmarker : marker.length ≤ 8) :
    ∃ j, htmlFindMarker html marker (html.length - i) i = some j ∧
      Between html j html.length (htmlDropTo marker l) := by
  induction l generalizing i with
  | nil =>
    have hzero : html.length - i = 0 := Nat.sub_eq_zero_of_le (Nat.le_of_not_lt h.not_lt)
    exact ⟨i, by rw [hzero]; rfl, h⟩
  | cons c l ih =>
    have hlt := h.lt
    rw [show html.length - i = html.length - (i + 1) + 1 by omega, htmlFindMarker,
      htmlMarkerAt_eq h hsized hmarker, Option.bind_eq_bind, Option.bind_some, htmlDropTo]
    simp only [decide_eq_true_eq]
    split_ifs
    · exact ⟨i, rfl, h⟩
    · exact ih h.uncons.2

theorem htmlBehindTag_eq (h : Between html i html.length l) :
    ∃ j, htmlBehindTag html i = some j ∧ Between html j html.length (htmlDropTag l) := by
  obtain ⟨j, hscan, hb⟩ := h.scanWhile (· ≠ ascii '>')
  rw [htmlBehindTag, hscan, Option.bind_eq_bind, Option.bind_some, htmlDropTag]
  cases hdrop : l.dropWhile (· ≠ ascii '>') with
  | nil =>
    rw [hdrop] at hb
    exact ⟨j, by rw [if_neg hb.not_lt], hb⟩
  | cons d l' =>
    rw [hdrop] at hb
    exact ⟨j + 1, by rw [if_pos hb.lt], hb.uncons.2⟩

end Markers

section Tokens

/-- A tag with the text of its attributes, or a character. -/
inductive HtmlToken where
  | tag (closing : Bool) (name attrs : List UInt8)
  | char (c : UInt8)
deriving DecidableEq

/-- The text behind the `<` of a tag and its slash. -/
def htmlTagBody (l : List UInt8) : List UInt8 := if l.head? = some (ascii '/') then l.tail else l

/-- What is kept of the name of a tag. -/
def htmlTagName (name : List UInt8) : List UInt8 := cString ((name.map cssLower).take htmlTagMax)

/-- The tag behind a `<`. -/
def htmlTagToken (l : List UInt8) : HtmlToken :=
  .tag (l.head? = some (ascii '/')) (htmlTagName ((htmlTagBody l).takeWhile htmlInTagName))
    (((htmlTagBody l).dropWhile htmlInTagName).takeWhile (· ≠ ascii '>'))

/-- The text behind a script or a style, from its opening tag on. -/
def htmlDropRaw (marker l : List UInt8) : List UInt8 := htmlDropTag (htmlDropTo marker l)

/-- The text behind a token. -/
def htmlBehind : HtmlToken → List UInt8 → List UInt8
  | .tag false name _, l =>
    if name = chars "script" then htmlDropRaw (chars "</script") l
    else if name = chars "style" then htmlDropRaw (chars "</style") l
    else l
  | _, l => l

/-- The first token of a text, and the text behind it. -/
def htmlToken (c : UInt8) (l : List UInt8) : HtmlToken × List UInt8 :=
  if c = ascii '<' then
    (htmlTagToken l,
      htmlBehind (htmlTagToken l) (htmlDropTag ((htmlTagBody l).dropWhile htmlInTagName)))
  else (.char (htmlChar c l).1, (htmlChar c l).2)

theorem length_htmlBehind_le (token : HtmlToken) (l : List UInt8) :
    (htmlBehind token l).length ≤ l.length := by
  have hraw : ∀ marker, (htmlDropRaw marker l).length ≤ l.length := fun marker =>
    ((htmlDropTag_suffix _).trans (htmlDropTo_suffix marker l)).length_le
  rw [htmlBehind.eq_def]
  split
  · split_ifs
    · exact hraw _
    · exact hraw _
    · exact Nat.le_refl _
  · exact Nat.le_refl _

theorem length_htmlTagBody_le (l : List UInt8) : (htmlTagBody l).length ≤ l.length := by
  rw [htmlTagBody]
  split_ifs
  · exact (List.tail_suffix l).length_le
  · exact Nat.le_refl _

theorem length_htmlToken_lt (c : UInt8) (l : List UInt8) :
    (htmlToken c l).2.length < (c :: l).length := by
  rw [htmlToken]
  split_ifs
  · exact Nat.lt_succ_of_le ((length_htmlBehind_le _ _).trans
      ((htmlDropTag_suffix _).length_le.trans
        ((length_dropWhile_le _ _).trans (length_htmlTagBody_le l))))
  · exact length_htmlChar_lt c l

/-- The tags and the characters of a page. -/
def htmlTokens : List UInt8 → List HtmlToken
  | [] => []
  | c :: l => (htmlToken c l).1 :: htmlTokens (htmlToken c l).2
termination_by l => l.length
decreasing_by exact length_htmlToken_lt c l

/-- A tag is read inside of the page. -/
theorem htmlReadTag_eq (h : Between html i html.length (ascii '<' :: l)) :
    ∃ tag j attrs, htmlReadTag html i = some (tag, j) ∧
      htmlTagToken l = .tag tag.closing tag.name attrs ∧
      Between html tag.attrStart tag.attrEnd attrs ∧
      Between html j html.length (htmlDropTag ((htmlTagBody l).dropWhile htmlInTagName)) := by
  have hrest := h.uncons.2
  have hclosing : scanAt html html.length (i + 1) (ascii '/') =
      some (decide (l.head? = some (ascii '/'))) := by
    cases l with
    | nil => rw [hrest.scanAt_nil]; rfl
    | cons c l =>
      rw [hrest.scanAt_cons, List.head?_cons]
      simp only [Option.some.injEq, beq_eq_decide]
  have hbody : Between html (if decide (l.head? = some (ascii '/')) = true then i + 2 else i + 1)
      html.length (htmlTagBody l) := by
    simp only [decide_eq_true_eq]
    rw [htmlTagBody]
    split_ifs with hslash
    · cases l with
      | nil => exact absurd hslash (Option.some_ne_none _).symm
      | cons c l => exact hrest.uncons.2
    · exact hrest
  obtain ⟨hscan, hname, hbehind⟩ := hbody.scanWhile_eq htmlInTagName
  obtain ⟨hscan', hattrs, hend⟩ := hbehind.scanWhile_eq (· ≠ ascii '>')
  have hread := hname.readSlice (Nat.le_refl _)
  rw [List.take_length] at hread
  have hroom : ((((htmlTagBody l).takeWhile htmlInTagName).map cssLower).take htmlTagMax).length <
      htmlTagMax + 1 := by
    rw [List.length_take]
    exact Nat.lt_succ_of_le (Nat.min_le_left _ _)
  rw [htmlReadTag, hclosing]
  dsimp only [Option.bind_eq_bind, Option.bind_some]
  rw [hscan, Option.bind_some, Nat.add_sub_cancel_left, hread, Option.bind_some, storeChar,
    if_pos hroom, Option.bind_some, hscan', Option.bind_some]
  refine ⟨_, _, _, rfl, ?_, hattrs, ?_⟩
  · rw [htmlTagToken, htmlTagName, cString_append_zero]
  · rw [htmlDropTag]
    cases hdrop : ((htmlTagBody l).dropWhile htmlInTagName).dropWhile (· ≠ ascii '>') with
    | nil =>
      rw [hdrop] at hend
      rwa [if_neg hend.not_lt]
    | cons d l' =>
      rw [hdrop] at hend
      rw [if_pos hend.lt]
      exact hend.uncons.2

end Tokens

section Steps

variable (sheet : CssSheet) (spanMax : ℕ)

/-- The frame of an element. -/
def htmlElementFrame (name attrs : List UInt8) (parent : HtmlStyleFrame) : HtmlStyleFrame :=
  htmlFrame sheet name (htmlAttr (chars "id") attrs) (htmlAttr (chars "class") attrs)
    ((htmlAttr (chars "style") attrs).map (cssDeclarations .empty)) parent

/-- An opening tag. -/
def HtmlWalk.openTag (w : HtmlWalk) (name attrs : List UInt8) : Option HtmlWalk := do
  let parent ← w.stack.head?
  if w.stack.length < htmlStyleStackMax then
    some { w with stack := htmlElementFrame sheet name attrs parent :: w.stack }
  else none

/-- A tag other than those of scripts and styles, up to the breaks. -/
def HtmlWalk.styleTag (w : HtmlWalk) (closing : Bool) (name attrs : List UInt8) :
    Option HtmlWalk :=
  if name = chars "title" then some { w with inTitle := !closing }
  else if !closing ∧ name ≠ chars "br" ∧ w.stackTop < htmlStyleStackMax - 1 then
    w.openTag sheet name attrs
  else if closing ∧ w.stackTop > 0 then do
    let w ← w.flushWord spanMax
    some { w with stack := w.stack.tail }
  else some w

/-- What the walk does with a token. -/
def HtmlWalk.step (w : HtmlWalk) : HtmlToken → Option HtmlWalk
  | .char c => w.char spanMax c
  | .tag closing name attrs =>
    if name = chars "script" ∨ name = chars "style" then some w
    else do
      let w ← w.styleTag sheet spanMax closing name attrs
      if htmlIsBlockTag name then w.emitBreak spanMax else some w

variable {sheet spanMax} {w : HtmlWalk} {attrs : List UInt8} {tag : HtmlTag}

theorem htmlOpenTag_eq (h : Between html tag.attrStart tag.attrEnd attrs)
    (hfuel : attrs.length + htmlAttrValueMax < fuel) (w : HtmlWalk) :
    htmlOpenTag html fuel sheet tag w = w.openTag sheet tag.name attrs := by
  have hattr := htmlFindAttr_eq h (Nat.lt_of_le_of_lt (Nat.le_add_right _ _) hfuel)
  have hinline : htmlInlineDecl fuel (htmlAttr (chars "style") attrs) =
      some ((htmlAttr (chars "style") attrs).map (cssDeclarations .empty)) := by
    cases hstyle : htmlAttr (chars "style") attrs with
    | none => rfl
    | some style =>
      have hlen := length_htmlAttr_lt hstyle
      rw [htmlInlineDecl, cssParseInlineStyle,
        cssParseDeclarations_eq (Between.whole style) (by omega) .empty]
      rfl
  rw [htmlOpenTag, hattr, hattr, hattr]
  simp only [Option.bind_eq_bind, Option.bind_some, hinline]
  rfl

theorem htmlStyleTag_eq (h : Between html tag.attrStart tag.attrEnd attrs)
    (hfuel : attrs.length + htmlAttrValueMax < fuel) (w : HtmlWalk) :
    htmlStyleTag html fuel sheet spanMax tag w =
      w.styleTag sheet spanMax tag.closing tag.name attrs := by
  rw [htmlStyleTag, HtmlWalk.styleTag, htmlOpenTag_eq h hfuel]

theorem htmlSkipRaw_eq (h : Between html i html.length l) (hsized : HtmlSized html)
    (hraw : tag.name = chars "script" ∨ tag.name = chars "style") (attrs : List UInt8) :
    ∃ j, htmlSkipRaw html tag i = some j ∧
      Between html j html.length (htmlBehind (.tag tag.closing tag.name attrs) l) := by
  rw [htmlSkipRaw]
  cases tag.closing with
  | true => exact ⟨i, rfl, h⟩
  | false =>
    have hmarker : (htmlEndMarker tag).length ≤ 8 := by
      rw [htmlEndMarker]
      split_ifs <;> decide
    obtain ⟨j₁, hfind, hb₁⟩ := htmlFindMarker_eq h hsized hmarker
    obtain ⟨j₂, hbehind, hb₂⟩ := htmlBehindTag_eq hb₁
    refine ⟨j₂, ?_, ?_⟩
    · rw [if_neg Bool.false_ne_true, hfind, Option.bind_eq_bind, Option.bind_some, hbehind]
    · rw [htmlEndMarker] at hb₂
      rw [htmlBehind]
      split_ifs at hb₂ ⊢ with hscript hstyle
      · exact hb₂
      · exact hb₂
      · exact absurd hraw (not_or.mpr ⟨hscript, hstyle⟩)

theorem htmlBehind_of_not_raw {closing : Bool} {name : List UInt8}
    (h : ¬(name = chars "script" ∨ name = chars "style")) :
    htmlBehind (.tag closing name attrs) l = l := by
  obtain ⟨hscript, hstyle⟩ := not_or.mp h
  cases closing with
  | true => rfl
  | false => rw [htmlBehind, if_neg hscript, if_neg hstyle]

/-- A turn of the walk is a step with the next token. -/
theorem htmlTurn_eq (h : Between html i html.length (c :: l)) (hsized : HtmlSized html)
    (hfuel : l.length + htmlAttrValueMax < fuel) (w : HtmlWalk) :
    ∃ j, htmlTurn html fuel sheet spanMax i w =
        (w.step sheet spanMax (htmlToken c l).1).map (j, ·) ∧
      Between html j html.length (htmlToken c l).2 := by
  rw [htmlTurn, h.uncons.1, Option.bind_eq_bind, Option.bind_some, htmlToken]
  split_ifs with hc
  · obtain ⟨tag, j, attrs, hread, htoken, hattrs, hb⟩ := htmlReadTag_eq (hc ▸ h)
    have hattrs_len : attrs.length ≤ l.length := by
      have h₁ := length_dropWhile_le htmlInTagName (htmlTagBody l)
      have h₂ := length_htmlTagBody_le l
      injection htoken with _ _ hattrs_eq
      rw [← hattrs_eq]
      exact (List.takeWhile_prefix _).length_le.trans (h₁.trans h₂)
    rw [hread, Option.bind_eq_bind, Option.bind_some, htoken]
    rw [HtmlWalk.step]
    dsimp only
    by_cases hraw : tag.name = chars "script" ∨ tag.name = chars "style"
    · obtain ⟨j', hskip, hb'⟩ := htmlSkipRaw_eq hb hsized hraw attrs
      exact ⟨j', by rw [if_pos hraw, if_pos hraw, hskip]; rfl, hb'⟩
    · refine ⟨j, ?_, by rwa [htmlBehind_of_not_raw hraw]⟩
      rw [if_neg hraw, if_neg hraw, htmlStyleTag_eq hattrs (by omega)]
      cases w.styleTag sheet spanMax tag.closing tag.name attrs with
      | none => rfl
      | some w' =>
        rw [Option.bind_eq_bind, Option.bind_eq_bind, Option.bind_some, Option.bind_some,
          htmlBreakTag]
        exact Option.map_eq_bind.symm
  · obtain ⟨advance, hchar, hb⟩ := htmlCharAt_eq h
    refine ⟨i + advance, ?_, hb⟩
    rw [hchar, Option.bind_eq_bind, Option.bind_some]
    exact Option.map_eq_bind.symm

/-- The walk is a run over the tokens of the page. -/
theorem htmlWalkFrom_eq (h : Between html i html.length l) (hsized : HtmlSized html)
    (hfuel : l.length + htmlAttrValueMax < fuel) (w : HtmlWalk) :
    htmlWalkFrom html sheet spanMax fuel i w =
      (htmlTokens l).foldlM (HtmlWalk.step sheet spanMax) w := by
  induction fuel generalizing i l w with
  | zero => exact absurd hfuel (Nat.not_lt_zero _)
  | succ fuel ih =>
    rw [htmlWalkFrom]
    cases l with
    | nil =>
      rw [if_neg h.not_lt, htmlTokens]
      rfl
    | cons c l =>
      have hlt := length_htmlToken_lt c l
      rw [List.length_cons] at hfuel hlt
      have hfuel' : l.length + htmlAttrValueMax < fuel := by omega
      obtain ⟨j, hturn, hb⟩ := htmlTurn_eq h hsized hfuel' w
      rw [if_pos h.lt, hturn, htmlTokens, List.foldlM_cons]
      cases w.step sheet spanMax (htmlToken c l).1 with
      | none => rfl
      | some w' => exact ih hb (by omega) w'

/-- The loop of `html_walk` comes to `i` with `w`, and with `fuel` turns left of `start`. -/
inductive HtmlWalkAt (html : List UInt8) (sheet : CssSheet) (spanMax start : ℕ) :
    ℕ → ℕ → HtmlWalk → Prop
  | start : HtmlWalkAt html sheet spanMax start start 0 .start
  | turn {fuel i j : ℕ} {w w' : HtmlWalk} : HtmlWalkAt html sheet spanMax start (fuel + 1) i w →
      i < html.length → htmlTurn html fuel sheet spanMax i w = some (j, w') →
        HtmlWalkAt html sheet spanMax start fuel j w'

/-- The loop goes on from where it comes to. -/
theorem HtmlWalkAt.walkFrom_eq {start : ℕ} (h : HtmlWalkAt html sheet spanMax start fuel i w) :
    htmlWalkFrom html sheet spanMax start 0 .start =
      htmlWalkFrom html sheet spanMax fuel i w := by
  induction h with
  | start => rfl
  | turn _ hlt hturn ih => rw [ih, htmlWalkFrom, if_pos hlt, hturn]; rfl

/-- `html_walk` reads inside of the page, and to its end. -/
theorem htmlWalk_eq (hsized : HtmlSized html)
    (hfuel : html.length + htmlAttrValueMax < fuel) :
    htmlWalk html sheet spanMax fuel =
      ((htmlTokens html).foldlM (HtmlWalk.step sheet spanMax) .start).bind
        (HtmlWalk.finish spanMax) := by
  rw [htmlWalk, htmlWalkFrom_eq (Between.whole html) hsized hfuel]
  rfl

end Steps

section Stylesheets

variable {sheet : CssSheet}

theorem htmlIsStyleOpen_total (h : Between html i html.length (ascii '<' :: l))
    (hsized : HtmlSized html) : ∃ isOpen, htmlIsStyleOpen html i = some isOpen := by
  have hlength := h.length_eq
  have hlow := hsized.low i h.uncons.1
  rw [List.length_cons] at hlength
  rw [htmlIsStyleOpen, Nat.mod_eq_of_lt (show i + 6 < 2 ^ 32 by omega)]
  split_ifs with hroom
  · rw [h.uncons.2.readSlice (by omega)]
    exact ⟨_, rfl⟩
  · exact ⟨false, rfl⟩

/-- The content of a style is parsed, and the search goes on behind it. -/
theorem htmlCollect_style (h : Between html i html.length (ascii '<' :: l))
    (hsized : HtmlSized html) (hcount : sheet.ruleCount ≤ cssSheetMaxRules)
    (hfuel : l.length + 1 < fuel) :
    ∃ contentStart contentEnd css sheet' j l', htmlBehindTag html i = some contentStart ∧
      htmlFindMarker html (chars "</style") (html.length - contentStart) contentStart =
        some contentEnd ∧
      readSlice html contentStart (contentEnd - contentStart) = some css ∧
      cssParseStylesheet css fuel sheet = some sheet' ∧ sheet.Extends sheet' ∧
      htmlBehindTag html contentEnd = some j ∧ Between html j html.length l' ∧
      l'.length ≤ l.length := by
  obtain ⟨j₁, hstart, hb₁⟩ := htmlBehindTag_eq h
  obtain ⟨j₂, hend, hb₂⟩ :=
    htmlFindMarker_eq hb₁ hsized (show (chars "</style").length ≤ 8 by decide)
  obtain ⟨j₃, hbehind, hb₃⟩ := htmlBehindTag_eq hb₂
  have hle₁ : (htmlDropTag (ascii '<' :: l)).length ≤ l.length - 1 := by
    rw [htmlDropTag_cons (by decide)]
    exact length_htmlDropTag_le l
  have hle₂ := (htmlDropTo_suffix (chars "</style") (htmlDropTag (ascii '<' :: l))).length_le
  have hle₃ :=
    (htmlDropTag_suffix (htmlDropTo (chars "</style") (htmlDropTag (ascii '<' :: l)))).length_le
  have hlength := h.length_eq
  have hlength₁ := hb₁.length_eq
  have hlength₂ := hb₂.length_eq
  rw [List.length_cons] at hlength
  have hread := hb₁.readSlice (show j₂ - j₁ ≤ (htmlDropTag (ascii '<' :: l)).length by omega)
  have hcss : ((htmlDropTag (ascii '<' :: l)).take (j₂ - j₁)).length ≤ l.length - 1 := by
    rw [List.length_take]
    omega
  have hsize := hsized.size
  have hcss_fits : CssFits ((htmlDropTag (ascii '<' :: l)).take (j₂ - j₁)) := .of_lt (by omega)
  have hcss_fuel : ((htmlDropTag (ascii '<' :: l)).take (j₂ - j₁)).length - 0 + 1 < fuel := by omega
  obtain ⟨sheet', hparse, hext⟩ := cssParseFrom_total hcss_fits hcount hcss_fuel
  exact ⟨j₁, j₂, _, sheet', j₃, _, hstart, hend, hread, hparse, hext, hbehind, hb₃, by omega⟩

/-- The style sheets of a page are collected from inside of it. -/
theorem htmlCollectStylesheets_total (h : Between html i html.length l)
    (hsized : HtmlSized html) (hcount : sheet.ruleCount ≤ cssSheetMaxRules)
    (hfuel : l.length + 1 < fuel) :
    ∃ sheet', htmlCollectStylesheets html fuel i sheet = some sheet' ∧ sheet.Extends sheet' := by
  induction fuel generalizing i l sheet with
  | zero => exact absurd hfuel (Nat.not_lt_zero _)
  | succ fuel ih =>
    rw [htmlCollectStylesheets]
    cases l with
    | nil => exact ⟨sheet, if_neg h.not_lt, .refl hcount⟩
    | cons c l =>
      rw [List.length_cons] at hfuel
      rw [if_pos h.lt, h.uncons.1, Option.bind_eq_bind, Option.bind_some]
      by_cases hc : c = ascii '<'
      · subst hc
        obtain ⟨isOpen, hopen⟩ := htmlIsStyleOpen_total h hsized
        rw [if_neg (not_not.mpr rfl), hopen, Option.bind_eq_bind, Option.bind_some]
        cases isOpen with
        | false => exact ih h.uncons.2 hcount (by omega)
        | true =>
          obtain ⟨contentStart, contentEnd, css, sheet₁, j, l', hstart, hend, hread, hparse, hext,
            hbehind, hb, hle⟩ :=
              htmlCollect_style h hsized hcount (show l.length + 1 < fuel by omega)
          rw [if_neg (by decide)]
          simp only [hstart, hend, hread, hparse, hbehind, Option.bind_eq_bind, Option.bind_some]
          obtain ⟨sheet', hcollect, hext'⟩ := ih hb hext.count_le (by omega)
          exact ⟨sheet', hcollect, hext.trans hext'⟩
      · rw [if_pos hc]
        exact ih h.uncons.2 hcount (by omega)

end Stylesheets

end AuroraOS.Html
