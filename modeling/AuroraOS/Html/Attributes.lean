import AuroraOS.Html.Lexer

/-!
# The attributes of a tag

What `html_find_attr` finds in the attributes of a tag that ends at its first `>`, which may stand
inside of quotes.

## Main definitions

- `TagAttr`, `tagAttrsText` — attributes as they stand in a tag

## Main results

- `htmlAttr_text_of_ne` — an attribute of another name is passed over, or ends the tag
- `htmlAttr_of_before` — the value of an attribute behind others
-/

namespace AuroraOS.Html

open Lib Css

/-- An attribute: without a value, with a value, or with a value in quotes. -/
inductive TagAttr where
  | bare (name : List UInt8)
  | unquoted (name value : List UInt8)
  | quoted (name : List UInt8) (quote : UInt8) (value : List UInt8)

namespace TagAttr

def name : TagAttr → List UInt8
  | bare name | unquoted name _ | quoted name _ _ => name

/-- The value, if there is one. -/
def value : TagAttr → List UInt8
  | bare _ => []
  | unquoted _ value | quoted _ _ value => value

/-- The text behind the name. -/
def tail : TagAttr → List UInt8
  | bare _ => []
  | unquoted _ value => ascii '=' :: value
  | quoted _ quote value => ascii '=' :: quote :: (value ++ [quote])

/-- The text of an attribute, with a blank in front of it. -/
def text (a : TagAttr) : List UInt8 := ascii ' ' :: (a.name ++ a.tail)

/-- A quote. -/
def IsQuote (c : UInt8) : Prop := c = ascii '\x22' ∨ c = ascii '\x27'

instance (c : UInt8) : Decidable (IsQuote c) := inferInstanceAs (Decidable (_ ∨ _))

/-- A value that can be told apart from what follows. -/
def ValidValue : TagAttr → Prop
  | bare _ => True
  | unquoted _ value => value ≠ [] ∧ (∀ c ∈ value, htmlIsSpace c = false ∧ c ≠ ascii '>') ∧
    value.head?.all (fun c => !decide (IsQuote c)) = true
  | quoted _ quote value => IsQuote quote ∧ quote ∉ value

instance : (a : TagAttr) → Decidable a.ValidValue
  | bare _ => isTrue trivial
  | unquoted _ _ => inferInstanceAs (Decidable (_ ∧ _ ∧ _))
  | quoted _ _ _ => inferInstanceAs (Decidable (_ ∧ _))

/-- An attribute that can be told apart from what follows. -/
structure Valid (a : TagAttr) : Prop where
  name_ne : a.name ≠ []
  name : ∀ c ∈ a.name, htmlInAttrName c = true ∧ c ≠ ascii '>'
  value : a.ValidValue

instance (a : TagAttr) : Decidable a.Valid :=
  haveI : Decidable (∀ c ∈ a.name, htmlInAttrName c = true ∧ c ≠ ascii '>') :=
    List.decidableBAll _ _
  decidable_of_iff
    (a.name ≠ [] ∧ (∀ c ∈ a.name, htmlInAttrName c = true ∧ c ≠ ascii '>') ∧ a.ValidValue)
    ⟨fun h => ⟨h.1, h.2.1, h.2.2⟩, fun h => ⟨h.name_ne, h.name, h.value⟩⟩

end TagAttr

/-- The text of the attributes of a tag. -/
def tagAttrsText (attrs : List TagAttr) : List UInt8 := attrs.flatMap TagAttr.text

/-- A text up to its first `>`. -/
def uptoEnd (l : List UInt8) : List UInt8 := l.takeWhile (· ≠ ascii '>')

theorem uptoEnd_cons {c : UInt8} (h : c ≠ ascii '>') (l : List UInt8) :
    uptoEnd (c :: l) = c :: uptoEnd l := List.takeWhile_cons_of_pos (decide_eq_true h)

theorem uptoEnd_append {l : List UInt8} (h : ascii '>' ∉ l) (rest : List UInt8) :
    uptoEnd (l ++ rest) = l ++ uptoEnd rest :=
  List.takeWhile_append_of_pos fun _ hc => decide_eq_true fun heq => h (heq ▸ hc)

theorem uptoEnd_append_of_mem {l : List UInt8} (h : ascii '>' ∈ l) (rest : List UInt8) :
    uptoEnd (l ++ rest) = uptoEnd l := by
  refine List.takeWhile_append.trans (if_neg fun hlen => ?_)
  have hall := (List.takeWhile_prefix _).eq_of_length hlen
  exact absurd (List.takeWhile_eq_self_iff.mp hall _ h) (by decide)

theorem uptoEnd_eq_self_iff {l : List UInt8} : uptoEnd l = l ↔ ascii '>' ∉ l := by
  rw [uptoEnd, List.takeWhile_eq_self_iff]
  constructor
  · exact fun h hc => absurd (h _ hc) (by decide)
  · exact fun h c hc => decide_eq_true fun heq => h (heq ▸ hc)

section Reading

variable {name n v l rest : List UInt8} {quote : UInt8}

theorem htmlAttr_nil (name : List UInt8) : htmlAttr name [] = none := by
  rw [htmlAttr, dif_pos rfl]

/-- The blanks in front of an attribute do not matter. -/
theorem htmlAttr_dropSpace (name l : List UInt8) :
    htmlAttr name (l.dropWhile htmlIsSpace) = htmlAttr name l := by
  have hturn : htmlAttrTurn name (l.dropWhile htmlIsSpace) = htmlAttrTurn name l := by
    rw [htmlAttrTurn, htmlAttrTurn,
      List.dropWhile_eq_self_iff.mpr fun hl => List.dropWhile_get_zero_not _ l hl]
  by_cases hl : l = []
  · rw [hl]
    rfl
  by_cases hdrop : l.dropWhile htmlIsSpace = []
  · rw [hdrop] at hturn ⊢
    rw [htmlAttr_nil, htmlAttr, dif_neg hl, ← hturn]
    exact (htmlAttr_nil name).symm
  · rw [htmlAttr, dif_neg hdrop, hturn, htmlAttr.eq_def name l, dif_neg hl]

/-- A turn of `html_find_attr` at a name. -/
theorem htmlAttrTurn_name (hne : n ≠ []) (hn : ∀ c ∈ n, htmlInAttrName c = true)
    (hl : l.dropWhile htmlInAttrName = l) :
    htmlAttrTurn name (ascii ' ' :: (n ++ l)) =
      match l.dropWhile htmlIsSpace with
      | [] => (none, [])
      | c :: rest =>
        if c = ascii '=' then htmlAttrValue (n.map cssLower == name) rest
          else (none, c :: rest) := by
  have hspace : (ascii ' ' :: (n ++ l)).dropWhile htmlIsSpace = n ++ l := by
    rw [List.dropWhile_cons_of_pos (by decide)]
    cases n with
    | nil => exact absurd rfl hne
    | cons c n =>
      have hc := (of_decide_eq_true (hn c List.mem_cons_self)).2
      rw [List.cons_append, List.dropWhile_cons_of_neg]
      rwa [Bool.not_eq_eq_eq_not, Bool.not_true, ← Bool.not_eq_true] at hc
  cases hrest : l.dropWhile htmlIsSpace with
  | nil => simp only [htmlAttrTurn, hspace, List.dropWhile_append_of_pos hn, hl, hrest]
  | cons c rest =>
    simp only [htmlAttrTurn, hspace, List.dropWhile_append_of_pos hn, hl,
      takeWhile_append_of_stop hn hl, hrest]

/-- What follows a name or a value: nothing, or a blank, without a sign behind it. -/
structure Follows (l : List UInt8) : Prop where
  blank : l.head?.all htmlIsSpace = true
  sign : (l.dropWhile htmlIsSpace).head? ≠ some (ascii '=')

theorem Follows.stop (h : Follows l) {p : UInt8 → Bool}
    (hp : ∀ c, p c = true → htmlIsSpace c = false) :
    l.dropWhile p = l := by
  have hblank := h.blank
  cases l with
  | nil => rfl
  | cons c l =>
    refine List.dropWhile_cons_of_neg fun hc => ?_
    rw [List.head?_cons, Option.all_some, hp c hc] at hblank
    exact Bool.false_ne_true hblank

theorem htmlInAttrName_not_space {c : UInt8} (h : htmlInAttrName c = true) :
    htmlIsSpace c = false := by
  simpa using (of_decide_eq_true h).2

theorem htmlAttr_bare (hne : n ≠ []) (hn : ∀ c ∈ n, htmlInAttrName c = true) (hl : Follows l) :
    htmlAttr name (ascii ' ' :: (n ++ l)) = htmlAttr name l := by
  have hsign := hl.sign
  rw [htmlAttr, dif_neg (List.cons_ne_nil _ _), htmlAttrTurn_name hne hn
    (hl.stop fun _ => htmlInAttrName_not_space), ← htmlAttr_dropSpace name l]
  cases hdrop : l.dropWhile htmlIsSpace with
  | nil => rfl
  | cons c rest =>
    rw [hdrop] at hsign
    have hc : c ≠ ascii '=' := fun heq => hsign (congrArg some heq)
    dsimp only
    rw [if_neg hc]
    rfl

/-- A turn at an attribute with a sign behind its name. -/
theorem htmlAttr_sign (hne : n ≠ []) (hn : ∀ c ∈ n, htmlInAttrName c = true) (text : List UInt8) :
    htmlAttr name (ascii ' ' :: (n ++ ascii '=' :: text)) =
      (htmlAttrValue (n.map cssLower == name) text).1.or
        (htmlAttr name (htmlAttrValue (n.map cssLower == name) text).2) := by
  have hstop : (ascii '=' :: text).dropWhile htmlInAttrName = ascii '=' :: text :=
    List.dropWhile_cons_of_neg (by decide)
  have hspace : (ascii '=' :: text).dropWhile htmlIsSpace = ascii '=' :: text :=
    List.dropWhile_cons_of_neg (by decide)
  have hturn := @htmlAttrTurn_name name n (ascii '=' :: text) hne hn hstop
  rw [hspace] at hturn
  rw [htmlAttr, dif_neg (List.cons_ne_nil _ _), hturn]
  rfl

theorem htmlAttr_unquoted (hne : n ≠ []) (hn : ∀ c ∈ n, htmlInAttrName c = true)
    (hname : n.map cssLower ≠ name) (hv : v ≠ []) (hvalue : ∀ c ∈ v, htmlIsSpace c = false)
    (hquote : v.head?.all (fun c => !decide (TagAttr.IsQuote c)) = true) (hl : Follows l) :
    htmlAttr name (ascii ' ' :: (n ++ ascii '=' :: (v ++ l))) = htmlAttr name l := by
  obtain ⟨c, v, rfl⟩ := List.exists_cons_of_ne_nil hv
  have hc := hvalue c List.mem_cons_self
  have hspace : (c :: v ++ l).dropWhile htmlIsSpace = c :: v ++ l :=
    List.dropWhile_cons_of_neg (by rw [hc]; exact Bool.false_ne_true)
  have hnone : htmlQuote (c :: v ++ l) = none := by
    have hnot : ¬TagAttr.IsQuote c := by simpa using hquote
    exact Option.filter_eq_none_iff.mpr fun b hb =>
      by rw [← Option.some.inj hb]; exact fun h => hnot (of_decide_eq_true h)
  have hin : ∀ b ∈ c :: v, (!htmlIsSpace b) = true := fun b hb => by
    rw [hvalue b hb]
    rfl
  rw [htmlAttr_sign hne hn, htmlAttrValue, hspace, hnone, beq_eq_false_iff_ne.mpr hname]
  show htmlAttr name ((c :: v ++ l).dropWhile fun c => !htmlIsSpace c) = _
  rw [List.dropWhile_append_of_pos hin, hl.stop fun c hc => by simpa using hc]

/-- An attribute in quotes, closed or not. -/
theorem htmlAttr_quoted (hne : n ≠ []) (hn : ∀ c ∈ n, htmlInAttrName c = true)
    (hquote : TagAttr.IsQuote quote) (text : List UInt8) :
    htmlAttr name (ascii ' ' :: (n ++ ascii '=' :: quote :: text)) =
      if n.map cssLower = name then
        some (cString ((text.takeWhile (· ≠ quote)).take (htmlAttrValueMax - 1)))
      else htmlAttr name (text.dropWhile (· ≠ quote)).tail := by
  have hspace : (quote :: text).dropWhile htmlIsSpace = quote :: text := by
    obtain rfl | rfl := hquote
    · exact List.dropWhile_cons_of_neg (by decide)
    · exact List.dropWhile_cons_of_neg (by decide)
  have hsome : htmlQuote (quote :: text) = some quote :=
    Option.filter_eq_some_iff.mpr ⟨rfl, decide_eq_true hquote⟩
  rw [htmlAttr_sign hne hn, htmlAttrValue, hspace, hsome]
  by_cases hname : n.map cssLower = name
  · rw [if_pos hname, beq_iff_eq.mpr hname]
    rfl
  · rw [if_neg hname, beq_eq_false_iff_ne.mpr hname]
    rfl

end Reading

section Attributes

variable {name text : List UInt8} {a : TagAttr} {attrs : List TagAttr}

theorem tagAttrsText_cons (a : TagAttr) (attrs : List TagAttr) (text : List UInt8) :
    tagAttrsText (a :: attrs) ++ text =
      ascii ' ' :: (a.name ++ (a.tail ++ (tagAttrsText attrs ++ text))) := by
  rw [tagAttrsText, List.flatMap_cons, ← tagAttrsText, TagAttr.text]
  simp only [List.cons_append, List.append_assoc]

/-- The rest of a tag follows a name. -/
theorem follows_tagAttrs (hattrs : ∀ a ∈ attrs, a.Valid) (rest : List UInt8) :
    Follows (uptoEnd (tagAttrsText attrs ++ ascii '>' :: rest)) := by
  cases attrs with
  | nil => exact ⟨rfl, (Option.some_ne_none _).symm⟩
  | cons a attrs =>
    have ha := hattrs a List.mem_cons_self
    obtain ⟨c, n, hn⟩ := List.exists_cons_of_ne_nil ha.name_ne
    obtain ⟨hc, hend⟩ := ha.name c (hn ▸ List.mem_cons_self)
    rw [tagAttrsText_cons, hn, uptoEnd_cons (by decide), List.cons_append, uptoEnd_cons hend]
    refine ⟨rfl, ?_⟩
    rw [List.dropWhile_cons_of_pos (by decide), List.dropWhile_cons_of_neg
      (by rw [htmlInAttrName_not_space hc]; exact Bool.false_ne_true)]
    exact fun h => (of_decide_eq_true hc).1 (Option.some.inj h)

theorem TagAttr.IsQuote.ne_end {c : UInt8} (h : TagAttr.IsQuote c) : c ≠ ascii '>' := by
  obtain rfl | rfl := h
  · decide
  · decide

/-- What is read of a quoted value, and what is left behind it. -/
theorem uptoEnd_quoted {quote : UInt8} {value : List UInt8} (hquote : TagAttr.IsQuote quote)
    (hvalue : quote ∉ value) (text : List UInt8) :
    (uptoEnd (value ++ quote :: text)).takeWhile (· ≠ quote) = uptoEnd value ∧
      ((uptoEnd (value ++ quote :: text)).dropWhile (· ≠ quote)).tail =
        if ascii '>' ∈ value then [] else uptoEnd text := by
  have hin : ∀ c ∈ value, decide (c ≠ quote) = true := fun c hc =>
    decide_eq_true fun heq => hvalue (heq ▸ hc)
  split_ifs with hend
  · -- the tag ends in the value
    have hall : ∀ c ∈ uptoEnd value, decide (c ≠ quote) = true := fun c hc =>
      hin c ((List.takeWhile_prefix _).subset hc)
    rw [uptoEnd_append_of_mem hend, List.takeWhile_eq_self_iff.mpr hall,
      List.dropWhile_eq_nil_iff.mpr hall]
    exact ⟨rfl, rfl⟩
  · have hstop : (quote :: uptoEnd text).dropWhile (· ≠ quote) = quote :: uptoEnd text :=
      List.dropWhile_cons_of_neg (by simp)
    rw [uptoEnd_append hend, uptoEnd_cons hquote.ne_end, takeWhile_append_of_stop hin hstop,
      List.dropWhile_append_of_pos hin, hstop, uptoEnd_eq_self_iff.mpr hend]
    exact ⟨rfl, rfl⟩

/-- An attribute of another name is passed over, unless the tag ends inside of it. -/
theorem htmlAttr_text_of_ne (ha : a.Valid) (hattrs : ∀ a ∈ attrs, a.Valid)
    (hname : a.name.map cssLower ≠ name) (rest : List UInt8) :
    htmlAttr name (uptoEnd (tagAttrsText (a :: attrs) ++ ascii '>' :: rest)) =
      if ascii '>' ∈ a.value then none
      else htmlAttr name (uptoEnd (tagAttrsText attrs ++ ascii '>' :: rest)) := by
  have hfollows := follows_tagAttrs hattrs rest
  have hchars : ∀ c ∈ a.name, htmlInAttrName c = true := fun c hc => (ha.name c hc).1
  have hend : ascii '>' ∉ a.name := fun h => (ha.name _ h).2 rfl
  rw [tagAttrsText_cons, uptoEnd_cons (by decide), uptoEnd_append hend]
  generalize htext : tagAttrsText attrs ++ ascii '>' :: rest = text at hfollows ⊢
  cases a with
  | bare n =>
    rw [TagAttr.value, if_neg List.not_mem_nil]
    exact htmlAttr_bare ha.name_ne hchars hfollows
  | unquoted n value =>
    obtain ⟨hne, hvalue, hquote⟩ := ha.value
    have hin : ascii '>' ∉ value := fun h => (hvalue _ h).2 rfl
    rw [TagAttr.value, if_neg hin, TagAttr.tail, List.cons_append, uptoEnd_cons (by decide),
      uptoEnd_append hin]
    exact htmlAttr_unquoted ha.name_ne hchars hname hne
      (fun c hc => (hvalue c hc).1) hquote hfollows
  | quoted n quote value =>
    obtain ⟨hquote, hvalue⟩ := ha.value
    obtain ⟨-, hleft⟩ := uptoEnd_quoted hquote hvalue text
    rw [TagAttr.tail, List.cons_append, List.cons_append, List.append_assoc, List.singleton_append,
      uptoEnd_cons (by decide), uptoEnd_cons hquote.ne_end,
      htmlAttr_quoted ha.name_ne hchars hquote, if_neg hname, hleft, TagAttr.value]
    split_ifs
    · exact htmlAttr_nil name
    · rfl

/-- An attribute in quotes has its value up to the end of the tag. -/
theorem htmlAttr_text_quoted {n : List UInt8} {quote : UInt8} {value : List UInt8}
    (ha : (TagAttr.quoted n quote value).Valid) (attrs : List TagAttr) (rest : List UInt8) :
    htmlAttr (n.map cssLower)
        (uptoEnd (tagAttrsText (.quoted n quote value :: attrs) ++ ascii '>' :: rest)) =
      some (cString ((uptoEnd value).take (htmlAttrValueMax - 1))) := by
  have hchars : ∀ c ∈ n, htmlInAttrName c = true := fun c hc => (ha.name c hc).1
  have hend : ascii '>' ∉ n := fun h => (ha.name _ h).2 rfl
  obtain ⟨hquote, hvalue⟩ := ha.value
  obtain ⟨hread, -⟩ := uptoEnd_quoted hquote hvalue (tagAttrsText attrs ++ ascii '>' :: rest)
  rw [tagAttrsText_cons, uptoEnd_cons (by decide), TagAttr.name, uptoEnd_append hend, TagAttr.tail,
    List.cons_append, List.cons_append, List.append_assoc, List.singleton_append,
    uptoEnd_cons (by decide), uptoEnd_cons hquote.ne_end,
    htmlAttr_quoted (show n ≠ [] from ha.name_ne) hchars hquote, if_pos rfl, hread]

/-- Attributes of other names have no value. -/
theorem htmlAttr_of_forall_ne (hattrs : ∀ a ∈ attrs, a.Valid ∧ a.name.map cssLower ≠ name)
    (rest : List UInt8) :
    htmlAttr name (uptoEnd (tagAttrsText attrs ++ ascii '>' :: rest)) = none := by
  induction attrs with
  | nil => exact htmlAttr_nil name
  | cons a attrs ih =>
    obtain ⟨ha, hname⟩ := hattrs a List.mem_cons_self
    have hrest := fun b hb => hattrs b (List.mem_cons_of_mem a hb)
    rw [htmlAttr_text_of_ne ha (fun b hb => (hrest b hb).1) hname, ih hrest]
    exact ite_self _

/-- The value of an attribute behind others: there is none if the tag ends inside of those. -/
theorem htmlAttr_of_before {n : List UInt8} {quote : UInt8} {value : List UInt8}
    {before : List TagAttr} (hbefore : ∀ a ∈ before, a.Valid ∧ a.name.map cssLower ≠ n.map cssLower)
    (ha : (TagAttr.quoted n quote value).Valid) (hattrs : ∀ a ∈ attrs, a.Valid)
    (rest : List UInt8) :
    htmlAttr (n.map cssLower) (uptoEnd
        (tagAttrsText (before ++ .quoted n quote value :: attrs) ++ ascii '>' :: rest)) =
      if ∀ a ∈ before, ascii '>' ∉ a.value then
        some (cString ((uptoEnd value).take (htmlAttrValueMax - 1)))
      else none := by
  induction before with
  | nil => rw [List.nil_append, htmlAttr_text_quoted ha, if_pos fun a h =>
    absurd h List.not_mem_nil]
  | cons b before ih =>
    obtain ⟨hb, hname⟩ := hbefore b List.mem_cons_self
    have hrest := fun a h => hbefore a (List.mem_cons_of_mem b h)
    have hvalid : ∀ a ∈ before ++ .quoted n quote value :: attrs, a.Valid := by
      intro a h
      obtain h | h := List.mem_append.mp h
      · exact (hrest a h).1
      · obtain rfl | h := List.mem_cons.mp h
        · exact ha
        · exact hattrs a h
    rw [List.cons_append, htmlAttr_text_of_ne hb hvalid hname, ih hrest]
    by_cases hend : ascii '>' ∈ b.value
    · rw [if_pos hend, if_neg fun h => h b List.mem_cons_self hend]
    · rw [if_neg hend]
      simp only [List.forall_mem_cons, hend, not_false_eq_true, true_and]

end Attributes

end AuroraOS.Html
