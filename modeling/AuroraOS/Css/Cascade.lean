import AuroraOS.Css.Stylesheet
import Mathlib.Data.List.MinMax
import Mathlib.Data.Prod.Lex
import Mathlib.Data.Int.ConditionallyCompleteOrder

/-!
# The cascade

The single pass of `css_resolve_style` over the rules, with its running maxima, against the cascade
as it is meant: every property is looked up on its own.

## Main definitions

- `CssSheet.Parsed` — the sheets that the parser builds
- `CssRule.Selects` — what a selector means
- `CssRule.rank` — the specificity, then the source order
- `CssSheet.Wins`, `CssSheet.Cascaded` — the value of a property

## Main results

- `CssRule.matches_iff`
- `cssResolveStyle_cascaded`
-/

namespace AuroraOS.Css

open Lib

section Sheets

variable {css : List UInt8} {fuel i j : ℕ} {sheet sheet' : CssSheet}

theorem cssParseRule_extends (hcount : sheet.ruleCount ≤ cssSheetMaxRules)
    (h : cssParseRule css fuel i sheet = some (j, sheet')) : sheet.Extends sheet' := by
  obtain ⟨⟨selectors, i₁, malformed⟩, hgroup, h⟩ := Option.bind_eq_some_iff.mp h
  have hfits := cssSelectorGroup_fits hgroup fun _ hmem => absurd hmem List.not_mem_nil
  dsimp only at h
  split_ifs at h
  · obtain ⟨i₂, -, h⟩ := Option.bind_eq_some_iff.mp h
    obtain ⟨-, rfl⟩ := Prod.mk.inj (Option.some.inj h)
    exact .refl hcount
  · obtain ⟨i₂, -, h⟩ := Option.bind_eq_some_iff.mp h
    obtain ⟨brace, -, h⟩ := Option.bind_eq_some_iff.mp h
    split_ifs at h
    · obtain ⟨i₃, -, h⟩ := Option.bind_eq_some_iff.mp h
      obtain ⟨-, rfl⟩ := Prod.mk.inj (Option.some.inj h)
      exact .refl hcount
    · obtain ⟨declEnd, -, h⟩ := Option.bind_eq_some_iff.mp h
      obtain ⟨decl, -, h⟩ := Option.bind_eq_some_iff.mp h
      obtain ⟨sheet₁, hadd, h⟩ := Option.bind_eq_some_iff.mp h
      obtain ⟨-, rfl⟩ := Prod.mk.inj (Option.some.inj h)
      obtain ⟨sheet₂, hadd', hext⟩ := cssAddRules_extends decl hfits hcount
      rw [hadd] at hadd'
      obtain rfl := Option.some.inj hadd'
      exact hext

/-- Where the parser ends, it has added rules. -/
theorem cssParseFrom_extends (hcount : sheet.ruleCount ≤ cssSheetMaxRules)
    (h : cssParseFrom css fuel i sheet = some sheet') : sheet.Extends sheet' := by
  induction fuel generalizing i sheet with
  | zero => exact absurd h (Option.some_ne_none _).symm
  | succ fuel ih =>
    rw [cssParseFrom] at h
    split_ifs at h
    · obtain ⟨i₁, -, h⟩ := Option.bind_eq_some_iff.mp h
      split_ifs at h
      · obtain rfl := Option.some.inj h
        exact .refl hcount
      · obtain ⟨comment, -, h⟩ := Option.bind_eq_some_iff.mp h
        split_ifs at h
        · obtain ⟨i₂, -, h⟩ := Option.bind_eq_some_iff.mp h
          exact ih hcount h
        · obtain ⟨⟨i₂, sheet₁⟩, hrule, h⟩ := Option.bind_eq_some_iff.mp h
          have hext := cssParseRule_extends hcount hrule
          exact hext.trans (ih hext.count_le h)
    · obtain rfl := Option.some.inj h
      exact .refl hcount

/-- The sheets that calls of `css_parse_stylesheet` build up from a cleared one. -/
inductive CssSheet.Parsed : CssSheet → Prop
  | empty : Parsed .empty
  | parse {sheet sheet' : CssSheet} {css : List UInt8} {fuel : ℕ} :
    Parsed sheet → cssParseStylesheet css fuel sheet = some sheet' → Parsed sheet'

theorem CssSheet.Parsed.extends_empty (h : sheet.Parsed) : CssSheet.empty.Extends sheet := by
  induction h with
  | empty => exact .refl (Nat.zero_le _)
  | parse _ hparse ih => exact ih.trans (cssParseFrom_extends ih.count_le hparse)

theorem CssSheet.getElem?_used {k : ℕ} {rule : CssRule} (h : sheet.used[k]? = some rule) :
    k < sheet.ruleCount ∧ sheet.rules[k]? = some rule := by
  rw [CssSheet.used, List.getElem?_take] at h
  split_ifs at h with hk
  exact ⟨hk, by rwa [Vector.getElem?_toList] at h⟩

/-- The source order of a rule is its place in the sheet. -/
theorem CssSheet.Parsed.sourceOrder_eq {k : ℕ} {rule : CssRule} (h : sheet.Parsed)
    (hget : sheet.used[k]? = some rule) : rule.sourceOrder = k :=
  have hrule := CssSheet.getElem?_used hget
  h.extends_empty.order k rule (Nat.zero_le _) hrule.1 hrule.2

/-- No two rules of a sheet have one source order. -/
theorem CssSheet.Parsed.eq_of_sourceOrder {rule rule' : CssRule} (h : sheet.Parsed)
    (hmem : rule ∈ sheet.used) (hmem' : rule' ∈ sheet.used)
    (horder : rule.sourceOrder = rule'.sourceOrder) : rule = rule' := by
  obtain ⟨k, hget⟩ := List.mem_iff_getElem?.mp hmem
  obtain ⟨k', hget'⟩ := List.mem_iff_getElem?.mp hmem'
  rw [h.sourceOrder_eq hget, h.sourceOrder_eq hget'] at horder
  obtain rfl := Int.ofNat_inj.mp horder
  rw [hget] at hget'
  exact Option.some.inj hget'

end Sheets

section Selectors

variable {name p : List UInt8} {fuel : ℕ}

/-- A tag and an id are named as they are, and a class is one of the words of the list. -/
def CssRule.Selects (rule : CssRule) (tag id classes : Option (List UInt8)) : Prop :=
  match rule.selectorKind with
  | .selTag => tag = some rule.selectorName.str
  | .selId => id = some rule.selectorName.str
  | .selClass => ∃ p, classes = some p ∧ rule.selectorName.str ≠ [] ∧
      rule.selectorName.str ∈ p.splitOn (ascii ' ')

theorem splitOn_space (p : List UInt8) :
    (ascii ' ' :: p).splitOn (ascii ' ') = [] :: p.splitOn (ascii ' ') := by
  rw [List.splitOn_cons_eq_if_modifyHead, if_pos (beq_self_eq_true (ascii ' '))]

/-- The words of a list, with the first one in front. -/
theorem mem_splitOn_takeWhile (hname : name ≠ []) (p : List UInt8) :
    name ∈ p.splitOn (ascii ' ') ↔ name = p.takeWhile (· ≠ ascii ' ') ∨
      name ∈ (p.dropWhile (· ≠ ascii ' ')).splitOn (ascii ' ') := by
  have hword : ascii ' ' ∉ p.takeWhile (· ≠ ascii ' ') := fun hmem =>
    absurd (List.mem_takeWhile_imp hmem) (by decide)
  have happend := List.takeWhile_append_dropWhile (p := fun c => decide (c ≠ ascii ' ')) (l := p)
  cases hdrop : p.dropWhile (· ≠ ascii ' ') with
  | nil =>
    rw [hdrop, List.append_nil] at happend
    rw [happend] at hword ⊢
    rw [List.splitOn_eq_singleton hword, List.splitOn_nil, List.mem_singleton, List.mem_singleton]
    exact ⟨Or.inl, fun h => h.resolve_right hname⟩
  | cons c rest =>
    have hstop := @not_of_dropWhile_eq_cons _ (fun c => decide (c ≠ ascii ' ')) _ _ _ hdrop
    have hc : c = ascii ' ' := not_not.mp (of_decide_eq_false hstop)
    rw [hdrop, hc] at happend
    conv_lhs => rw [← happend]
    rw [List.splitOn_append_cons_self_of_not_mem hword, hc, splitOn_space, List.mem_cons,
      List.mem_cons]
    exact or_congr_right ⟨Or.inr, fun h => h.resolve_left hname⟩

theorem mem_splitOn_dropWhile (hname : name ≠ []) (p : List UInt8) :
    name ∈ p.splitOn (ascii ' ') ↔ name ∈ (p.dropWhile (· = ascii ' ')).splitOn (ascii ' ') := by
  induction p with
  | nil => rfl
  | cons c p ih =>
    rw [List.dropWhile_cons]
    split_ifs with hc
    · rw [of_decide_eq_true hc, splitOn_space, List.mem_cons, or_iff_right hname, ih]
    · rfl

/-- A turn of the loop over the class names reads on. -/
theorem length_word_lt (c : UInt8) (p : List UInt8) :
    (((c :: p).dropWhile (· = ascii ' ')).dropWhile (· ≠ ascii ' ')).length ≤ p.length := by
  rw [List.dropWhile_cons]
  split_ifs with hc
  · exact (length_dropWhile_le _ _).trans (length_dropWhile_le _ _)
  · rw [List.dropWhile_cons, if_pos]
    · exact length_dropWhile_le _ _
    · exact decide_eq_true fun heq => hc (decide_eq_true heq)

/-- A turn of the loop over the class names. -/
theorem cssHasClass_succ (hp : p ≠ []) : cssHasClass name (fuel + 1) p =
    let rest := p.dropWhile (· = ascii ' ')
    let word := rest.takeWhile (· ≠ ascii ' ')
    if word.length = name.length ∧ word.length > 0 ∧ word = name then true
    else cssHasClass name fuel (rest.dropWhile (· ≠ ascii ' ')) := by
  rw [cssHasClass]
  swap
  · exact hp
  dsimp only
  generalize p.dropWhile (· = ascii ' ') = rest
  congr 2
  have happend :=
    List.takeWhile_append_dropWhile (p := fun c => decide (c ≠ ascii ' ')) (l := rest)
  generalize rest.takeWhile (· ≠ ascii ' ') = word at happend ⊢
  generalize rest.dropWhile (· ≠ ascii ' ') = after at happend ⊢
  rw [← happend, List.drop_left]

/-- The loop over the class names looks at every word. -/
theorem cssHasClass_iff (hfuel : p.length ≤ fuel) :
    cssHasClass name fuel p = true ↔ name ≠ [] ∧ name ∈ p.splitOn (ascii ' ') := by
  induction fuel generalizing p with
  | zero =>
    obtain rfl := List.length_eq_zero_iff.mp (Nat.le_zero.mp hfuel)
    rw [List.splitOn_nil, List.mem_singleton]
    exact ⟨fun h => absurd h Bool.false_ne_true, fun h => absurd h.2 h.1⟩
  | succ fuel ih =>
    cases p with
    | nil =>
      rw [List.splitOn_nil, List.mem_singleton]
      exact ⟨fun h => absurd h Bool.false_ne_true, fun h => absurd h.2 h.1⟩
    | cons c p =>
      have hlen := (length_word_lt c p).trans (Nat.le_of_succ_le_succ hfuel)
      have hfirst := fun hname => @mem_splitOn_dropWhile name hname (c :: p)
      rw [cssHasClass_succ (List.cons_ne_nil c p)]
      generalize (c :: p).dropWhile (· = ascii ' ') = rest at hlen hfirst
      dsimp only
      split_ifs with hfound
      · obtain ⟨-, hpos, rfl⟩ := hfound
        have hname := List.length_pos_iff.mp hpos
        refine ⟨fun _ => ⟨hname, (hfirst hname).mpr ?_⟩, fun _ => rfl⟩
        exact (mem_splitOn_takeWhile hname rest).mpr (Or.inl rfl)
      · rw [ih hlen]
        refine and_congr_right fun hname => ?_
        rw [hfirst hname, mem_splitOn_takeWhile hname rest, or_iff_right]
        rintro rfl
        exact hfound ⟨rfl, List.length_pos_iff.mpr hname, rfl⟩

theorem CssRule.matches_iff (rule : CssRule) (tag id classes : Option (List UInt8)) :
    rule.matches tag id classes = true ↔ rule.Selects tag id classes := by
  rw [CssRule.matches, CssRule.Selects]
  cases rule.selectorKind with
  | selTag => exact beq_iff_eq
  | selId => exact beq_iff_eq
  | selClass =>
    rw [Option.any_eq_true]
    exact exists_congr fun p => and_congr_right fun _ => cssHasClass_iff (Nat.le_refl _)

end Selectors

section Maxima

variable {α : Type} {tag id classes : Option (List UInt8)} {prop : CssDeclared → Option α}
  {sheet : CssSheet} {rule : CssRule}

/-- What the cascade compares: the specificity, then the source order. -/
def CssRule.rank (rule : CssRule) : ℤ ×ₗ ℤ :=
  toLex (cssSpecificity rule.selectorKind, rule.sourceOrder)

/-- The rule that the value of a property is taken from. -/
structure CssSheet.Wins (sheet : CssSheet) (tag id classes : Option (List UInt8))
    (prop : CssDeclared → Option α) (rule : CssRule) : Prop where
  mem : rule ∈ sheet.used
  selects : rule.Selects tag id classes
  declares : (prop rule.decl).isSome
  greatest : ∀ other ∈ sheet.used, other.Selects tag id classes → (prop other.decl).isSome →
    other ≠ rule → other.rank < rule.rank

/-- The value of a property, as the cascade is meant. -/
structure CssSheet.Cascaded (sheet : CssSheet) (tag id classes : Option (List UInt8))
    (inlineDecl : Option CssDeclared) (prop : CssDeclared → Option α)
    (result : Option α) : Prop where
  value : ∀ v, result = some v ↔ inlineDecl.bind prop = some v ∨ inlineDecl.bind prop = none ∧
    ∃ rule, sheet.Wins tag id classes prop rule ∧ prop rule.decl = some v
  absent : result = none ↔ inlineDecl.bind prop = none ∧
    ∀ rule ∈ sheet.used, rule.Selects tag id classes → prop rule.decl = none

/-- The rules that match and declare the property. -/
def cssDeclaring (tag id classes : Option (List UInt8)) (prop : CssDeclared → Option α)
    (rules : List CssRule) : List CssRule :=
  rules.filter fun rule => rule.matches tag id classes && (prop rule.decl).isSome

/-- A property of `out`, by the rule that it is taken from. -/
def CssBest.of (prop : CssDeclared → Option α) : Option CssRule → CssBest α
  | none => ⟨none, -1, -1⟩
  | some rule => ⟨prop rule.decl, cssSpecificity rule.selectorKind, rule.sourceOrder⟩

/-- One turn of the loop over the rules, for one property. -/
def CssBest.step (tag id classes : Option (List UInt8)) (prop : CssDeclared → Option α)
    (best : CssBest α) (rule : CssRule) : CssBest α :=
  if rule.matches tag id classes then
    best.offer (prop rule.decl) (cssSpecificity rule.selectorKind) rule.sourceOrder
  else best

theorem cssSpecificity_pos (kind : CssSelectorKind) : 0 < cssSpecificity kind := by
  cases kind <;> decide

theorem CssRule.rank_lt_iff (rule other : CssRule) : rule.rank < other.rank ↔
    cssSpecificity rule.selectorKind < cssSpecificity other.selectorKind ∨
      cssSpecificity rule.selectorKind = cssSpecificity other.selectorKind ∧
        rule.sourceOrder < other.sourceOrder := Prod.Lex.toLex_lt_toLex

/-- An offer is accepted if its rank is greater. -/
theorem CssBest.offer_of (best : Option CssRule) (hdecl : (prop rule.decl).isSome) :
    (CssBest.of prop best).offer (prop rule.decl) (cssSpecificity rule.selectorKind)
      rule.sourceOrder =
    .of prop (Option.casesOn best (some rule) fun c =>
      if c.rank < rule.rank then some rule else some c) := by
  cases best with
  | none =>
    have hpos := cssSpecificity_pos rule.selectorKind
    exact if_pos ⟨hdecl, Or.inl (by show -1 < _; omega)⟩
  | some c =>
    have hlt : c.rank < rule.rank ↔ (prop rule.decl).isSome ∧
        (cssSpecificity rule.selectorKind > cssSpecificity c.selectorKind ∨
          cssSpecificity rule.selectorKind = cssSpecificity c.selectorKind ∧
            rule.sourceOrder > c.sourceOrder) := by
      rw [CssRule.rank_lt_iff, and_iff_right hdecl, eq_comm]
    show _ = CssBest.of prop (if c.rank < rule.rank then some rule else some c)
    by_cases haccept : c.rank < rule.rank
    · rw [if_pos haccept]
      exact if_pos (hlt.mp haccept)
    · rw [if_neg haccept]
      exact if_neg (hlt.not.mp haccept)

/-- The loop keeps the greatest of the rules that it has seen. -/
theorem CssBest.foldl_step (rules : List CssRule) :
    rules.foldl (CssBest.step tag id classes prop) (.of prop none) =
      .of prop ((cssDeclaring tag id classes prop rules).argmax CssRule.rank) := by
  induction rules using List.reverseRecOn with
  | nil => rfl
  | append_singleton rules rule ih =>
    rw [List.foldl_append, ih, List.foldl_cons, List.foldl_nil, CssBest.step, cssDeclaring,
      cssDeclaring, List.filter_append, List.filter_singleton]
    by_cases hmatch : rule.matches tag id classes = true
    · rw [if_pos hmatch, hmatch, Bool.true_and]
      cases hdecl : (prop rule.decl).isSome with
      | true =>
        rw [cond_true, List.argmax_concat]
        exact CssBest.offer_of _ hdecl
      | false =>
        rw [cond_false, List.append_nil, CssBest.offer, if_neg]
        exact fun h => absurd (hdecl.symm.trans h.1) Bool.false_ne_true
    · rw [if_neg hmatch, Bool.eq_false_of_not_eq_true hmatch, Bool.false_and, cond_false,
        List.append_nil]

/-- The four properties are merged one by one. -/
theorem CssOut.foldl_step (rules : List CssRule) (out : CssOut) :
    rules.foldl (CssOut.step tag id classes) out =
      ⟨rules.foldl (CssBest.step tag id classes CssDeclared.color) out.color,
        rules.foldl (CssBest.step tag id classes CssDeclared.background) out.background,
        rules.foldl (CssBest.step tag id classes CssDeclared.bold) out.bold,
        rules.foldl (CssBest.step tag id classes CssDeclared.align) out.align⟩ := by
  induction rules generalizing out with
  | nil => rfl
  | cons rule rules ih =>
    simp only [List.foldl_cons]
    rw [ih, CssOut.step]
    simp only [CssBest.step]
    split_ifs <;> rfl

theorem mem_cssDeclaring : rule ∈ cssDeclaring tag id classes prop sheet.used ↔
    rule ∈ sheet.used ∧ rule.Selects tag id classes ∧ (prop rule.decl).isSome := by
  rw [cssDeclaring, List.mem_filter, Bool.and_eq_true, CssRule.matches_iff]

/-- The rule that wins is the one that the loop keeps. -/
theorem CssSheet.Parsed.wins_iff (h : sheet.Parsed) : sheet.Wins tag id classes prop rule ↔
    (cssDeclaring tag id classes prop sheet.used).argmax CssRule.rank = some rule := by
  constructor
  · intro hwins
    have hmem := mem_cssDeclaring.mpr ⟨hwins.mem, hwins.selects, hwins.declares⟩
    cases hbest : (cssDeclaring tag id classes prop sheet.used).argmax CssRule.rank with
    | none =>
      rw [List.argmax_eq_none.mp hbest] at hmem
      exact absurd hmem List.not_mem_nil
    | some best =>
      obtain ⟨hbest_mem, hselects, hdecl⟩ := mem_cssDeclaring.mp (List.argmax_mem hbest)
      by_contra hne
      have hlt := hwins.greatest best hbest_mem hselects hdecl fun heq => hne (heq ▸ rfl)
      exact absurd hlt (not_lt.mpr (List.le_of_mem_argmax hmem hbest))
  · intro hbest
    obtain ⟨hmem, hselects, hdecl⟩ := mem_cssDeclaring.mp (List.argmax_mem hbest)
    refine ⟨hmem, hselects, hdecl, fun other hother hselects' hdecl' hne => ?_⟩
    have hle := List.le_of_mem_argmax (mem_cssDeclaring.mpr ⟨hother, hselects', hdecl'⟩) hbest
    refine lt_of_le_of_ne hle fun heq => hne (h.eq_of_sourceOrder hother hmem ?_)
    exact (Prod.mk.inj (toLex.injective heq)).2

/-- The cascade of one property: the inline declaration, then the best rule. -/
theorem CssSheet.Parsed.cascaded (h : sheet.Parsed) (tag id classes : Option (List UInt8))
    (inlineDecl : Option CssDeclared) (prop : CssDeclared → Option α) :
    sheet.Cascaded tag id classes inlineDecl prop (inlineDecl.bind prop <|>
      (CssBest.of prop
        ((cssDeclaring tag id classes prop sheet.used).argmax CssRule.rank)).value) := by
  cases hinline : inlineDecl.bind prop with
  | some w =>
    refine ⟨fun v => ?_, ?_⟩
    · rw [hinline]
      exact ⟨Or.inl, fun h => h.resolve_right fun h => absurd h.1 (Option.some_ne_none w)⟩
    · rw [hinline]
      exact ⟨fun h => absurd h (Option.some_ne_none w), fun h => absurd h.1 (Option.some_ne_none w)⟩
  | none =>
    show sheet.Cascaded tag id classes inlineDecl prop (CssBest.of prop _).value
    cases hbest : (cssDeclaring tag id classes prop sheet.used).argmax CssRule.rank with
    | none =>
      have hnone : ∀ rule ∈ sheet.used, rule.Selects tag id classes → prop rule.decl = none := by
        intro rule hmem hselects
        by_contra hdecl
        have hmem' := mem_cssDeclaring.mpr ⟨hmem, hselects, Option.isSome_iff_ne_none.mpr hdecl⟩
        rw [List.argmax_eq_none.mp hbest] at hmem'
        exact absurd hmem' List.not_mem_nil
      refine ⟨fun v => ⟨fun hv => absurd hv (Option.some_ne_none v).symm, ?_⟩,
        fun _ => ⟨hinline, hnone⟩, fun _ => rfl⟩
      rintro (hv | ⟨-, rule, hwins, -⟩)
      · rw [hinline] at hv
        exact absurd hv (Option.some_ne_none v).symm
      · rw [h.wins_iff, hbest] at hwins
        exact absurd hwins (Option.some_ne_none rule).symm
    | some best =>
      have hwins := h.wins_iff.mpr hbest
      refine ⟨fun v => ⟨fun hv => Or.inr ⟨hinline, best, hwins, hv⟩, ?_⟩, fun hnone => ?_,
        fun hnone => ?_⟩
      · rintro (hv | ⟨-, rule, hwins', hv⟩)
        · rw [hinline] at hv
          exact absurd hv (Option.some_ne_none v).symm
        · rw [h.wins_iff, hbest] at hwins'
          exact Option.some.inj hwins' ▸ hv
      · have hdecl := hwins.declares
        rw [show prop best.decl = none from hnone] at hdecl
        exact absurd hdecl Bool.false_ne_true
      · exact hnone.2 best hwins.mem hwins.selects

end Maxima

/-- Every property is the inline one if there is one, and else that of the matching rule with the
    greatest specificity, or of the last one of these. -/
theorem cssResolveStyle_cascaded {sheet : CssSheet} (h : sheet.Parsed)
    (tag id classes : Option (List UInt8)) (inlineDecl : Option CssDeclared) :
    let style := cssResolveStyle sheet tag id classes inlineDecl
    sheet.Cascaded tag id classes inlineDecl CssDeclared.color style.color ∧
      sheet.Cascaded tag id classes inlineDecl CssDeclared.background style.background ∧
      sheet.Cascaded tag id classes inlineDecl CssDeclared.bold style.bold ∧
      sheet.Cascaded tag id classes inlineDecl CssDeclared.align style.align := by
  have hstyle : cssResolveStyle sheet tag id classes inlineDecl =
      ⟨inlineDecl.bind CssDeclared.color <|> (sheet.used.foldl
          (CssBest.step tag id classes CssDeclared.color) (.of CssDeclared.color none)).value,
        inlineDecl.bind CssDeclared.background <|> (sheet.used.foldl
          (CssBest.step tag id classes CssDeclared.background)
            (.of CssDeclared.background none)).value,
        inlineDecl.bind CssDeclared.bold <|> (sheet.used.foldl
          (CssBest.step tag id classes CssDeclared.bold) (.of CssDeclared.bold none)).value,
        inlineDecl.bind CssDeclared.align <|> (sheet.used.foldl
          (CssBest.step tag id classes CssDeclared.align) (.of CssDeclared.align none)).value⟩ := by
    have hout := @CssOut.foldl_step tag id classes sheet.used .start
    cases inlineDecl with
    | none =>
      rw [cssResolveStyle]
      simp only [hout]
      rfl
    | some decl =>
      rw [cssResolveStyle]
      simp only [hout]
      rfl
  rw [hstyle]
  simp only [CssBest.foldl_step]
  exact ⟨h.cascaded tag id classes inlineDecl _, h.cascaded tag id classes inlineDecl _,
    h.cascaded tag id classes inlineDecl _, h.cascaded tag id classes inlineDecl _⟩

/-- A tag and a class that declare one colour, below an inline alignment. -/
theorem cssResolveStyle_cascaded_class :
    ∃ sheet, cssParseStylesheet (chars ".a{color:red}p{color:blue}") 40 .empty = some sheet ∧
      let inlineDecl : CssDeclared := { CssDeclared.empty with align := some 1 }
      let style := cssResolveStyle sheet (chars "p") none (chars "b a") inlineDecl
      sheet.Cascaded (chars "p") none (chars "b a") inlineDecl CssDeclared.color style.color ∧
        sheet.Cascaded (chars "p") none (chars "b a") inlineDecl CssDeclared.background
          style.background ∧
        sheet.Cascaded (chars "p") none (chars "b a") inlineDecl CssDeclared.bold style.bold ∧
        sheet.Cascaded (chars "p") none (chars "b a") inlineDecl CssDeclared.align style.align := by
  obtain ⟨sheet, hparse, -⟩ := @cssParseFrom_total (chars ".a{color:red}p{color:blue}") 0 40 .empty
    (.of_lt (by decide)) (by decide) (by decide)
  exact ⟨sheet, hparse, cssResolveStyle_cascaded (.parse .empty hparse) _ _ _ _⟩

end AuroraOS.Css
