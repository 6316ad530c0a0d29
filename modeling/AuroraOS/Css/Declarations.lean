import AuroraOS.Css.Model

/-!
# Declaration blocks

`css_parse_declarations` as a function of the text that is still to be read.

## Main definitions

- `cssDeclTurn` — one turn of its loop
- `cssDeclarations` — the whole loop

## Main results

- `cssParseDeclarations_eq` — the parser reads inside its part of the text, and ends
-/

namespace AuroraOS.Css

open Lib

section Turns

/-- The value behind a colon, and the text behind the value. -/
def cssTakeValue (l : List UInt8) : List UInt8 × List UInt8 :=
  takeInto cssInValue some (cssValueMax - 1) (l.dropWhile cssIsSpace) []

/-- A declaration, applied. -/
def cssApply (decl : CssDeclared) (prop value : List UInt8) : CssDeclared :=
  if prop.length > 0 then cssApplyProperty decl (cString prop) (cString (cssTrimRight value))
  else decl

/-- The declaration at the start of a text, and the text that is left. -/
def cssDeclAt (decl : CssDeclared) (l : List UInt8) : CssDeclared × List UInt8 :=
  let name := takeInto cssInName cssKeep (cssSelectorNameMax - 1) l []
  match name.2.dropWhile cssInName with
  | [] => (decl, [])
  | c :: l =>
    if c = ascii ':' then (cssApply decl name.1 (cssTakeValue l).1, (cssTakeValue l).2)
    else (decl, (c :: l).dropWhile cssInValue)

/-- One turn of the loop of `css_parse_declarations`. -/
def cssDeclTurn (decl : CssDeclared) (l : List UInt8) : CssDeclared × List UInt8 :=
  match l.dropWhile cssIsGap with
  | [] => (decl, [])
  | c :: l => cssDeclAt decl (c :: l)

theorem length_cssTakeValue_le (l : List UInt8) : (cssTakeValue l).2.length ≤ l.length :=
  (length_takeInto_rest_le _ _).trans (length_dropWhile_le _ _)

/-- A declaration that starts with a character other than a semicolon is read on. -/
theorem length_cssDeclAt_lt (decl : CssDeclared) {c : UInt8} {l : List UInt8} (hc : c ≠ ascii ';') :
    (cssDeclAt decl (c :: l)).2.length < (c :: l).length := by
  generalize hname : takeInto cssInName cssKeep (cssSelectorNameMax - 1) (c :: l) [] = name
  have hrest := length_dropWhile_le cssInName name.2
  rw [cssDeclAt, hname]
  cases hdrop : name.2.dropWhile cssInName with
  | nil => exact Nat.succ_pos _
  | cons d l' =>
    rw [hdrop, List.length_cons] at hrest
    have hle := length_cssTakeValue_le l'
    have hskip := length_dropWhile_le cssInValue (d :: l')
    have hname_le : name.2.length ≤ (c :: l).length := by
      rw [← hname]
      exact length_takeInto_rest_le _ _
    dsimp only
    split_ifs with hd
    · dsimp only
      omega
    · -- the name is not empty, since it does not end at a colon right away
      have hin : cssInName c = true := by
        by_contra hin
        have hstop : name.2 = c :: l := by
          rw [← hname, takeInto, if_neg fun h => hin h.1]
        rw [hstop, List.dropWhile_cons, if_neg hin] at hdrop
        rw [cssInName, Bool.not_eq_true, decide_eq_false_iff_not, not_and_or] at hin
        obtain hcolon | hsemi := hin
        · exact hd ((List.cons.inj hdrop).1 ▸ not_not.mp hcolon)
        · exact hsemi hc
      have hlt : name.2.length < (c :: l).length := by
        rw [← hname]
        exact length_takeInto_rest_lt hin (by decide)
      rw [List.length_cons] at hskip
      dsimp only
      omega

/-- Every turn reads on. -/
theorem length_cssDeclTurn_lt (decl : CssDeclared) {l : List UInt8} (hl : l ≠ []) :
    (cssDeclTurn decl l).2.length < l.length := by
  rw [cssDeclTurn]
  have hle := length_dropWhile_le cssIsGap l
  cases hdrop : l.dropWhile cssIsGap with
  | nil => exact List.length_pos_iff.mpr hl
  | cons c l' =>
    have hc := not_of_dropWhile_eq_cons hdrop
    rw [cssIsGap, Bool.or_eq_false_iff, beq_eq_false_iff_ne] at hc
    rw [hdrop] at hle
    exact (length_cssDeclAt_lt decl hc.2).trans_le hle

/-- The loop of `css_parse_declarations` on the text that is left. -/
def cssDeclarations (decl : CssDeclared) (l : List UInt8) : CssDeclared :=
  if _h : l = [] then decl else cssDeclarations (cssDeclTurn decl l).1 (cssDeclTurn decl l).2
termination_by l.length
decreasing_by exact length_cssDeclTurn_lt decl _h

end Turns

section Reading

variable {s l : List UInt8} {i e fuel : ℕ}

/-- A declaration block is read inside of its text, and to its end. -/
theorem cssParseDeclarations_eq (h : Between s i e l) (hfuel : l.length < fuel)
    (decl : CssDeclared) :
    cssParseDeclarations s e fuel i decl = some (cssDeclarations decl l) := by
  induction fuel generalizing i l decl with
  | zero => exact absurd hfuel (Nat.not_lt_zero _)
  | succ fuel ih =>
    rw [cssParseDeclarations, cssDeclarations]
    cases l with
    | nil => rw [if_neg h.not_lt, dif_pos rfl]
    | cons c l =>
      obtain ⟨j₁, hgap, hb₁⟩ := h.scanWhile cssIsGap
      rw [if_pos h.lt, hgap, Option.bind_eq_bind, Option.bind_some, dif_neg (List.cons_ne_nil c l)]
      have hlt := length_cssDeclTurn_lt decl (List.cons_ne_nil c l)
      rw [cssDeclTurn] at hlt ⊢
      cases hdrop : (c :: l).dropWhile cssIsGap with
      | nil =>
        rw [hdrop] at hb₁
        rw [if_pos (Nat.le_of_not_lt hb₁.not_lt), cssDeclarations, dif_pos rfl]
      | cons d l' =>
        rw [hdrop] at hb₁ hlt
        rw [if_neg (Nat.not_le.mpr hb₁.lt)]
        obtain ⟨j₂, hname, hb₂⟩ := hb₁.scanInto cssInName cssKeep (cssSelectorNameMax - 1) []
        obtain ⟨j₃, hskip, hb₃⟩ := hb₂.scanWhile cssInName
        dsimp only at hlt ⊢
        rw [cssDeclAt] at hlt ⊢
        rw [hname]
        generalize takeInto cssInName cssKeep (cssSelectorNameMax - 1) (d :: l') [] = name at *
        simp only [Option.bind_eq_bind, Option.bind_some]
        rw [hskip, Option.bind_some]
        cases hname' : name.2.dropWhile cssInName with
        | nil =>
          rw [hname'] at hb₃
          obtain ⟨j₄, hskip', hb₄⟩ := hb₃.scanWhile cssInValue
          rw [hb₃.scanAt_nil, Option.bind_some, if_pos Bool.not_false, hskip', Option.bind_some]
          exact ih hb₄ (Nat.zero_lt_of_lt (Nat.lt_of_succ_lt_succ hfuel)) decl
        | cons b l₃ =>
          rw [hname'] at hb₃ hlt
          rw [hb₃.scanAt_cons, Option.bind_some]
          dsimp only at hlt ⊢
          by_cases hcolon : b = ascii ':'
          · rw [if_pos hcolon] at hlt ⊢
            obtain ⟨j₄, hspace, hb₄⟩ := hb₃.uncons.2.scanWhile cssIsSpace
            obtain ⟨j₅, hvalue, hb₅⟩ := hb₄.scanInto cssInValue some (cssValueMax - 1) []
            rw [if_neg (by rw [hcolon]; decide), hspace, Option.bind_some, hvalue]
            exact ih hb₅ (hlt.trans_le (Nat.le_of_lt_succ hfuel)) _
          · rw [if_neg hcolon] at hlt ⊢
            obtain ⟨j₄, hskip', hb₄⟩ := hb₃.scanWhile cssInValue
            rw [if_pos (by rw [beq_eq_false_iff_ne.mpr hcolon]; rfl), hskip', Option.bind_some]
            exact ih hb₄ (hlt.trans_le (Nat.le_of_lt_succ hfuel)) decl

end Reading

end AuroraOS.Css
