import AuroraOS.Css.Declarations

/-!
# The pieces of a declaration block

A declaration block is meant as the pieces between its semicolons, each with a property in front of
its first colon and a value behind it. `css_parse_declarations` reads them with a field of 31
characters for either. It takes blanks out of the name of a property, and goes on with what is left
of a long value as if a semicolon stood there.

## Main definitions

- `cssApplyPiece`, `cssMeant` — the meaning of a piece and of a block
- `PieceFits`

## Main results

- `cssParseDeclarations_meant`
-/

namespace AuroraOS.Css

set_option maxRecDepth 4096

open Lib

/-- A text without the blanks around it. -/
def cssTrim (text : List UInt8) : List UInt8 := cssTrimRight (text.dropWhile cssIsSpace)

/-- The property of a piece, in front of its first colon. -/
def pieceName (piece : List UInt8) : List UInt8 := cssTrim (piece.takeWhile (· ≠ ascii ':'))

/-- What is behind the first colon. -/
def pieceValue (piece : List UInt8) : List UInt8 := (piece.dropWhile (· ≠ ascii ':')).tail

/-- The meaning of a piece of a declaration block. -/
def cssApplyPiece (decl : CssDeclared) (piece : List UInt8) : CssDeclared :=
  if ascii ':' ∈ piece then
    cssApplyProperty decl (cString ((pieceName piece).map cssLower))
      (cString (cssTrim (pieceValue piece)))
  else decl

/-- The meaning of a declaration block. -/
def cssMeant (decl : CssDeclared) (l : List UInt8) : CssDeclared :=
  (l.splitOn (ascii ';')).foldl cssApplyPiece decl

/-- There is no blank within the name of the property, and from the 32nd character of the value on
    there are only blanks. -/
def PieceFits (piece : List UInt8) : Prop :=
  ascii ':' ∈ piece → (∀ c ∈ pieceName piece, cssIsSpace c = false) ∧
    ∀ c ∈ ((pieceValue piece).dropWhile cssIsSpace).drop (cssValueMax - 1), cssIsSpace c = true

instance (piece : List UInt8) : Decidable (PieceFits piece) :=
  inferInstanceAs (Decidable (_ → _))

section Trimming

variable {p : UInt8 → Bool} {l l' piece : List UInt8} {prop value : List UInt8} {decl : CssDeclared}

/-- What is trimmed away anyway may be cut off before. -/
theorem rdropWhile_append_of_all (hall : ∀ c ∈ l', p c = true) :
    (l ++ l').rdropWhile p = l.rdropWhile p := by
  rw [List.rdropWhile, List.reverse_append, List.dropWhile_append_of_pos, List.rdropWhile]
  exact fun c hc => hall c (List.mem_reverse.mp hc)

/-- The known properties are short. -/
theorem cssApplyProperty_long (hlong : 16 < prop.length) :
    cssApplyProperty decl prop value = decl := by
  have hne : ∀ known : List UInt8, known.length ≤ 16 → prop ≠ known := by
    rintro known hshort rfl
    exact absurd hshort (Nat.not_le.mpr hlong)
  rw [cssApplyProperty, if_neg (hne _ (by decide)), if_neg, if_neg (hne _ (by decide)),
    if_neg (hne _ (by decide))]
  exact not_or.mpr ⟨hne _ (by decide), hne _ (by decide)⟩

/-- A name that is cut off is not known, and neither is the whole name. -/
theorem cssApply_take (name : List UInt8) :
    cssApply decl (name.take (cssSelectorNameMax - 1)) value =
      cssApplyProperty decl (cString name) (cString (cssTrimRight value)) := by
  rw [cssApply]
  split_ifs with hpos
  · by_cases hshort : name.length ≤ cssSelectorNameMax - 1
    · rw [List.take_of_length_le hshort]
    have hlen : (name.take (cssSelectorNameMax - 1)).length = cssSelectorNameMax - 1 := by
      rw [List.length_take]
      omega
    conv_rhs => rw [← List.take_append_drop (cssSelectorNameMax - 1) name]
    generalize name.take (cssSelectorNameMax - 1) = cut at hlen
    generalize cString (cssTrimRight value) = value
    rw [show cString (cut ++ _) = (cut ++ _).takeWhile (· ≠ 0) from rfl, List.takeWhile_append,
      ← cString]
    split_ifs with hall
    · -- no zero character before the cut
      rw [cssApplyProperty_long, cssApplyProperty_long]
      · rw [List.length_append, hlen]
        exact Nat.lt_add_right _ (by decide)
      · rw [hall, hlen]
        decide
    · rfl
  · rw [List.length_take, Nat.not_lt, Nat.le_zero, Nat.min_eq_zero_iff] at hpos
    obtain rfl := List.length_eq_zero_iff.mp (hpos.resolve_left (by decide))
    rfl

/-- The blanks around a name are all that is not kept of it. -/
theorem filterMap_cssKeep (h : ∀ c ∈ cssTrim l, cssIsSpace c = false) :
    l.filterMap cssKeep = (cssTrim l).map cssLower := by
  have hblank : ∀ {s : List UInt8}, (∀ c ∈ s, cssIsSpace c = true) → s.filterMap cssKeep = [] :=
    fun hs => List.filterMap_eq_nil_iff.mpr fun c hc => if_pos (hs c hc)
  have hleft := List.takeWhile_append_dropWhile (p := cssIsSpace) (l := l)
  have hright := @List.rdropWhile_append_rtakeWhile _ cssIsSpace (l.dropWhile cssIsSpace)
  have hkept : ∀ {s : List UInt8}, (∀ c ∈ s, cssIsSpace c = false) →
      s.filterMap cssKeep = s.map cssLower := by
    intro s hs
    rw [← List.filterMap_eq_map]
    exact List.filterMap_congr fun c hc => if_neg (by rw [hs c hc]; decide)
  conv_lhs => rw [← hleft, ← hright]
  rw [List.filterMap_append, List.filterMap_append, hblank fun c hc => List.mem_takeWhile_imp hc,
    hblank fun c hc => List.mem_rtakeWhile_imp hc, List.nil_append, List.append_nil]
  exact hkept h

end Trimming

section Pieces

variable {l piece tail : List UInt8} {decl : CssDeclared}

theorem cssDeclarations_nil (decl : CssDeclared) : cssDeclarations decl [] = decl := by
  rw [cssDeclarations, dif_pos rfl]

theorem cssDeclarations_turn (hl : l ≠ []) :
    cssDeclarations decl l = cssDeclarations (cssDeclTurn decl l).1 (cssDeclTurn decl l).2 := by
  rw [cssDeclarations.eq_def decl l, dif_neg hl]

/-- What is skipped in front of a declaration. -/
theorem cssDeclarations_gap (decl : CssDeclared) (l : List UInt8) :
    cssDeclarations decl l = cssDeclarations decl (l.dropWhile cssIsGap) := by
  by_cases hl : l = []
  · rw [hl]
    rfl
  cases hdrop : l.dropWhile cssIsGap with
  | nil => rw [cssDeclarations_turn hl, cssDeclTurn, hdrop, cssDeclarations_nil]
  | cons c l' =>
    have hagain : (c :: l').dropWhile cssIsGap = c :: l' :=
      List.dropWhile_cons_of_neg (Bool.not_eq_true _ ▸ not_of_dropWhile_eq_cons hdrop)
    rw [cssDeclarations_turn hl, cssDeclarations_turn (List.cons_ne_nil c l'), cssDeclTurn,
      cssDeclTurn, hdrop, hagain]

/-- Blanks in front of a text. -/
theorem cssDeclarations_blank (hblank : ∀ c ∈ l, cssIsSpace c = true) :
    cssDeclarations decl (l ++ tail) = cssDeclarations decl tail := by
  have hgap : ∀ c ∈ l, cssIsGap c = true := fun c hc => by rw [cssIsGap, hblank c hc, Bool.true_or]
  rw [cssDeclarations_gap, List.dropWhile_append_of_pos hgap, ← cssDeclarations_gap]

theorem cssDeclarations_semicolon :
    cssDeclarations decl (ascii ';' :: l) = cssDeclarations decl l := by
  rw [cssDeclarations_gap, List.dropWhile_cons_of_pos (by decide), ← cssDeclarations_gap]

/-- The end, or a semicolon. -/
def AtEnd (tail : List UInt8) : Prop := tail = [] ∨ ∃ rest, tail = ascii ';' :: rest

theorem AtEnd.stop (htail : AtEnd tail) {p : UInt8 → Bool} (hp : p (ascii ';') = false) :
    tail.dropWhile p = tail := by
  obtain rfl | ⟨rest, rfl⟩ := htail
  · rfl
  · exact List.dropWhile_cons_of_neg (by rw [hp]; decide)

/-- The value of a piece. -/
theorem cssTakeValue_append (hl : ascii ';' ∉ l) (htail : AtEnd tail) :
    cssTakeValue (l ++ tail) = ((l.dropWhile cssIsSpace).take (cssValueMax - 1),
      (l.dropWhile cssIsSpace).drop (cssValueMax - 1) ++ tail) := by
  have hall : ∀ c ∈ l.dropWhile cssIsSpace, cssInValue c = true := fun c hc =>
    decide_eq_true fun heq => hl (heq ▸ (List.dropWhile_suffix _).subset hc)
  have hstop := htail.stop (p := cssInValue) (by decide)
  rw [cssTakeValue, dropWhile_append_of_stop (htail.stop (by decide))]
  refine Prod.ext ?_ ?_
  · rw [takeInto_fst (Nat.zero_le _), takeWhile_append_of_stop hall hstop, List.filterMap_some]
    rfl
  · rw [takeInto_snd fun _ => rfl, takeWhile_append_of_stop hall hstop,
      List.dropWhile_append_of_pos hall, hstop]
    rfl

/-- A declaration in front of a semicolon or the end. -/
theorem cssDeclAt_colon {name value : List UInt8} (hname : ∀ c ∈ name, cssInName c = true)
    (hvalue : ascii ';' ∉ value) (htail : AtEnd tail) (decl : CssDeclared) :
    cssDeclAt decl (name ++ ascii ':' :: (value ++ tail)) =
      (cssApply decl ((name.filterMap cssKeep).take (cssSelectorNameMax - 1))
        ((value.dropWhile cssIsSpace).take (cssValueMax - 1)),
        (value.dropWhile cssIsSpace).drop (cssValueMax - 1) ++ tail) := by
  have hcolon : (ascii ':' :: (value ++ tail)).dropWhile cssInName = ascii ':' :: (value ++ tail) :=
    List.dropWhile_cons_of_neg (by decide)
  rw [cssDeclAt, takeInto_snd_dropWhile, List.dropWhile_append_of_pos hname, hcolon]
  dsimp only
  rw [if_pos rfl, cssTakeValue_append hvalue htail, takeInto_fst (Nat.zero_le _),
    takeWhile_append_of_stop hname hcolon]
  rfl

/-- A piece without a colon is skipped. -/
theorem cssDeclAt_plain (hl : ∀ c ∈ l, cssInName c = true) (htail : AtEnd tail)
    (decl : CssDeclared) : cssDeclAt decl (l ++ tail) = (decl, tail) := by
  rw [cssDeclAt, takeInto_snd_dropWhile, List.dropWhile_append_of_pos hl, htail.stop (by decide)]
  obtain rfl | ⟨rest, rfl⟩ := htail
  · rfl
  · rfl

/-- The parts of a piece with a colon. -/
theorem pieceName_append {blanks name value : List UInt8}
    (hblanks : ∀ c ∈ blanks, cssIsSpace c = true) (hname : ascii ':' ∉ name) :
    pieceName (blanks ++ (name ++ ascii ':' :: value)) = cssTrim name ∧
      pieceValue (blanks ++ (name ++ ascii ':' :: value)) = value := by
  have hall : ∀ c ∈ blanks ++ name, decide (c ≠ ascii ':') = true := by
    intro c hc
    refine decide_eq_true ?_
    rintro rfl
    obtain hc | hc := List.mem_append.mp hc
    · exact absurd (hblanks _ hc) (by decide)
    · exact hname hc
  have hcolon : (ascii ':' :: value).dropWhile (· ≠ ascii ':') = ascii ':' :: value :=
    List.dropWhile_cons_of_neg (by decide)
  rw [← List.append_assoc]
  constructor
  · rw [pieceName, takeWhile_append_of_stop hall hcolon, cssTrim,
      List.dropWhile_append_of_pos hblanks, ← cssTrim]
  · rw [pieceValue, List.dropWhile_append_of_pos hall, hcolon, List.tail_cons]

/-- A piece in front of a semicolon or the end. -/
theorem cssDeclarations_piece (hpiece : ascii ';' ∉ piece) (hfits : PieceFits piece)
    (htail : AtEnd tail) (decl : CssDeclared) :
    cssDeclarations decl (piece ++ tail) = cssDeclarations (cssApplyPiece decl piece) tail := by
  have hblanks : ∀ c ∈ piece.takeWhile cssIsSpace, cssIsSpace c = true :=
    fun c hc => List.mem_takeWhile_imp hc
  have hsplit := List.takeWhile_append_dropWhile (p := cssIsSpace) (l := piece)
  have hcolon_iff : ascii ':' ∈ piece ↔ ascii ':' ∈ piece.dropWhile cssIsSpace := by
    conv_lhs => rw [← hsplit]
    rw [List.mem_append, or_iff_right]
    exact fun hc => absurd (hblanks _ hc) (by decide)
  have hturn : piece.dropWhile cssIsSpace ≠ [] → cssDeclarations decl (piece ++ tail) =
      cssDeclarations (cssDeclAt decl (piece.dropWhile cssIsSpace ++ tail)).1
        (cssDeclAt decl (piece.dropWhile cssIsSpace ++ tail)).2 := by
    intro hcore
    conv_lhs => rw [← hsplit]
    rw [List.append_assoc, cssDeclarations_blank hblanks]
    obtain ⟨c, core, hdrop⟩ := List.exists_cons_of_ne_nil hcore
    have hgap : ¬cssIsGap c = true := by
      rw [cssIsGap, not_of_dropWhile_eq_cons hdrop, Bool.false_or, beq_iff_eq]
      rintro rfl
      exact hpiece ((List.dropWhile_suffix _).subset (hdrop ▸ List.mem_cons_self))
    rw [hdrop, List.cons_append, cssDeclarations_turn (List.cons_ne_nil c (core ++ tail)),
      cssDeclTurn, List.dropWhile_cons_of_neg hgap]
  by_cases hcolon : ascii ':' ∈ piece
  · obtain ⟨name, value, hcore, hname⟩ := List.eq_append_cons_of_mem (hcolon_iff.mp hcolon)
    have hsemi : ascii ';' ∉ name ++ ascii ':' :: value := fun hc =>
      hpiece ((List.dropWhile_suffix _).subset (hcore ▸ hc))
    obtain ⟨hsemi_name, hsemi_value⟩ := not_or.mp (List.mem_append.not.mp hsemi)
    have hinName : ∀ c ∈ name, cssInName c = true := fun c hc =>
      decide_eq_true ⟨fun heq => hname (heq ▸ hc), fun heq => hsemi_name (heq ▸ hc)⟩
    have hsemi_value := fun hc => hsemi_value (List.mem_cons_of_mem _ hc)
    have hparts := @pieceName_append _ name value hblanks hname
    rw [← hcore, hsplit] at hparts
    obtain ⟨hblank_name, hblank_rest⟩ := hfits hcolon
    rw [hparts.1] at hblank_name
    rw [hparts.2] at hblank_rest
    have hvalue : cssTrimRight ((value.dropWhile cssIsSpace).take (cssValueMax - 1)) =
        cssTrim value := by
      have hcut := List.take_append_drop (cssValueMax - 1) (value.dropWhile cssIsSpace)
      rw [cssTrim, cssTrimRight, cssTrimRight, ← rdropWhile_append_of_all hblank_rest, hcut]
    rw [hturn (by rw [hcore]; exact List.append_ne_nil_of_right_ne_nil _ (List.cons_ne_nil _ _)),
      hcore, List.append_assoc, List.cons_append, cssDeclAt_colon hinName hsemi_value htail]
    dsimp only
    rw [cssDeclarations_blank hblank_rest, filterMap_cssKeep hblank_name, cssApply_take, hvalue,
      cssApplyPiece, if_pos hcolon, hparts.1, hparts.2]
  · rw [cssApplyPiece, if_neg hcolon]
    by_cases hcore : piece.dropWhile cssIsSpace = []
    · conv_lhs => rw [← hsplit]
      rw [hcore, List.append_nil, cssDeclarations_blank hblanks]
    · have hinName : ∀ c ∈ piece.dropWhile cssIsSpace, cssInName c = true := fun c hc =>
        decide_eq_true ⟨fun heq => hcolon_iff.not.mp hcolon (heq ▸ hc),
          fun heq => hpiece (heq ▸ (List.dropWhile_suffix _).subset hc)⟩
      rw [hturn hcore, cssDeclAt_plain hinName htail]

/-- The loop reads one piece after the other. -/
theorem cssDeclarations_meant (hfits : ∀ piece ∈ l.splitOn (ascii ';'), PieceFits piece)
    (decl : CssDeclared) : cssDeclarations decl l = cssMeant decl l := by
  induction hlen : l.length using Nat.strong_induction_on generalizing l decl with
  | _ n ih =>
    rw [cssMeant]
    by_cases hsemi : ascii ';' ∈ l
    · obtain ⟨piece, rest, rfl, hpiece⟩ := List.eq_append_cons_of_mem hsemi
      rw [List.splitOn_append_cons_self_of_not_mem hpiece] at hfits ⊢
      rw [cssDeclarations_piece hpiece (hfits _ List.mem_cons_self) (Or.inr ⟨rest, rfl⟩),
        cssDeclarations_semicolon, List.foldl_cons]
      refine ih rest.length ?_ (fun other hmem => hfits other (List.mem_cons_of_mem _ hmem)) _ rfl
      rw [← hlen, List.length_append, List.length_cons]
      omega
    · rw [List.splitOn_eq_singleton hsemi] at hfits ⊢
      have hend :=
        cssDeclarations_piece hsemi (hfits _ (List.mem_singleton_self l)) (Or.inl rfl) decl
      rwa [List.append_nil, cssDeclarations_nil] at hend

end Pieces

end AuroraOS.Css
