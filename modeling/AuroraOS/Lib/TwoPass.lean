import Mathlib.Algebra.Group.Nat.Defs
import Mathlib.Data.List.Basic

/-!
# Assembling in two passes

A program is a list of labels and instructions. The first pass writes the instructions down with a
placeholder for every reference to a label, and notes where the labels and the references are. The
second pass puts the displacements in. A linked program, where the displacements stand from the
start, is the same.

## Main definitions

- `Format` — how long an instruction is, and what it refers to
- `draft`, `labels`, `refs`, `patch` — the two passes
- `link` — a program whose addresses are known
- `Decodes` — a decoder takes a text apart, one instruction after the other

## Main results

- `patch_refs` — patching a draft links it
- `mem_labels_iff` — a label is where the instruction behind it starts
- `decodes_link`
-/

namespace AuroraOS.Lib.TwoPass

/-- What a line of a program stands for. -/
inductive Item (ν ι : Type*)
  | label (n : ν)
  | code (i : ι)

/-- The bytes of the instructions. An instruction may refer to a label, with its last byte. -/
structure Format (ν ι β : Type*) where
  bytes : ι → List β
  ref : ι → Option ν
  bytes_ne_nil : ∀ i, (ref i).isSome → bytes i ≠ []

variable {ν ι β δ : Type*} (f : Format ν ι β) (disp : ℕ → ν → β)

section Passes

/-- The bytes of an item in the first pass. -/
def Item.bytes : Item ν ι → List β
  | .label _ => []
  | .code i => f.bytes i

/-- The text after the first pass. -/
def draft (items : List (Item ν ι)) : List β := items.flatMap (Item.bytes f)

/-- The labels of a program that starts at `off`, with their addresses. -/
def labels : ℕ → List (Item ν ι) → List (ν × ℕ)
  | _, [] => []
  | off, .label n :: items => (n, off) :: labels off items
  | off, .code i :: items => labels (off + (f.bytes i).length) items

/-- The references of a program that starts at `off`, with the addresses behind them. -/
def refs : ℕ → List (Item ν ι) → List (ν × ℕ)
  | _, [] => []
  | off, .label _ :: items => refs off items
  | off, .code i :: items =>
    (f.ref i).toList.map (·, off + (f.bytes i).length) ++ refs (off + (f.bytes i).length) items

/-- The second pass: the byte in front of the address `r.2` refers to `r.1`. -/
def patch (rs : List (ν × ℕ)) (text : List β) : List β :=
  rs.foldl (fun text r => text.set (r.2 - 1) (disp r.2 r.1)) text

/-- An instruction with `next` behind it. -/
def final (next : ℕ) (i : ι) : List β :=
  match f.ref i with
  | none => f.bytes i
  | some n => (f.bytes i).dropLast ++ [disp next n]

/-- The linked text of a program that starts at `off`. -/
def link : ℕ → List (Item ν ι) → List β
  | _, [] => []
  | off, .label _ :: items => link off items
  | off, .code i :: items =>
    final f disp (off + (f.bytes i).length) i ++ link (off + (f.bytes i).length) items

end Passes

section Linking

variable {f disp}

theorem draft_cons (item : Item ν ι) (items : List (Item ν ι)) :
    draft f (item :: items) = item.bytes f ++ draft f items := List.flatMap_cons

theorem draft_append (items items' : List (Item ν ι)) :
    draft f (items ++ items') = draft f items ++ draft f items' := List.flatMap_append

theorem final_of_ref {i : ι} {n : ν} (h : f.ref i = some n) (next : ℕ) :
    final f disp next i = (f.bytes i).dropLast ++ [disp next n] := by
  rw [final, h]

theorem final_of_none {i : ι} (h : f.ref i = none) (next : ℕ) :
    final f disp next i = f.bytes i := by
  rw [final, h]

@[simp]
theorem length_final (next : ℕ) (i : ι) : (final f disp next i).length = (f.bytes i).length := by
  cases h : f.ref i with
  | none => rw [final_of_none h]
  | some n =>
    have hne := f.bytes_ne_nil i (by rw [h]; rfl)
    have hpos := List.length_pos_iff.mpr hne
    rw [final_of_ref h, List.length_append, List.length_dropLast, List.length_singleton]
    omega

@[simp]
theorem length_link (off : ℕ) (items : List (Item ν ι)) :
    (link f disp off items).length = (draft f items).length := by
  induction items generalizing off with
  | nil => rfl
  | cons item items ih =>
    cases item with
    | label n =>
      rw [link, ih, draft_cons]
      rfl
    | code i =>
      rw [link, draft_cons, List.length_append, List.length_append, ih, length_final]
      rfl

theorem link_append (off : ℕ) (items items' : List (Item ν ι)) :
    link f disp off (items ++ items') =
      link f disp off items ++ link f disp (off + (draft f items).length) items' := by
  induction items generalizing off with
  | nil => rfl
  | cons item items ih =>
    cases item with
    | label n =>
      rw [List.cons_append, link, link, ih, draft_cons]
      rfl
    | code i =>
      rw [List.cons_append, link, link, ih, draft_cons, List.append_assoc, List.length_append,
        Nat.add_assoc]
      rfl

/-- Putting a byte into the last place of what stands in the middle. -/
theorem set_dropLast {l : List β} (hne : l ≠ []) (pre post : List β) (b : β) :
    (pre ++ (l ++ post)).set (pre.length + l.length - 1) b =
      pre ++ (l.dropLast ++ [b]) ++ post := by
  have hpos := List.length_pos_iff.mpr hne
  have hsplit : pre.length + l.length - 1 = (pre ++ l.dropLast).length := by
    rw [List.length_append, List.length_dropLast]
    omega
  have hl : pre ++ (l ++ post) = (pre ++ l.dropLast) ++ l.getLast hne :: post := by
    conv_lhs => rw [← List.dropLast_append_getLast hne]
    simp only [List.append_assoc, List.singleton_append]
  rw [hsplit, hl, List.set_append_right _ _ (Nat.le_refl _), Nat.sub_self, List.set_cons_zero]
  simp only [List.append_assoc, List.singleton_append]

/-- Patching a draft links it, whatever stands before and behind it. -/
theorem patch_refs (pre post : List β) (items : List (Item ν ι)) :
    patch disp (refs f pre.length items) (pre ++ (draft f items ++ post)) =
      pre ++ (link f disp pre.length items ++ post) := by
  induction items generalizing pre with
  | nil => rfl
  | cons item items ih =>
    cases item with
    | label n => exact ih pre
    | code i =>
      -- what is already linked joins what stands before
      have hstep : patch disp (refs f (pre.length + (f.bytes i).length) items)
          (pre ++ final f disp (pre.length + (f.bytes i).length) i ++ (draft f items ++ post)) =
          pre ++ (link f disp pre.length (.code i :: items) ++ post) := by
        have hlen : (pre ++ final f disp (pre.length + (f.bytes i).length) i).length =
            pre.length + (f.bytes i).length := by rw [List.length_append, length_final]
        have := ih (pre ++ final f disp (pre.length + (f.bytes i).length) i)
        rw [hlen] at this
        rw [this, link, List.append_assoc, List.append_assoc]
      rw [refs, draft_cons, Item.bytes, List.append_assoc]
      cases h : f.ref i with
      | none =>
        rw [final_of_none h, List.append_assoc] at hstep
        exact hstep
      | some n =>
        rw [final_of_ref h] at hstep
        have hset := set_dropLast (f.bytes_ne_nil i (by rw [h]; rfl)) pre (draft f items ++ post)
          (disp (pre.length + (f.bytes i).length) n)
        rw [Option.toList_some, List.map_singleton, List.singleton_append, patch, List.foldl_cons,
          hset]
        exact hstep

end Linking

section Labels

variable {f}

/-- A label is where the instruction behind it starts. -/
theorem mem_labels_iff {off a : ℕ} {n : ν} {items : List (Item ν ι)} :
    (n, a) ∈ labels f off items ↔
      ∃ xs ys, items = xs ++ .label n :: ys ∧ a = off + (draft f xs).length := by
  induction items generalizing off with
  | nil =>
    refine iff_of_false List.not_mem_nil ?_
    rintro ⟨xs, ys, h, -⟩
    exact List.append_ne_nil_of_right_ne_nil xs (List.cons_ne_nil _ ys) h.symm
  | cons item items ih =>
    constructor
    · intro h
      cases item with
      | label m =>
        rw [labels, List.mem_cons] at h
        obtain h | h := h
        · obtain ⟨rfl, rfl⟩ := Prod.mk.inj h
          exact ⟨[], items, rfl, rfl⟩
        · obtain ⟨xs, ys, rfl, rfl⟩ := ih.mp h
          exact ⟨.label m :: xs, ys, rfl, rfl⟩
      | code i =>
        obtain ⟨xs, ys, rfl, rfl⟩ := ih.mp h
        refine ⟨.code i :: xs, ys, rfl, ?_⟩
        rw [draft_cons, List.length_append, Nat.add_assoc]
        rfl
    · rintro ⟨xs, ys, h, rfl⟩
      cases xs with
      | nil =>
        obtain ⟨rfl, rfl⟩ := List.cons.inj h
        exact List.mem_cons_self
      | cons x xs =>
        obtain ⟨rfl, rfl⟩ := List.cons.inj h
        cases item with
        | label m => exact List.mem_cons_of_mem _ (ih.mpr ⟨xs, ys, rfl, rfl⟩)
        | code i =>
          refine ih.mpr ⟨xs, ys, rfl, ?_⟩
          rw [draft_cons, List.length_append, Nat.add_assoc]
          rfl

theorem labels_append (off : ℕ) (items items' : List (Item ν ι)) :
    labels f off (items ++ items') =
      labels f off items ++ labels f (off + (draft f items).length) items' := by
  induction items generalizing off with
  | nil => rfl
  | cons item items ih =>
    cases item with
    | label n =>
      rw [List.cons_append, labels, labels, ih, draft_cons]
      rfl
    | code i =>
      rw [List.cons_append, labels, labels, ih, draft_cons, List.length_append, Nat.add_assoc]
      rfl

theorem refs_append (off : ℕ) (items items' : List (Item ν ι)) :
    refs f off (items ++ items') =
      refs f off items ++ refs f (off + (draft f items).length) items' := by
  induction items generalizing off with
  | nil => rfl
  | cons item items ih =>
    cases item with
    | label n =>
      rw [List.cons_append, refs, refs, ih, draft_cons]
      rfl
    | code i =>
      rw [List.cons_append, refs, refs, ih, draft_cons, List.length_append, Nat.add_assoc,
        List.append_assoc]
      rfl

/-- The reference of an instruction, with what stands before it. -/
theorem mem_refs {off : ℕ} {n : ν} {xs ys : List (Item ν ι)} {i : ι} (h : f.ref i = some n) :
    (n, off + (draft f xs).length + (f.bytes i).length) ∈ refs f off (xs ++ .code i :: ys) := by
  rw [refs_append, refs, h, List.mem_append]
  exact .inr List.mem_cons_self

/-- A reference stands within the text. -/
theorem le_of_mem_refs {off next : ℕ} {n : ν} {items : List (Item ν ι)}
    (h : (n, next) ∈ refs f off items) : next ≤ off + (draft f items).length := by
  induction items generalizing off with
  | nil => exact absurd h List.not_mem_nil
  | cons item items ih =>
    rw [draft_cons, List.length_append, ← Nat.add_assoc]
    cases item with
    | label m => exact ih h
    | code i =>
      rw [refs, List.mem_append] at h
      obtain h | h := h
      · obtain ⟨m, -, hpair⟩ := List.mem_map.mp h
        obtain ⟨-, rfl⟩ := Prod.mk.inj hpair
        exact Nat.le_add_right _ _
      · exact ih h

end Labels

section Decoding

/-- The decoder takes `text` apart into the instructions `ds`. -/
inductive Decodes (dec : List β → Option (δ × List β)) : List β → List δ → Prop
  | nil : Decodes dec [] []
  | cons {text rest : List β} {d : δ} {ds : List δ} (h : dec text = some (d, rest))
      (hrest : Decodes dec rest ds) : Decodes dec text (d :: ds)

/-- The instructions of a program that starts at `off`, read with `meaning next i`. -/
def meanings (meaning : ℕ → ι → δ) : ℕ → List (Item ν ι) → List δ
  | _, [] => []
  | off, .label _ :: items => meanings meaning off items
  | off, .code i :: items =>
    meaning (off + (f.bytes i).length) i :: meanings meaning (off + (f.bytes i).length) items

variable {f disp} {dec : List β → Option (δ × List β)} {meaning : ℕ → ι → δ}

/-- Where every instruction decodes, the linked text decodes. -/
theorem decodes_link (off : ℕ) {items : List (Item ν ι)}
    (h : ∀ xs i ys, items = xs ++ .code i :: ys → ∀ rest,
      dec (final f disp (off + (draft f xs).length + (f.bytes i).length) i ++ rest) =
        some (meaning (off + (draft f xs).length + (f.bytes i).length) i, rest)) :
    Decodes dec (link f disp off items) (meanings f meaning off items) := by
  induction items generalizing off with
  | nil => exact .nil
  | cons item items ih =>
    cases item with
    | label n =>
      refine ih off fun xs i ys hitems rest => ?_
      exact h (.label n :: xs) i ys (by rw [hitems, List.cons_append]) rest
    | code j =>
      refine .cons (h [] j items rfl _) (ih _ fun xs i ys hitems rest => ?_)
      have hcons := h (.code j :: xs) i ys (by rw [hitems, List.cons_append]) rest
      rw [draft_cons, List.length_append, ← Nat.add_assoc] at hcons
      exact hcons

/-- A text is taken apart in one way. -/
theorem Decodes.unique {text : List β} {ds ds' : List δ} (h : Decodes dec text ds)
    (hnil : dec [] = none) (h' : Decodes dec text ds') : ds = ds' := by
  induction h generalizing ds' with
  | nil =>
    cases h' with
    | nil => rfl
    | cons hdec _ =>
      rw [hnil] at hdec
      exact absurd hdec.symm (Option.some_ne_none _)
  | cons hdec _ ih =>
    cases h' with
    | nil =>
      rw [hnil] at hdec
      exact absurd hdec.symm (Option.some_ne_none _)
    | cons hdec' hrest' =>
      obtain ⟨rfl, rfl⟩ := Prod.mk.inj (Option.some.inj (hdec.symm.trans hdec'))
      rw [ih hrest']

end Decoding

end AuroraOS.Lib.TwoPass
