import Mathlib

/-!
# Chains in a table of links

A table gives every cell a link. Following links from a cell visits a list of cells until a
link is a stop mark. `LinkedChain next live stop a l` says that this happens from `a`, that
`l` are the cells visited and that all of them are live. Nothing is assumed about the cell
type; the only hypothesis the results share is that a live cell is never a stop mark, which
makes chains functional and therefore acyclic.

## Main results

- `LinkedChain.unique`, `LinkedChain.nodup` — a chain is determined by its first cell and
  visits no cell twice
- `LinkedChain.congr` — a chain only depends on the links of its own cells
- `LinkedChain.concat` — linking one more cell behind the last one
-/

namespace AuroraOS.Lib

variable {α : Type*}

/-- Starting at `a`, the links visit exactly the live cells `l` and then a stop mark. -/
inductive LinkedChain (next : α → α) (live stop : α → Prop) : α → List α → Prop
  | last {a : α} : live a → stop (next a) → LinkedChain next live stop a [a]
  | cons {a : α} {l : List α} : live a → LinkedChain next live stop (next a) l →
      LinkedChain next live stop a (a :: l)

namespace LinkedChain

variable {next next' : α → α} {live live' stop : α → Prop} {a b : α} {l l' : List α}

theorem ne_nil (h : LinkedChain next live stop a l) : l ≠ [] := by
  cases h <;> simp

/-- A chain starts with its first cell. -/
theorem exists_eq_cons (h : LinkedChain next live stop a l) : ∃ t, l = a :: t := by
  cases h with
  | last _ _ => exact ⟨[], rfl⟩
  | cons _ _ => exact ⟨_, rfl⟩

theorem head_mem (h : LinkedChain next live stop a l) : a ∈ l := by
  obtain ⟨t, rfl⟩ := h.exists_eq_cons
  exact List.mem_cons_self

theorem live_of_mem (h : LinkedChain next live stop a l) : ∀ x ∈ l, live x := by
  induction h with
  | last ha _ => simpa using ha
  | cons ha _ ih =>
    intro x hx
    obtain rfl | hx := List.mem_cons.mp hx
    · exact ha
    · exact ih x hx

/-- What is left of a chain after its first cell: nothing, or a chain from the first link. -/
theorem tail (h : LinkedChain next live stop a (a :: l)) :
    (l = [] ∧ stop (next a)) ∨ LinkedChain next live stop (next a) l := by
  cases h with
  | last _ hs => exact .inl ⟨rfl, hs⟩
  | cons _ ht => exact .inr ht

/-- A chain is a function of its first cell. -/
theorem unique (hls : ∀ x, live x → ¬ stop x) (h : LinkedChain next live stop a l)
    (h' : LinkedChain next live stop a l') : l = l' := by
  induction h generalizing l' with
  | last _ hs =>
    cases h' with
    | last _ _ => rfl
    | cons _ ht =>
      obtain ⟨t, rfl⟩ := ht.exists_eq_cons
      exact absurd hs (hls _ (ht.live_of_mem _ ht.head_mem))
  | cons _ ht ih =>
    cases h' with
    | last _ hs =>
      exact absurd hs (hls _ (ht.live_of_mem _ ht.head_mem))
    | cons _ ht' => rw [ih ht']

/-- Every cell of a chain starts a chain of its own, a suffix of the whole. -/
theorem suffix_of_mem (h : LinkedChain next live stop a l) (hb : b ∈ l) :
    ∃ s, s <:+ l ∧ LinkedChain next live stop b s := by
  induction h with
  | last ha hs =>
    rw [List.mem_singleton] at hb
    subst hb
    exact ⟨_, List.suffix_rfl, .last ha hs⟩
  | cons ha ht ih =>
    obtain rfl | hb := List.mem_cons.mp hb
    · exact ⟨_, List.suffix_rfl, .cons ha ht⟩
    · obtain ⟨s, hs, hc⟩ := ih hb
      exact ⟨s, hs.trans (List.suffix_cons _ _), hc⟩

/-- No cell is visited twice. -/
theorem nodup (hls : ∀ x, live x → ¬ stop x) (h : LinkedChain next live stop a l) : l.Nodup := by
  induction h with
  | last _ _ => simp
  | @cons a l ha ht ih =>
    refine List.nodup_cons.mpr ⟨fun hmem => ?_, ih⟩
    -- a second visit would make the chain from `a` a proper suffix of itself
    obtain ⟨s, hs, hc⟩ := ht.suffix_of_mem hmem
    have heq := unique hls (.cons ha ht) hc
    have hlen := hs.length_le
    rw [← heq, List.length_cons] at hlen
    omega

/-- A chain only depends on the links and the liveness of its own cells. -/
theorem congr (h : LinkedChain next live stop a l) (hnext : ∀ x ∈ l, next' x = next x)
    (hlive : ∀ x ∈ l, live x → live' x) : LinkedChain next' live' stop a l := by
  induction h with
  | last ha hs =>
    refine .last (hlive _ (by simp) ha) ?_
    rwa [hnext _ (by simp)]
  | @cons a l ha ht ih =>
    refine .cons (hlive _ (by simp) ha) ?_
    rw [hnext _ (by simp)]
    exact ih (fun x hx => hnext x (List.mem_cons_of_mem _ hx))
      (fun x hx => hlive x (List.mem_cons_of_mem _ hx))

/-- Linking a live cell that ends in a stop mark behind the last cell of a chain. -/
theorem concat (hls : ∀ x, live x → ¬ stop x) (h : LinkedChain next live stop a l)
    (hl : l ≠ []) (hb : live b) (hlast : next' (l.getLast hl) = b) (hstop : stop (next' b))
    (hnext : ∀ x ∈ l, x ≠ l.getLast hl → next' x = next x) :
    LinkedChain next' live stop a (l ++ [b]) := by
  have hnd := h.nodup hls
  induction h with
  | @last a ha _ =>
    refine .cons ha ?_
    rw [show next' a = b from hlast]
    exact .last hb hstop
  | @cons a l ha ht ih =>
    have hne := ht.ne_nil
    rw [List.getLast_cons hne] at hlast hnext
    obtain ⟨hnot, hnd'⟩ := List.nodup_cons.mp hnd
    have hfirst : a ≠ l.getLast hne := fun he => hnot (he ▸ List.getLast_mem hne)
    refine .cons ha ?_
    rw [hnext a List.mem_cons_self hfirst]
    exact ih hne hlast (fun x hx => hnext x (List.mem_cons_of_mem _ hx)) hnd'

end LinkedChain

end AuroraOS.Lib
