import Mathlib

/-!
# Reachability through slots

A graph whose nodes own slots; a slot may name a child node. `Reach` is what can be reached
from the root through the slots that are in use. The file says how reachability reacts when
the graph changes: not at all when the slots of reachable nodes stay as they are
(`Reach.congr`), and by exactly one node when a slot that leads to an empty node is taken
away or added (`reach_iff_of_remove`).
-/

namespace AuroraOS.Lib

variable {D S : Type*}

/-- The nodes reachable from `root` through slots in use. -/
inductive Reach (live : D → S → Prop) (child : S → Option D) (root : D) : D → Prop
  | root : Reach live child root root
  | step {d d' : D} {p : S} : Reach live child root d → live d p → child p = some d' →
      Reach live child root d'

namespace Reach

variable {live live' : D → S → Prop} {child child' : S → Option D} {root d : D}

/-- Reachability carries over when every slot in use at a reachable node keeps its place and
    its child. -/
theorem mono (h : Reach live child root d)
    (hlive : ∀ d, Reach live child root d → ∀ p, live d p → live' d p ∧ child' p = child p) :
    Reach live' child' root d := by
  induction h with
  | root => exact .root
  | step hd hp hc ih =>
    obtain ⟨hp', hc'⟩ := hlive _ hd _ hp
    exact .step ih hp' (hc'.trans hc)

/-- Two graphs that agree on the slots of the nodes reachable in one of them have the same
    reachable nodes. -/
theorem congr (hlive : ∀ d, Reach live child root d → ∀ p, live d p ↔ live' d p)
    (hchild : ∀ d, Reach live child root d → ∀ p, live d p → child' p = child p) :
    Reach live child root d ↔ Reach live' child' root d := by
  constructor
  · intro h
    exact h.mono fun d hd p hp => ⟨(hlive d hd p).mp hp, hchild d hd p hp⟩
  · intro h
    induction h with
    | root => exact .root
    | step _ hp hc ih =>
      have hp' := (hlive _ ih _).mpr hp
      exact .step ih hp' ((hchild _ ih _ hp').symm.trans hc)

end Reach

section remove

variable {live : D → S → Prop} {child : S → Option D} {root : D} {p : S}

/-- Taking away one slot `p`, whose child (if it has one) is a node without slots in use,
    removes at most that child. -/
theorem reach_of_remove (hempty : ∀ c, child p = some c → ∀ q, ¬ live c q) {d : D}
    (h : Reach live child root d) :
    Reach (fun d q => live d q ∧ q ≠ p) child root d ∨ child p = some d := by
  induction h with
  | root => exact .inl .root
  | @step d d' q _ hq hc ih =>
    obtain hd' | hd' := ih
    · by_cases hqp : q = p
      · subst hqp
        exact .inr hc
      · exact .inl (.step hd' ⟨hq, hqp⟩ hc)
    · exact absurd hq (hempty _ hd' q)

theorem reach_iff_of_remove {e : D} (he : Reach live child root e) (hp : live e p)
    (hempty : ∀ c, child p = some c → ∀ q, ¬ live c q) (d : D) :
    Reach live child root d ↔
      Reach (fun d q => live d q ∧ q ≠ p) child root d ∨ child p = some d := by
  refine ⟨reach_of_remove hempty, ?_⟩
  rintro (hd | hd)
  · exact hd.mono fun _ _ _ hq => ⟨hq.1, rfl⟩
  · exact .step he hp hd

end remove

end AuroraOS.Lib
