import Mathlib.Tactic.ByContra

/-!
# Properties of all states of a run

A machine takes a step for every label of a list; a step that is not possible ends the run. If
each step from a good state leads to a good state exactly when it meets a condition, then all
states of a run are good exactly when all its steps meet the condition.

## Main definitions

- `Always` — a property holds in every state of the run
- `Meets` — every step of the run meets a condition

## Main results

- `always_iff_meets`
-/

namespace AuroraOS.Lib

variable {S A : Type*} (step : S → A → Option S)

/-- `P` holds in every state of the run from `s` on. -/
def Always (P : S → Prop) : List A → S → Prop
  | [], s => P s
  | a :: as, s => P s ∧ ∀ s', step s a = some s' → Always P as s'

/-- Every step of the run from `s` on meets the condition `C`. -/
def Meets (C : S → A → Prop) : List A → S → Prop
  | [], _ => True
  | a :: as, s => ∀ s', step s a = some s' → C s a ∧ Meets C as s'

variable {step} {P Inv : S → Prop} {C : S → A → Prop}

theorem Always.head {as : List A} {s : S} (h : Always step P as s) : P s := by
  cases as with
  | nil => exact h
  | cons a as => exact h.1

/-- A property of all states holds in the last one. -/
theorem Always.last {as : List A} {s s' : S} (h : Always step P as s)
    (hrun : as.foldlM step s = some s') : P s' := by
  induction as generalizing s with
  | nil =>
    obtain rfl := Option.some.inj hrun
    exact h
  | cons a as ih =>
    rw [List.foldlM_cons] at hrun
    obtain ⟨s₁, hs₁, hrest⟩ := Option.bind_eq_some_iff.mp hrun
    exact ih (h.2 s₁ hs₁) hrest

/-- A run stays good exactly when its steps meet the condition. -/
theorem always_iff_meets (hP : ∀ s, Inv s → P s)
    (hstep : ∀ s a s', Inv s → C s a → step s a = some s' → Inv s')
    (hbreak : ∀ s a s', Inv s → ¬ C s a → step s a = some s' → ¬ P s')
    (as : List A) {s : S} (hs : Inv s) : Always step P as s ↔ Meets step C as s := by
  induction as generalizing s with
  | nil => exact ⟨fun _ => trivial, fun _ => hP s hs⟩
  | cons a as ih =>
    constructor
    · rintro ⟨-, h⟩ s' hs'
      have hC : C s a := by
        by_contra hC
        exact hbreak s a s' hs hC hs' (h s' hs').head
      exact ⟨hC, (ih (hstep s a s' hs hC hs')).mp (h s' hs')⟩
    · intro h
      refine ⟨hP s hs, fun s' hs' => ?_⟩
      obtain ⟨hC, hrest⟩ := h s' hs'
      exact (ih (hstep s a s' hs hC hs')).mpr hrest

end AuroraOS.Lib
