import AuroraOS.Fibers.Model

/-!
# The life of a fiber slot

`fiber_trampoline` marks the slot of a fiber that has returned as unused and then leaves through
`fiber_yield`, which marks it as ready again. So the slot is lost, and a later `fiber_resume` of it
switches to the dead fiber.

`SchedInv s` says which contexts wait for which. It holds on every run in which no dead fiber is
resumed and a slot that was never used is left whenever a fiber has returned.

## Main results

- `step_inv` — steps that meet the condition keep the invariant
- `recycled_iff` — slots are recycled in a run exactly when all its steps meet the condition
-/

namespace AuroraOS.Fibers

open AuroraOS.Lib

/-- `fiber_spawn` succeeds exactly when a slot has no live fiber, and no fiber was switched to
    after its entry function had returned. -/
structure Recycled (s : Sched) : Prop where
  spawn_iff : (fiberSpawn s).1.isSome = true ↔ s.liveFibers.card < fiberMax
  never_again : s.switchedToReturned = false

/-- The step loses no slot that is needed and does not switch to a fiber that has returned. -/
def StepRecycles (s : Sched) : Action → Prop
  | .spawn => (∃ i, s.entry i = .returned) →
      ∃ i j, i ≠ j ∧ (s.fibers i).state = .unused ∧ (s.fibers j).state = .unused
  | .resume idx => ∀ i : Fin fiberMax, (i : ℤ) = idx → s.entry i ≠ .returned
  | .yield => ∀ i, s.stack = some i → s.entry i = .returned →
      ∃ j, j ≠ i ∧ (s.fibers j).state = .unused
  | .ret => True

/-- The fiber runs or waits for one that it has resumed. -/
def Sched.OnChain (s : Sched) (i : Fin fiberMax) : Prop :=
  (s.fibers i).state = .running ∨ s.stack = some i

/-- What holds between the actions of the running code. -/
structure SchedInv (s : Sched) : Prop where
  current_eq : s.currentFiber = s.stack
  stack_entry : ∀ i, s.stack = some i →
    ((s.fibers i).state = .running ∧ s.entry i = .live) ∨
      ((s.fibers i).state = .unused ∧ s.entry i = .returned)
  unused_entry : ∀ i, (s.fibers i).state = .unused →
    s.entry i = .vacant ∨ (s.entry i = .returned ∧ s.stack = some i)
  ready_entry : ∀ i, (s.fibers i).state = .ready → s.entry i ≠ .vacant
  ready_rsp : ∀ i, (s.fibers i).state = .ready →
    (s.fibers i).rsp = some .trampoline ∨ (s.fibers i).rsp = some .afterYield
  running_entry : ∀ i, (s.fibers i).state = .running → s.entry i = .live
  /-- a fiber was resumed by a context that waits for it -/
  resumedBy_waits : ∀ i, s.OnChain i → ∃ c, (s.fibers i).resumedBy = some c ∧ c ≠ s.stack ∧
    s.rspOf c = some (.afterResume c) ∧ ∀ j, c = some j → (s.fibers j).state = .running
  /-- no context waits for two fibers -/
  resumedBy_inj : ∀ i j, s.OnChain i → s.OnChain j →
    (s.fibers i).resumedBy = (s.fibers j).resumedBy → i = j
  never_again : s.switchedToReturned = false
  /-- an unused slot makes up for the ones that are lost -/
  spare : (∃ i, s.entry i = .returned) → ∃ j, (s.fibers j).state = .unused

theorem boot_inv : SchedInv Sched.boot where
  current_eq := rfl
  stack_entry := fun i h => absurd h (by simp [Sched.boot])
  unused_entry := fun i _ => .inl rfl
  ready_entry := fun i h => absurd h (by simp [Sched.boot])
  ready_rsp := fun i h => absurd h (by simp [Sched.boot])
  running_entry := fun i h => absurd h (by simp [Sched.boot])
  resumedBy_waits := fun i h => absurd h (by simp [Sched.OnChain, Sched.boot])
  resumedBy_inj := fun i j h => absurd h (by simp [Sched.OnChain, Sched.boot])
  never_again := rfl
  spare := fun ⟨i, h⟩ => absurd h (by simp [Sched.boot])

theorem spawn_isSome (s : Sched) :
    (fiberSpawn s).1.isSome = true ↔ ∃ i, (s.fibers i).state = .unused := by
  rw [← freeFiber_isSome, fiberSpawn]
  cases freeFiber s <;> rfl

theorem card_liveFibers_lt (s : Sched) : s.liveFibers.card < fiberMax ↔ ∃ i, s.entry i ≠ .live := by
  constructor
  · intro h
    by_contra hall
    push Not at hall
    have huniv : s.liveFibers = Finset.univ := Finset.filter_true_of_mem fun i _ => hall i
    rw [huniv, Finset.card_univ, Fintype.card_fin] at h
    omega
  · rintro ⟨i, hi⟩
    have hnot : i ∉ s.liveFibers := fun hmem => hi (Finset.mem_filter.mp hmem).2
    have hss : s.liveFibers ⊂ Finset.univ :=
      Finset.ssubset_univ_iff.mpr fun h => hnot (by rw [h]; exact Finset.mem_univ i)
    have hlt := Finset.card_lt_card hss
    rwa [Finset.card_univ, Fintype.card_fin] at hlt

theorem recycled_of_inv {s : Sched} (h : SchedInv s) : Recycled s := by
  refine ⟨?_, h.never_again⟩
  rw [spawn_isSome, card_liveFibers_lt]
  constructor
  · rintro ⟨i, hi⟩
    obtain hvac | ⟨hret, -⟩ := h.unused_entry i hi
    · exact ⟨i, by simp [hvac]⟩
    · exact ⟨i, by simp [hret]⟩
  · rintro ⟨i, hi⟩
    cases hentry : s.entry i with
    | live => exact absurd hentry hi
    | returned => exact h.spare ⟨i, hentry⟩
    | vacant =>
      refine ⟨i, ?_⟩
      cases hstate : (s.fibers i).state with
      | unused => rfl
      | ready => exact absurd hentry (h.ready_entry i hstate)
      | running => exact absurd (h.running_entry i hstate) (by simp [hentry])

/-- Without an unused slot a fiber that has returned is missing. -/
theorem not_recycled {s : Sched} (hret : ∃ i, s.entry i = .returned)
    (hfull : ∀ i, (s.fibers i).state ≠ .unused) : ¬ Recycled s := by
  intro h
  obtain ⟨i, hi⟩ := hret
  have hspawn := h.spawn_iff
  rw [spawn_isSome, card_liveFibers_lt] at hspawn
  obtain ⟨j, hj⟩ := hspawn.mpr ⟨i, by simp [hi]⟩
  exact hfull j hj

section steps

variable {s : Sched} {i : Fin fiberMax}

/-- Code that is not the trampoline of a fiber that has returned runs on a running fiber. -/
theorem running_of_stack (h : SchedInv s) (hnot : s.isReturned s.stack = false)
    (hstack : s.stack = some i) : (s.fibers i).state = .running := by
  obtain ⟨hrun, -⟩ | ⟨-, hret⟩ := h.stack_entry i hstack
  · exact hrun
  · rw [hstack, Sched.isReturned] at hnot
    exact absurd hret (by simpa using hnot)

theorem entryReturns_inv (h : SchedInv s) (hstack : s.stack = some i) (hlive : s.entry i = .live) :
    SchedInv (entryReturns i s) := by
  obtain ⟨hcur, hstk, hunused, hready, hrsp, hrunning, hwaits, hinj, hnever, hspare⟩ := h
  have hrun : (s.fibers i).state = .running := by
    obtain ⟨hrun, -⟩ | ⟨-, hret⟩ := hstk i hstack
    · exact hrun
    · exact absurd hret (by simp [hlive])
  have hstate : ∀ j, ((entryReturns i s).fibers j).state =
      if j = i then .unused else (s.fibers j).state := by
    intro j
    by_cases hj : j = i
    · subst hj
      simp [entryReturns]
    · simp [entryReturns, hj]
  have hsame : ∀ j, ((entryReturns i s).fibers j).resumedBy = (s.fibers j).resumedBy ∧
      ((entryReturns i s).fibers j).rsp = (s.fibers j).rsp := by
    intro j
    by_cases hj : j = i
    · subst hj
      simp [entryReturns]
    · simp [entryReturns, hj]
  have hentry : ∀ j, (entryReturns i s).entry j = if j = i then .returned else s.entry j := by
    intro j
    simp [entryReturns, Function.update_apply]
  have hstack' : (entryReturns i s).stack = s.stack := rfl
  have hcur' : (entryReturns i s).currentFiber = s.currentFiber := rfl
  have hmain : (entryReturns i s).mainRsp = s.mainRsp := rfl
  have hnever' : (entryReturns i s).switchedToReturned = s.switchedToReturned := rfl
  generalize entryReturns i s = s' at *
  have hchain : ∀ j, s'.OnChain j ↔ s.OnChain j := by
    intro j
    rw [Sched.OnChain, Sched.OnChain]
    grind
  have hrspOf : ∀ c, s'.rspOf c = s.rspOf c := by
    intro c
    cases c with
    | none => exact hmain
    | some j => exact (hsame j).2
  refine ⟨by grind, by grind, by grind, by grind, by grind, by grind, ?_, by grind, by grind, ?_⟩
  · intro j hj
    obtain ⟨c, hc, hne, hr, hc'⟩ := hwaits j ((hchain j).mp hj)
    refine ⟨c, by grind, by grind, by grind, ?_⟩
    intro k hk
    grind
  · grind

theorem fiberCreate_inv (h : SchedInv s) (hfree : (s.fibers i).state = .unused)
    (hnr : s.isReturned s.stack = false)
    (hspare' : (∃ j, s.entry j = .returned) → ∃ j, j ≠ i ∧ (s.fibers j).state = .unused) :
    SchedInv (fiberCreate i s) := by
  have hnot : s.stack ≠ some i := by
    intro hi
    have := running_of_stack h hnr hi
    grind
  obtain ⟨hcur, hstk, hunused, hready, hrsp, hrunning, hwaits, hinj, hnever, hspare⟩ := h
  have hvacant : s.entry i = .vacant := by grind
  have hstate : ∀ j, ((fiberCreate i s).fibers j).state =
      if j = i then .ready else (s.fibers j).state := by
    intro j
    by_cases hj : j = i
    · subst hj
      simp [fiberCreate]
    · simp [fiberCreate, hj]
  have hrsp' : ∀ j, ((fiberCreate i s).fibers j).rsp =
      if j = i then some .trampoline else (s.fibers j).rsp := by
    intro j
    by_cases hj : j = i
    · subst hj
      simp [fiberCreate]
    · simp [fiberCreate, hj]
  have hby : ∀ j, ((fiberCreate i s).fibers j).resumedBy = (s.fibers j).resumedBy := by
    intro j
    by_cases hj : j = i
    · subst hj
      simp [fiberCreate]
    · simp [fiberCreate, hj]
  have hentry : ∀ j, (fiberCreate i s).entry j = if j = i then .live else s.entry j := by
    intro j
    simp [fiberCreate, Function.update_apply]
  have hstack' : (fiberCreate i s).stack = s.stack := rfl
  have hcur' : (fiberCreate i s).currentFiber = s.currentFiber := rfl
  have hmain : (fiberCreate i s).mainRsp = s.mainRsp := rfl
  have hnever' : (fiberCreate i s).switchedToReturned = s.switchedToReturned := rfl
  generalize fiberCreate i s = s' at *
  have hchain : ∀ j, s'.OnChain j ↔ s.OnChain j := by
    intro j
    rw [Sched.OnChain, Sched.OnChain]
    grind
  refine ⟨by grind, by grind, by grind, by grind, by grind, by grind, ?_, by grind, by grind, ?_⟩
  · intro j hj
    obtain ⟨c, hc, hne, hr, hc'⟩ := hwaits j ((hchain j).mp hj)
    refine ⟨c, by grind, by grind, ?_, by grind⟩
    cases c with
    | none => exact hmain.trans hr
    | some k =>
      have := hc' k rfl
      rw [← hr, Sched.rspOf, Sched.rspOf, hrsp' k, if_neg (by grind)]
  · rintro ⟨j, hj⟩
    obtain ⟨k, hk, hk'⟩ := hspare' ⟨j, by grind⟩
    exact ⟨k, by grind⟩

/-- Switching to a fiber that is ready. -/
theorem resumeFiber_eq (h : SchedInv s) (hready : (s.fibers i).state = .ready) :
    ∃ s', resumeFiber i s = some s' ∧ s'.stack = some i ∧ s'.currentFiber = some i ∧
      s'.entry = s.entry ∧
      s'.switchedToReturned = (s.switchedToReturned || decide (s.entry i = .returned)) ∧
      (∀ j, (s'.fibers j).state = if j = i then .running else (s.fibers j).state) ∧
      (∀ j, (s'.fibers j).resumedBy = if j = i then some s.stack else (s.fibers j).resumedBy) ∧
      (∀ c, s'.rspOf c = if c = s.stack then some (.afterResume s.stack) else s.rspOf c) := by
  have hne : s.stack ≠ some i := by
    intro hi
    have := h.stack_entry i hi
    grind
  have hcur := h.current_eq
  have hrsp := h.ready_rsp i hready
  cases hstack : s.stack with
  | none =>
    refine ⟨{ s.modifyFiber i fun fib => { fib with state := .running, resumedBy := some none } with
      mainRsp := some (.afterResume none), currentFiber := some i, stack := some i,
      switchedToReturned := s.switchedToReturned || decide (s.entry i = .returned) },
      ?_, rfl, rfl, rfl, rfl, ?_, ?_, ?_⟩
    · rw [resumeFiber, if_neg (by simp [hready])]
      simp only [fiberSwitch, Sched.rspOf, modifyFiber_self, hcur, hstack, Sched.saveRsp]
      obtain hr | hr := hrsp <;> simp [hr, Sched.isReturned, Sched.modifyFiber]
    · intro j
      by_cases hj : j = i
      · subst hj
        simp
      · simp [hj]
    · intro j
      by_cases hj : j = i
      · subst hj
        simp
      · simp [hj]
    · intro c
      cases c with
      | none => rfl
      | some j =>
        by_cases hj : j = i
        · subst hj
          simp [Sched.rspOf]
        · simp [Sched.rspOf, hj]
  | some k =>
    have hk : k ≠ i := fun hki => hne (hstack.trans (congrArg some hki))
    refine ⟨{ (s.modifyFiber i fun fib =>
        { fib with state := .running, resumedBy := some (some k) }).modifyFiber k fun fib =>
        { fib with rsp := some (.afterResume (some k)) } with
      currentFiber := some i, stack := some i,
      switchedToReturned := s.switchedToReturned || decide (s.entry i = .returned) },
      ?_, rfl, rfl, rfl, rfl, ?_, ?_, ?_⟩
    · rw [resumeFiber, if_neg (by simp [hready])]
      simp only [fiberSwitch, Sched.rspOf, modifyFiber_self, hcur, hstack, Sched.saveRsp]
      obtain hr | hr := hrsp <;> simp [hr, Sched.isReturned, Sched.modifyFiber]
    · intro j
      by_cases hjk : j = k
      · subst hjk
        simp [hk]
      · by_cases hj : j = i
        · subst hj
          simp [hjk]
        · simp [hj, hjk]
    · intro j
      by_cases hjk : j = k
      · subst hjk
        simp [hk]
      · by_cases hj : j = i
        · subst hj
          simp [hjk]
        · simp [hj, hjk]
    · intro c
      cases c with
      | none => rfl
      | some j =>
        by_cases hjk : j = k
        · subst hjk
          simp [Sched.rspOf]
        · by_cases hj : j = i
          · subst hj
            simp [Sched.rspOf, hjk]
          · simp [Sched.rspOf, hj, hjk]

theorem resumeFiber_inv (h : SchedInv s) (hnot : s.isReturned s.stack = false)
    (hready : (s.fibers i).state = .ready) (hentry : s.entry i ≠ .returned) {s' : Sched}
    (hs' : resumeFiber i s = some s') : SchedInv s' := by
  have hrun : ∀ j, s.stack = some j → (s.fibers j).state = .running :=
    fun j hj => running_of_stack h hnot hj
  have hlive : s.entry i = .live := by
    cases hphase : s.entry i with
    | live => rfl
    | vacant => exact absurd hphase (h.ready_entry i hready)
    | returned => exact absurd hphase hentry
  obtain ⟨s₁, hres, hstack', hcur', hentry', hnever', hstate, hby, hrsp'⟩ := resumeFiber_eq h hready
  obtain rfl := Option.some.inj (hres.symm.trans hs')
  obtain ⟨hcur, hstk, hunused, hready', hrsp, hrunning, hwaits, hinj, hnever, hspare⟩ := h
  have hne : s.stack ≠ some i := by
    intro hi
    have := hstk i hi
    grind
  have hrspj : ∀ j, (s₁.fibers j).rsp = if some j = s.stack then some (.afterResume s.stack)
      else (s.fibers j).rsp := fun j => hrsp' (some j)
  have hchain : ∀ j, s₁.OnChain j ↔ j = i ∨ s.OnChain j := by
    intro j
    rw [Sched.OnChain, Sched.OnChain]
    grind
  refine ⟨by grind, by grind, by grind, by grind, ?_, by grind, ?_, ?_, by grind, ?_⟩
  · intro j hj
    rw [hrspj, if_neg]
    · exact hrsp j (by grind)
    · intro hj'
      have := hstk j hj'.symm
      grind
  · intro j hj
    by_cases hji : j = i
    · exact ⟨s.stack, by grind, by grind, by grind, by grind⟩
    · obtain ⟨c, hc, hcne, hr, hc'⟩ := hwaits j (by grind)
      exact ⟨c, by grind, by grind, by grind, by grind⟩
  · intro j k hj hk hjk
    have hother : ∀ l, l ≠ i → s.OnChain l → (s.fibers l).resumedBy ≠ some s.stack := by
      intro l _ hl
      obtain ⟨c, hc, hcne, -⟩ := hwaits l hl
      grind
    grind
  · rintro ⟨j, hj⟩
    obtain ⟨k, hk⟩ := hspare ⟨j, by rw [← hentry']; exact hj⟩
    exact ⟨k, by grind⟩

/-- `fiber_yield` goes back to the context that waits. -/
theorem fiberYield_eq (h : SchedInv s) (hstack : s.stack = some i) :
    ∃ s' c, fiberYield s = some s' ∧ (s.fibers i).resumedBy = some c ∧ c ≠ some i ∧
      (∀ j, c = some j → (s.fibers j).state = .running) ∧ s'.stack = c ∧ s'.currentFiber = c ∧
      s'.entry = s.entry ∧ s'.switchedToReturned = s.switchedToReturned ∧
      (∀ j, (s'.fibers j).state = if j = i then .ready else (s.fibers j).state) ∧
      (∀ j, (s'.fibers j).resumedBy = (s.fibers j).resumedBy) ∧
      (∀ d, s'.rspOf d = if d = some i then some .afterYield else s.rspOf d) := by
  obtain ⟨c, hc, hne, hrsp, hrunning⟩ := h.resumedBy_waits i (.inr hstack)
  rw [hstack] at hne
  have hlive : s.isReturned c = false := by
    cases c with
    | none => rfl
    | some j => simp [Sched.isReturned, h.running_entry j (hrunning j rfl)]
  refine ⟨{ (s.modifyFiber i fun fib => { fib with state := .ready }).modifyFiber i fun fib =>
      { fib with rsp := some .afterYield } with stack := c, currentFiber := c },
    c, ?_, hc, hne, hrunning, rfl, rfl, rfl, rfl, ?_, ?_, ?_⟩
  · have hrsp' : (s.modifyFiber i fun fib => { fib with state := .ready }).rspOf c =
        some (.afterResume c) := by
      rw [← hrsp]
      cases c with
      | none => rfl
      | some j =>
        have hj : j ≠ i := fun hj => hne (congrArg some hj)
        simp [Sched.rspOf, hj]
    have hlive' :
      (s.modifyFiber i fun fib => { fib with state := .ready }).isReturned c = false := by
      rw [← hlive]
      cases c <;> rfl
    simp only [fiberYield, h.current_eq, hstack, hc, fiberSwitch, hrsp', Sched.saveRsp, hlive',
      Bool.or_false]
    rfl
  · intro j
    by_cases hj : j = i
    · subst hj
      simp
    · simp [hj]
  · intro j
    by_cases hj : j = i
    · subst hj
      simp
    · simp [hj]
  · intro d
    cases d with
    | none => rfl
    | some j =>
      by_cases hj : j = i
      · subst hj
        simp [Sched.rspOf]
      · simp [Sched.rspOf, hj]

theorem fiberYield_inv (h : SchedInv s) (hstack : s.stack = some i)
    (hspare' : s.entry i = .returned → ∃ j, j ≠ i ∧ (s.fibers j).state = .unused) {s' : Sched}
    (hs' : fiberYield s = some s') : SchedInv s' := by
  obtain ⟨s₁, c, hrun, hc, hne, hcrun, hstack', hcur', hentry', hnever', hstate, hby, hrsp'⟩ :=
    fiberYield_eq h hstack
  obtain rfl := Option.some.inj (hrun.symm.trans hs')
  obtain ⟨hcur, hstk, hunused, hready', hrsp, hrunning, hwaits, hinj, hnever, hspare⟩ := h
  have hrspj : ∀ j, (s₁.fibers j).rsp = if some j = some i then some .afterYield
      else (s.fibers j).rsp := fun j => hrsp' (some j)
  have hchain : ∀ j, s₁.OnChain j ↔ j ≠ i ∧ s.OnChain j := by
    intro j
    rw [Sched.OnChain, Sched.OnChain]
    grind
  refine ⟨by grind, by grind, by grind, ?_, by grind, by grind, ?_, by grind, by grind, ?_⟩
  · intro j hj
    have := hstk i hstack
    grind
  · intro j hj
    obtain ⟨hji, hj⟩ := (hchain j).mp hj
    obtain ⟨d, hd, hdne, hr, hd'⟩ := hwaits j hj
    have hdc : d ≠ c := by
      intro hdc
      exact hji (hinj j i hj (.inr hstack) (by rw [hd, hc, hdc]))
    exact ⟨d, by grind, by grind, by grind, by grind⟩
  · rintro ⟨j, hj⟩
    obtain ⟨hrun', -⟩ | ⟨-, hret⟩ := hstk i hstack
    · obtain ⟨k, hk⟩ := hspare ⟨j, by rw [← hentry']; exact hj⟩
      exact ⟨k, by grind⟩
    · obtain ⟨k, hk, hk'⟩ := hspare' hret
      exact ⟨k, by grind⟩

end steps

theorem isReturned_stack {s : Sched} {i : Fin fiberMax} (h : s.isReturned s.stack = false)
    (hstack : s.stack = some i) : s.entry i ≠ .returned := by
  rw [hstack, Sched.isReturned] at h
  simpa using h

/-- A returned fiber that is not running its trampoline is marked as ready. -/
theorem ready_of_returned {s : Sched} (h : SchedInv s) (hnot : s.isReturned s.stack = false)
    {i : Fin fiberMax} (hret : s.entry i = .returned) : (s.fibers i).state = .ready := by
  cases hstate : (s.fibers i).state with
  | ready => rfl
  | running => exact absurd (h.running_entry i hstate) (by simp [hret])
  | unused =>
    obtain hvac | ⟨-, hstack⟩ := h.unused_entry i hstate
    · exact absurd hvac (by simp [hret])
    · exact absurd hret (isReturned_stack hnot hstack)

theorem step_inv {s s' : Sched} {a : Action} (h : SchedInv s) (hmeets : StepRecycles s a)
    (hs' : s.step a = some s') : SchedInv s' := by
  cases a with
  | spawn =>
    simp only [Sched.step] at hs'
    split at hs'
    · exact absurd hs' (by simp)
    · next hnot =>
      obtain rfl := Option.some.inj hs'
      rw [fiberSpawn]
      split
      · next i hfree =>
        refine fiberCreate_inv h (freeFiber_spec hfree) (by simpa using hnot) fun hret => ?_
        obtain ⟨j, k, hne, hj, hk⟩ := hmeets hret
        by_cases hji : j = i
        · exact ⟨k, fun hki => hne (hji.trans hki.symm), hk⟩
        · exact ⟨j, hji, hj⟩
      · exact h
  | resume idx =>
    simp only [Sched.step] at hs'
    split at hs'
    · exact absurd hs' (by simp)
    · next hnot =>
      rw [fiberResume] at hs'
      split at hs'
      · next hrange =>
        by_cases hready : (s.fibers ⟨idx.toNat, by omega⟩).state = .ready
        · refine resumeFiber_inv h (by simpa using hnot) hready (hmeets _ ?_) hs'
          simp only
          omega
        · rw [resumeFiber, if_pos hready] at hs'
          exact Option.some.inj hs' ▸ h
      · exact Option.some.inj hs' ▸ h
  | yield =>
    cases hstack : s.stack with
    | none =>
      rw [Sched.step, fiberYield, h.current_eq, hstack] at hs'
      exact Option.some.inj hs' ▸ h
    | some i => exact fiberYield_inv h hstack (hmeets i hstack) hs'
  | ret =>
    simp only [Sched.step] at hs'
    split at hs'
    · exact absurd hs' (by simp)
    · next i hstack =>
      split at hs'
      · next hlive => exact Option.some.inj hs' ▸ entryReturns_inv h hstack hlive
      · exact absurd hs' (by simp)

theorem step_breaks {s s' : Sched} {a : Action} (h : SchedInv s) (hnot : ¬ StepRecycles s a)
    (hs' : s.step a = some s') : ¬ Recycled s' := by
  cases a with
  | spawn =>
    rw [StepRecycles] at hnot
    push Not at hnot
    obtain ⟨⟨i, hret⟩, hone⟩ := hnot
    simp only [Sched.step] at hs'
    split at hs'
    · exact absurd hs' (by simp)
    · next hnr =>
      obtain rfl := Option.some.inj hs'
      obtain ⟨j, hj⟩ := h.spare ⟨i, hret⟩
      have hready := ready_of_returned h (by simpa using hnr) hret
      obtain ⟨k, hfree⟩ := Option.isSome_iff_exists.mp ((freeFiber_isSome s).mpr ⟨j, hj⟩)
      have hk := freeFiber_spec hfree
      have hik : i ≠ k := fun hik => absurd (hik ▸ hk) (by simp [hready])
      rw [fiberSpawn, hfree]
      refine not_recycled ⟨i, by simp [fiberCreate, hik, hret]⟩ fun l => ?_
      by_cases hl : l = k
      · subst hl
        simp [fiberCreate]
      · have := hone l k hl
        simpa [fiberCreate, hl] using fun hl' => this hl' hk
  | resume idx =>
    rw [StepRecycles] at hnot
    push Not at hnot
    obtain ⟨i, rfl, hret⟩ := hnot
    simp only [Sched.step] at hs'
    split at hs'
    · exact absurd hs' (by simp)
    · next hnr =>
      have hi := i.isLt
      rw [fiberResume, dif_pos (by omega)] at hs'
      have hready := ready_of_returned h (by simpa using hnr) hret
      obtain ⟨s₁, hrun, -, -, -, hsw, -⟩ := resumeFiber_eq h hready
      obtain rfl := Option.some.inj (hrun.symm.trans hs')
      intro hrec
      have := hrec.never_again
      rw [hsw, hret] at this
      simp at this
  | yield =>
    rw [StepRecycles] at hnot
    push Not at hnot
    obtain ⟨i, hstack, hret, hfull⟩ := hnot
    obtain ⟨s₁, c, hrun, -, -, -, -, -, hentry, -, hstate, -⟩ := fiberYield_eq h hstack
    obtain rfl := Option.some.inj (hrun.symm.trans hs')
    refine not_recycled ⟨i, by rw [hentry, hret]⟩ fun j => ?_
    rw [hstate]
    split
    · simp
    · next hj => exact hfull j hj
  | ret => exact absurd trivial hnot

/-- Slots are recycled in a run exactly when all its steps meet the condition. -/
theorem recycled_iff (as : List Action) :
    Always Sched.step Recycled as Sched.boot ↔ Meets Sched.step StepRecycles as Sched.boot :=
  always_iff_meets (fun _ => recycled_of_inv) (fun _ _ _ => step_inv)
    (fun _ _ _ => step_breaks) as boot_inv

/-- Eight fibers are spawned, the first one runs and its entry function returns. -/
def spawnEightReturnOne : List Action := List.replicate 8 .spawn ++ [.resume 0, .ret, .yield]

/-- Afterwards no fiber can be spawned, though only seven are live. -/
theorem not_always_recycled :
    ¬ Always Sched.step Recycled spawnEightReturnOne Sched.boot := by
  intro h
  have hlost : (spawnEightReturnOne.foldlM Sched.step Sched.boot).any (fun s =>
      (fiberSpawn s).1.isNone && decide (s.liveFibers.card < fiberMax)) = true := by
    decide
  obtain ⟨s, hs, hbad⟩ := (Option.any_eq_true _ _).mp hlost
  obtain ⟨hnone, hlt⟩ := Bool.and_eq_true_iff.mp hbad
  have hsome := (h.last hs).spawn_iff.mpr (of_decide_eq_true hlt)
  rw [Option.isNone_iff_eq_none] at hnone
  rw [hnone] at hsome
  exact absurd hsome (by decide)

end AuroraOS.Fibers
