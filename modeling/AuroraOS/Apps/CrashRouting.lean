import AuroraOS.Apps.Apploader

/-!
# Which faults are a program's own

`apploader_program_running` is set when a program is entered and cleared when it returns. A program
that yields leaves it set while the kernel runs, and a program that returns clears it for the ones
that are still to be resumed. So the flag is right in a run exactly when no program ever yields.

## Main results

- `flagExact_iff`
-/

namespace AuroraOS.Apps

open AuroraOS.Fibers AuroraOS.Lib

/-- The flag tells whether a program is executing, and so does the fault handler. -/
structure FlagExact (a : Apploader) : Prop where
  flag_iff : a.programRunning = true ↔ a.InProgram
  fault_iff : faultRedirected a = true ↔ a.InProgram

/-- The step is not a yield of a program. -/
def StepKeepsFlag (_ : Apploader) : AppAction → Prop
  | .slice .yield => False
  | .slice (.createWindow _ _) => False
  | _ => True

/-- The kernel runs, and every program that was launched has ended. -/
structure KernelRuns (a : Apploader) : Prop where
  atMain : a.sched.AtMain
  currentAppSlot_eq : a.currentAppSlot = none
  flag_eq : a.programRunning = false
  slots_unused : ∀ k, (a.slots k).state = .unused

/-- The program of slot `k` runs on fiber `i` in its first slice. -/
structure ProgramRuns (i : Fin fiberMax) (k : Fin appSlots) (a : Apploader) : Prop where
  fromMain : a.sched.RunsFromMain i
  currentAppSlot_eq : a.currentAppSlot = some k
  fiberId_eq : (a.slots k).fiberId = (i : ℤ)
  entrySlot_eq : a.entrySlot i = k
  entered_eq : a.entered i = true
  flag_eq : a.programRunning = true
  slots_unused : ∀ k', k' ≠ k → (a.slots k').state = .unused
  waiting_eq : ∃ window, a.waiting = .launch k window

/-- Between the steps of a run in which no program yields. -/
def FlagInv (a : Apploader) : Prop := KernelRuns a ∨ ∃ i k, ProgramRuns i k a

theorem boot_flagInv : FlagInv Apploader.boot :=
  .inl ⟨⟨rfl, rfl⟩, rfl, rfl, fun _ => rfl⟩

theorem not_inProgram {a : Apploader} (h : a.currentAppSlot = none) : ¬ a.InProgram := by
  rintro ⟨k, i, hk, -⟩
  exact absurd (h.symm.trans hk) (by simp)

theorem flagExact_of_inv {a : Apploader} (h : FlagInv a) : FlagExact a := by
  have hiff : a.programRunning = true ↔ a.InProgram := by
    obtain hk | ⟨i, k, hp⟩ := h
    · simp [hk.flag_eq, not_inProgram hk.currentAppSlot_eq]
    · simp only [hp.flag_eq, true_iff]
      exact ⟨k, i, hp.currentAppSlot_eq, hp.fiberId_eq, hp.fromMain.stack_eq, hp.entered_eq⟩
  exact ⟨hiff, hiff⟩

/-- The kernel function that waits clears `current_app_slot` and touches neither the flag nor the
    fibers. -/
theorem backInKernel_launch {a : Apploader} {k : Fin appSlots} {window : Option ℤ}
    (hstack : a.sched.stack = none) (hwait : a.waiting = .launch k window) :
    (backInKernel a).currentAppSlot = none ∧ (backInKernel a).programRunning = a.programRunning ∧
      (backInKernel a).sched = a.sched ∧
      ((a.slots k).state = .unused → (backInKernel a).slots = a.slots) := by
  simp only [backInKernel, hstack, ne_eq, not_true_eq_false, if_false, hwait, loadEnd]
  by_cases hunused : (a.slots k).state = .unused
  · simp [hunused]
  · by_cases hok : (a.slots k).createWindowOk
    · cases window with
      | none => simp [hunused, hok]
      | some id => simp [hunused, hok, attachWindow, Apploader.modifySlot]
    · simp [hunused, hok, Apploader.modifySlot]

/-- A program starts in its first slice, or nothing happens. -/
theorem launchBegin_inv {a a' : Apploader} {file : ProgramFile} {window : Option ℤ}
    (h : KernelRuns a) (ha' : launchBegin file window a = some a') : FlagInv a' := by
  obtain ⟨hmain, hslot, hflag, hunused⟩ := h
  obtain ⟨rfl, -⟩ | ⟨k, -, -, rfl⟩ | ⟨k, i, sched, -, -, -, hfrom, -, -, rfl⟩ :=
    launchBegin_cases hmain ha'
  · exact .inl ⟨hmain, hslot, hflag, hunused⟩
  · refine .inl ⟨hmain, hslot, hflag, fun k' => ?_⟩
    by_cases hk : k' = k
    · subst hk
      simp [Apploader.modifySlot, AppSlot.reset]
    · simp [Apploader.modifySlot, hk, hunused]
  · refine .inr
      ⟨i, k, hfrom, rfl, by simp [Apploader.modifySlot], by simp, by simp, rfl, ?_, _, rfl⟩
    intro k' hk
    simp [Apploader.modifySlot, hk, hunused]

/-- A program that returns in its first slice leaves everything as before its launch. -/
theorem programReturns_inv {a a' : Apploader} {i : Fin fiberMax} {k : Fin appSlots}
    (h : ProgramRuns i k a) (ha' : (programReturns i a).map backInKernel = some a') :
      FlagInv a' := by
  obtain ⟨window, hwait⟩ := h.waiting_eq
  obtain ⟨sched, hrun, hmain, -, -⟩ := programReturns_eq h.fromMain
  rw [hrun, Option.map_some] at ha'
  obtain rfl := Option.some.inj ha'
  have hunused : ∀ k', ((a.modifySlot (a.entrySlot i) fun _ => .reset).slots k').state =
    .unused := by
    intro k'
    rw [h.entrySlot_eq]
    by_cases hk : k' = k
    · subst hk
      simp [Apploader.modifySlot, AppSlot.reset]
    · simp [Apploader.modifySlot, hk, h.slots_unused]
  obtain ⟨hslot, hflag, hsched, hslots⟩ := @backInKernel_launch
    { a.modifySlot (a.entrySlot i) fun _ => .reset with
      programRunning := false, entered := Function.update a.entered i false, sched := sched }
    k window hmain.stack_eq hwait
  refine .inl ⟨by rw [hsched]; exact hmain, hslot, hflag, fun k' => ?_⟩
  rw [hslots (hunused k)]
  exact hunused k'

theorem step_flagInv {a a' : Apploader} {act : AppAction} (h : FlagInv a)
    (hkeeps : StepKeepsFlag a act) (ha' : a.step act = some a') : FlagInv a' := by
  obtain hk | ⟨i, k, hp⟩ := h
  · cases act with
    | launch file window =>
      simp only [Apploader.step, hk.atMain.stack_eq] at ha'
      exact launchBegin_inv hk ha'
    | resume slot =>
      simp only [Apploader.step, hk.atMain.stack_eq, resumeBegin, hk.slots_unused] at ha'
      have : a = a' := by
        split at ha'
        · simpa using ha'
        · simpa using ha'
      exact this ▸ .inl hk
    | slice e => simp [Apploader.step, hk.atMain.stack_eq] at ha'
  · cases act with
    | launch file window => simp [Apploader.step, hp.fromMain.stack_eq] at ha'
    | resume slot => simp [Apploader.step, hp.fromMain.stack_eq] at ha'
    | slice e =>
      simp only [Apploader.step, hp.fromMain.stack_eq] at ha'
      cases e with
      | yield => exact absurd hkeeps id
      | createWindow w h => exact absurd hkeeps id
      | exit => exact programReturns_inv hp ha'
      | crash =>
        rw [endSlice, faultRedirected, if_pos hp.flag_eq] at ha'
        have hp' : ProgramRuns i k { a with programCrashed := true } :=
          ⟨hp.fromMain, hp.currentAppSlot_eq, hp.fiberId_eq, hp.entrySlot_eq, hp.entered_eq,
            hp.flag_eq, hp.slots_unused, hp.waiting_eq⟩
        exact programReturns_inv hp' ha'

theorem syscallCreateWindow_runs {a : Apploader} {i : Fin fiberMax} {k : Fin appSlots}
    (h : ProgramRuns i k a) (w height : ℤ) : ProgramRuns i k (syscallCreateWindow w height a) := by
  simp only [syscallCreateWindow, h.currentAppSlot_eq]
  split
  · exact h
  · refine ⟨h.fromMain, h.currentAppSlot_eq, ?_, h.entrySlot_eq, h.entered_eq, h.flag_eq, ?_,
      h.waiting_eq⟩
    · simpa [Apploader.modifySlot] using h.fiberId_eq
    · intro k' hk
      simpa [Apploader.modifySlot, hk] using h.slots_unused k' hk

/-- After a yield the kernel runs and the flag is set. -/
theorem yield_breaks {a a' : Apploader} {i : Fin fiberMax} {k : Fin appSlots}
    (h : ProgramRuns i k a)
    (ha' : ((fiberYield a.sched).map fun sched => { a with sched := sched }).map backInKernel =
      some a') : ¬ FlagExact a' := by
  obtain ⟨window, hwait⟩ := h.waiting_eq
  obtain ⟨sched, hrun, hmain, -⟩ := fiberYield_toMain h.fromMain
  rw [hrun, Option.map_some, Option.map_some] at ha'
  obtain rfl := Option.some.inj ha'
  obtain ⟨hslot, hflag, -, -⟩ := @backInKernel_launch { a with sched := sched } k window
    hmain.stack_eq hwait
  intro hexact
  exact not_inProgram hslot (hexact.flag_iff.mp (hflag.trans h.flag_eq))

theorem step_breaks_flag {a a' : Apploader} {act : AppAction} (h : FlagInv a)
    (hnot : ¬ StepKeepsFlag a act) (ha' : a.step act = some a') : ¬ FlagExact a' := by
  cases act with
  | launch file window => exact absurd trivial hnot
  | resume slot => exact absurd trivial hnot
  | slice e =>
    obtain hk | ⟨i, k, hp⟩ := h
    · simp [Apploader.step, hk.atMain.stack_eq] at ha'
    · simp only [Apploader.step, hp.fromMain.stack_eq] at ha'
      cases e with
      | yield => exact yield_breaks hp ha'
      | createWindow w height => exact yield_breaks (syscallCreateWindow_runs hp w height) ha'
      | exit => exact absurd trivial hnot
      | crash => exact absurd trivial hnot

/-- The flag is exact in a run exactly when no program yields in it. -/
theorem flagExact_iff (acts : List AppAction) :
    Always Apploader.step FlagExact acts Apploader.boot ↔
      Meets Apploader.step StepKeepsFlag acts Apploader.boot :=
  always_iff_meets (fun _ => flagExact_of_inv) (fun _ _ _ => step_flagInv)
    (fun _ _ _ => step_breaks_flag) acts boot_flagInv

/-- A program asks for its window: from then on the kernel runs with the flag set. -/
theorem create_window_leaves_flag :
    ¬ Always Apploader.step FlagExact [.launch .good (some 0), .slice (.createWindow 200 100)]
      Apploader.boot := by
  intro h
  have hset : ([AppAction.launch .good (some 0), .slice (.createWindow 200 100)].foldlM
      Apploader.step Apploader.boot).any
        (fun a => a.programRunning && a.currentAppSlot.isNone) = true := by
    decide
  obtain ⟨a, ha, hbad⟩ := (Option.any_eq_true _ _).mp hset
  obtain ⟨hflag, hslot⟩ := Bool.and_eq_true_iff.mp hbad
  exact not_inProgram (Option.isNone_iff_eq_none.mp hslot) ((h.last ha).flag_iff.mp hflag)

end AuroraOS.Apps
