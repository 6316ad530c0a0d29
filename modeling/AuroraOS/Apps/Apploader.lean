import AuroraOS.Fibers.Slots

/-!
# Loaded programs

`kernel/apploader.c` on top of the fibers: launching a program, resuming it, what its syscalls do to
its slot, and how it ends. A program is known by what it does at the end of each slice: it yields,
it asks for its window, it exits or it crashes. The pixel cache, the event queue and the file that
the code comes from are left out.

## Main definitions

- `Apploader` — the state
- `launchBegin`, `resumeBegin` — the kernel switches to a program
- `endSlice`, `backInKernel` — control returns to the kernel
- `Apploader.step` — one step
-/

namespace AuroraOS.Apps

open AuroraOS.Fibers

/-- `APP_SLOTS`. -/
abbrev appSlots : ℕ := 8

/-- `enum app_slot_state`. -/
inductive AppSlotState where
  | unused | awaitingWindow | running
deriving DecidableEq

/-- `struct app_slot`, without the file name, the events and the code. -/
structure AppSlot where
  state : AppSlotState
  fiberId : ℤ
  windowId : ℤ
  pendingW : ℤ
  pendingH : ℤ
  createWindowOk : Bool

/-- `apploader_reset_slot`. -/
def AppSlot.reset : AppSlot := ⟨.unused, -1, -1, 0, 0, false⟩

/-- The kernel function that waits on the main stack while a program runs. -/
inductive Waiting where
  | nothing
  /-- `wm_launch_app` in `apploader_load` of this slot; the window that `create_window` will give -/
  | launch (idx : Fin appSlots) (window : Option ℤ)
  /-- `apploader_resume` -/
  | resume

/-- The static variables of `apploader.c`, and where the code on each stack is. -/
structure Apploader where
  slots : Fin appSlots → AppSlot
  currentAppSlot : Option (Fin appSlots)
  programRunning : Bool
  programCrashed : Bool
  sched : Sched
  /-- the local `slot` of `apploader_fiber_entry` on a fiber's stack -/
  entrySlot : Fin fiberMax → Fin appSlots
  /-- the program on a fiber's stack has been entered and has not returned -/
  entered : Fin fiberMax → Bool
  waiting : Waiting

/-- The state at boot: everything is zero. -/
def Apploader.boot : Apploader where
  slots := fun _ => ⟨.unused, 0, 0, 0, 0, false⟩
  currentAppSlot := none
  programRunning := false
  programCrashed := false
  sched := Sched.boot
  entrySlot := fun _ => 0
  entered := fun _ => false
  waiting := .nothing

/-- Change one slot. -/
def Apploader.modifySlot (a : Apploader) (k : Fin appSlots) (f : AppSlot → AppSlot) : Apploader :=
  { a with slots := Function.update a.slots k (f (a.slots k)) }

/-- The first unused slot, as `apploader_load` looks for it. -/
def freeSlot (a : Apploader) : Option (Fin appSlots) :=
  (List.finRange appSlots).find? fun k => (a.slots k).state = .unused

/-- What the code on a fiber's stack does when it is switched to: a fresh fiber runs
    `apploader_fiber_entry` up to the program; one whose entry function has returned yields. -/
def onFiber (i : Fin fiberMax) (fresh : Bool) (a : Apploader) : Option Apploader :=
  if fresh then
    match a.currentAppSlot with
    | none => none
    | some k => some { a with
        programCrashed := false
        programRunning := true
        entrySlot := Function.update a.entrySlot i k
        entered := Function.update a.entered i true }
  else if a.sched.entry i = .returned then
    (fiberYield a.sched).map fun sched => { a with sched := sched }
  else some a

/-- `current_app_slot = k; fiber_resume(fiber_id)` up to the point where the program runs. -/
def switchIn (k : Fin appSlots) (a : Apploader) : Option Apploader :=
  match fiberResume (a.slots k).fiberId a.sched with
  | none => none
  | some sched =>
    let a' := { a with currentAppSlot := some k, sched := sched }
    match sched.stack with
    | none => some a'
    | some i => onFiber i (decide ((a.sched.fibers i).rsp = some .trampoline)) a'

/-- `apploader_attach_window`. -/
def attachWindow (k : Fin appSlots) (windowId : ℤ) (a : Apploader) : Apploader :=
  a.modifySlot k fun slot => { slot with windowId := windowId, state := .running }

/-- The part of `apploader_load` after the program's first slice: the size of the window it asked
    for. -/
def loadEnd (k : Fin appSlots) (a : Apploader) : Option (ℤ × ℤ) × Apploader :=
  let a := { a with currentAppSlot := none }
  let slot := a.slots k
  if slot.state = .unused then (none, a)
  else if ¬ slot.createWindowOk then (none, a.modifySlot k fun _ => .reset)
  else (some (slot.pendingW, slot.pendingH), a)

/-- The kernel function that waits goes on when control is back on the main stack. -/
def backInKernel (a : Apploader) : Apploader :=
  if a.sched.stack ≠ none then a
  else
    match a.waiting with
    | .nothing => a
    | .resume => { a with currentAppSlot := none, waiting := .nothing }
    | .launch k window =>
      match loadEnd k { a with waiting := .nothing } with
      | (none, a) => a
      | (some _, a) =>
        match window with
        | none => a
        | some id => attachWindow k id a

/-- What `apploader_load` finds on the disk. -/
inductive ProgramFile where
  /-- no file of this name, or one of the wrong size -/
  | missing
  /-- a file that cannot be read -/
  | unreadable
  | good
deriving DecidableEq

/-- `wm_launch_app` up to the program's first slice; `window` is the window that `create_window`
    will give. -/
def launchBegin (file : ProgramFile) (window : Option ℤ) (a : Apploader) : Option Apploader :=
  match freeSlot a with
  | none => some a
  | some k =>
    if file = .missing then some a
    else if file = .unreadable then some (a.modifySlot k fun _ => .reset)
    else
      let a := a.modifySlot k fun _ => .reset
      match fiberSpawn a.sched with
      | (none, _) => some a
      | (some i, sched) =>
        let a := { a.modifySlot k fun slot =>
            { slot with fiberId := (i : ℤ), state := .awaitingWindow } with
          sched := sched, waiting := .launch k window }
        (switchIn k a).map backInKernel

theorem toNat_lt_appSlots {slot : ℤ} (h : 0 ≤ slot ∧ slot < appSlots) : slot.toNat < appSlots := by
  omega

/-- `apploader_resume` up to the point where the program runs. -/
def resumeBegin (slot : ℤ) (a : Apploader) : Option Apploader :=
  if h : 0 ≤ slot ∧ slot < appSlots then
    let k : Fin appSlots := ⟨slot.toNat, toNat_lt_appSlots h⟩
    if (a.slots k).state ≠ .running then some a
    else (switchIn k { a with waiting := .resume }).map backInKernel
  else some a

/-- `apploader_syscall_create_window`. -/
def syscallCreateWindow (w h : ℤ) (a : Apploader) : Apploader :=
  match a.currentAppSlot with
  | none => a
  | some k =>
    if (a.slots k).createWindowOk then a
    else
      let w := if w < 100 then 100 else w
      let h := if h < 80 then 80 else h
      a.modifySlot k fun slot => { slot with
        pendingW := if w > 640 then 640 else w
        pendingH := if h > 480 then 480 else h
        createWindowOk := true }

/-- How a program's slice ends. -/
inductive SliceEnd where
  /-- `SYS_YIELD` -/
  | yield
  /-- `SYS_WM_CREATE_WINDOW` -/
  | createWindow (w h : ℤ)
  /-- `ret` or `SYS_EXIT` -/
  | exit
  /-- an exception -/
  | crash

/-- The program on fiber `i` has returned: the rest of `apploader_fiber_entry` and of
    `fiber_trampoline`. -/
def programReturns (i : Fin fiberMax) (a : Apploader) : Option Apploader :=
  let a := { a.modifySlot (a.entrySlot i) fun _ => .reset with
    programRunning := false
    entered := Function.update a.entered i false }
  (fiberYield (entryReturns i a.sched)).map fun sched => { a with sched := sched }

/-- `isr_handler` redirects an exception to `crash_stub`. No program of `asm_run` is running. -/
def faultRedirected (a : Apploader) : Bool := a.programRunning

/-- The program on fiber `i` ends its slice. After an exception that is not redirected the system
    is halted. -/
def endSlice (i : Fin fiberMax) (e : SliceEnd) (a : Apploader) : Option Apploader :=
  match e with
  | .yield => (fiberYield a.sched).map fun sched => { a with sched := sched }
  | .createWindow w h =>
    let a := syscallCreateWindow w h a
    (fiberYield a.sched).map fun sched => { a with sched := sched }
  | .exit => programReturns i a
  | .crash =>
    if faultRedirected a then programReturns i { a with programCrashed := true } else none

/-- What happens between the kernel and the programs. -/
inductive AppAction where
  /-- the kernel launches a program -/
  | launch (file : ProgramFile) (window : Option ℤ)
  /-- the kernel resumes the program of a slot -/
  | resume (slot : ℤ)
  /-- the running program ends its slice -/
  | slice (e : SliceEnd)

/-- One step; `none` when it is not possible or the system is halted. -/
def Apploader.step (a : Apploader) (act : AppAction) : Option Apploader :=
  match act, a.sched.stack with
  | .launch file window, none => launchBegin file window a
  | .resume slot, none => resumeBegin slot a
  | .slice e, some i => (endSlice i e a).map backInKernel
  | _, _ => none

/-- Code of a loaded program is executing. -/
def Apploader.InProgram (a : Apploader) : Prop :=
  ∃ (k : Fin appSlots) (i : Fin fiberMax), a.currentAppSlot = some k ∧
    (a.slots k).fiberId = (i : ℤ) ∧ a.sched.stack = some i ∧ a.entered i = true

section slices

variable {a : Apploader} {k : Fin appSlots} {i : Fin fiberMax}

theorem fiberResume_val (i : Fin fiberMax) (s : Sched) :
    fiberResume (i : ℤ) s = resumeFiber i s := by
  have hi := i.isLt
  rw [fiberResume, dif_pos (by omega)]
  congr 1

/-- Switching to a fiber that was just spawned: the program is entered. -/
theorem switchIn_fresh (hmain : a.sched.AtMain) (hid : (a.slots k).fiberId = (i : ℤ))
    (hready : (a.sched.fibers i).state = .ready)
    (hrsp : (a.sched.fibers i).rsp = some .trampoline) :
    ∃ sched, switchIn k a = some { a with
        currentAppSlot := some k, sched := sched, programCrashed := false, programRunning := true,
        entrySlot := Function.update a.entrySlot i k, entered :=
          Function.update a.entered i true } ∧
      sched.RunsFromMain i ∧ sched.entry = a.sched.entry ∧
      ∀ j, j ≠ i → sched.fibers j = a.sched.fibers j := by
  obtain ⟨sched, hrun, hfrom, hentry, hother⟩ := resumeFiber_fromMain hmain hready (.inl hrsp)
  refine ⟨sched, ?_, hfrom, hentry, hother⟩
  rw [switchIn, hid, fiberResume_val, hrun]
  simp only [hfrom.stack_eq, onFiber, hrsp, decide_true, if_true]

/-- Switching to a program that has yielded. -/
theorem switchIn_yielded (hmain : a.sched.AtMain) (hid : (a.slots k).fiberId = (i : ℤ))
    (hready : (a.sched.fibers i).state = .ready)
    (hrsp : (a.sched.fibers i).rsp = some .afterYield) (hlive : a.sched.entry i = .live) :
    ∃ sched, switchIn k a = some { a with currentAppSlot := some k, sched := sched } ∧
      sched.RunsFromMain i ∧ sched.entry = a.sched.entry ∧
      ∀ j, j ≠ i → sched.fibers j = a.sched.fibers j := by
  obtain ⟨sched, hrun, hfrom, hentry, hother⟩ := resumeFiber_fromMain hmain hready (.inr hrsp)
  refine ⟨sched, ?_, hfrom, hentry, hother⟩
  have hlive' : sched.entry i = .live := by rw [hentry, hlive]
  rw [switchIn, hid, fiberResume_val, hrun]
  simp [hfrom.stack_eq, onFiber, hrsp, hlive']

/-- The program returns: its slot is reset and its fiber is parked. -/
theorem programReturns_eq (hfrom : a.sched.RunsFromMain i) :
    ∃ sched, programReturns i a = some { a.modifySlot (a.entrySlot i) fun _ => .reset with
        programRunning := false, entered := Function.update a.entered i false, sched := sched } ∧
      sched.AtMain ∧ sched.entry = Function.update a.sched.entry i .returned ∧
      ∀ j, j ≠ i → sched.fibers j = a.sched.fibers j := by
  obtain ⟨sched, hrun, hmain, hentry, -, -, hother⟩ :=
    fiberYield_toMain (entryReturns_runsFromMain hfrom)
  refine ⟨sched, ?_, hmain, hentry, fun j hj => ?_⟩
  · simp only [programReturns, Apploader.modifySlot, hrun, Option.map_some]
  · rw [hother j hj]
    simp [entryReturns, hj]

/-- A launch fails and leaves at most a reset slot behind, or the program of the first unused slot
    starts on the first unused fiber. -/
theorem launchBegin_cases (hmain : a.sched.AtMain) {file : ProgramFile} {window : Option ℤ}
    {a' : Apploader} (ha' : launchBegin file window a = some a') :
    (a' = a ∧ (freeSlot a = none ∨ file = .missing)) ∨
      (∃ k, freeSlot a = some k ∧ (file = .unreadable ∨ freeFiber a.sched = none) ∧
        a' = a.modifySlot k fun _ => .reset) ∨
      ∃ k i sched, freeSlot a = some k ∧ file = .good ∧ freeFiber a.sched = some i ∧
        sched.RunsFromMain i ∧ sched.entry = Function.update a.sched.entry i .live ∧
        (∀ j, j ≠ i → sched.fibers j = a.sched.fibers j) ∧
        a' = { a.modifySlot k fun _ =>
            { AppSlot.reset with fiberId := (i : ℤ), state := .awaitingWindow } with
          currentAppSlot := some k, sched := sched, programCrashed := false, programRunning := true,
          entrySlot := Function.update a.entrySlot i k,
          entered := Function.update a.entered i true, waiting := .launch k window } := by
  rw [launchBegin] at ha'
  split at ha'
  · next hfree => exact .inl ⟨(Option.some.inj ha').symm, .inl hfree⟩
  · next k hfree =>
    cases file with
    | missing => exact .inl ⟨(Option.some.inj ha').symm, .inr rfl⟩
    | unreadable => exact .inr (.inl ⟨k, hfree, .inl rfl, (Option.some.inj ha').symm⟩)
    | good =>
      rw [if_neg (by decide), if_neg (by decide)] at ha'
      cases hfiber : freeFiber a.sched with
      | none =>
        simp only [fiberSpawn, Apploader.modifySlot, hfiber] at ha'
        exact .inr (.inl ⟨k, hfree, .inr rfl, (Option.some.inj ha').symm⟩)
      | some i =>
        simp only [fiberSpawn, Apploader.modifySlot, hfiber, Function.update_self,
          Function.update_idem] at ha'
        have hmain' : (fiberCreate i a.sched).AtMain := ⟨hmain.stack_eq, hmain.currentFiber_eq⟩
        obtain ⟨a₁, hswitch, hback⟩ := Option.map_eq_some_iff.mp ha'
        obtain ⟨sched, hrun, hfrom, hentry, hother⟩ := @switchIn_fresh
          { a.modifySlot k fun _ =>
              { AppSlot.reset with fiberId := (i : ℤ), state := .awaitingWindow } with
            sched := fiberCreate i a.sched, waiting := .launch k window }
          k i hmain' (by simp [Apploader.modifySlot]) (by simp [fiberCreate])
          (by simp [fiberCreate])
        obtain rfl := Option.some.inj (hswitch.symm.trans hrun)
        have hstack : ¬ sched.stack = none := by simp [hfrom.stack_eq]
        refine .inr (.inr ⟨k, i, sched, hfree, rfl, rfl, hfrom, hentry, fun j hj => ?_, ?_⟩)
        · rw [hother j hj]
          simp [fiberCreate, hj]
        · rw [← hback, backInKernel, if_pos hstack]
          rfl

theorem freeSlot_spec (hfree : freeSlot a = some k) : (a.slots k).state = .unused := by
  simpa using List.find?_some hfree

end slices

end AuroraOS.Apps
