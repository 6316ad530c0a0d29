import Mathlib.Data.Fintype.Card
import Mathlib.Logic.Function.Basic
import AuroraOS.Lib.Runs

/-!
# Fibers

The fiber table of `kernel/fiber.c` with `fiber_spawn`, `fiber_resume`, `fiber_yield` and
`fiber_trampoline`. A saved stack pointer is modelled by the place at which its stack continues;
`fiber_switch` of `boot.s` saves one and continues at another.

## Main definitions

- `Sched` — the state
- `fiberSpawn`, `fiberResume`, `fiberYield`, `entryReturns`
- `Sched.step` — one action of the code that is running
-/

namespace AuroraOS.Fibers

/-- `FIBER_MAX`. -/
abbrev fiberMax : ℕ := 8

/-- `enum fiber_state`. -/
inductive FiberState where
  | unused | ready | running
deriving DecidableEq

/-- A `struct fiber *`, or an index like `current_fiber`: `none` is the main context. -/
abbrev Context := Option (Fin fiberMax)

/-- Where a stack continues when `fiber_switch` switches to it. -/
inductive Continuation where
  /-- at the start of `fiber_trampoline`, as `fiber_create` prepared it -/
  | trampoline
  /-- at the end of `fiber_yield` -/
  | afterYield
  /-- in `fiber_resume`, which restores `current_fiber` -/
  | afterResume (prevFiber : Context)
deriving DecidableEq

/-- `struct fiber`; `none` stands for a pointer that is still zero. -/
structure Fiber where
  state : FiberState
  rsp : Option Continuation
  resumedBy : Option Context

/-- How far the code on a fiber's stack has come. -/
inductive EntryPhase where
  /-- nothing was ever spawned in this slot -/
  | vacant
  /-- the entry function has not returned -/
  | live
  /-- the entry function has returned; the trampoline only yields -/
  | returned
deriving DecidableEq

/-- The static variables of `fiber.c`, and what the processor is doing. -/
structure Sched where
  fibers : Fin fiberMax → Fiber
  mainRsp : Option Continuation
  currentFiber : Context
  /-- the context whose stack the processor uses -/
  stack : Context
  entry : Fin fiberMax → EntryPhase
  /-- some fiber was switched to after its entry function had returned -/
  switchedToReturned : Bool

/-- The state at boot. -/
def Sched.boot : Sched where
  fibers := fun _ => ⟨.unused, none, none⟩
  mainRsp := none
  currentFiber := none
  stack := none
  entry := fun _ => .vacant
  switchedToReturned := false

/-- Change one fiber. -/
def Sched.modifyFiber (s : Sched) (i : Fin fiberMax) (f : Fiber → Fiber) : Sched :=
  { s with fibers := Function.update s.fibers i (f (s.fibers i)) }

/-- The saved stack pointer of a context. -/
def Sched.rspOf (s : Sched) : Context → Option Continuation
  | none => s.mainRsp
  | some i => (s.fibers i).rsp

/-- Save a stack pointer. -/
def Sched.saveRsp (s : Sched) (k : Continuation) : Context → Sched
  | none => { s with mainRsp := some k }
  | some i => s.modifyFiber i fun fib => { fib with rsp := some k }

/-- Whether a context is a fiber whose entry function has returned. -/
def Sched.isReturned (s : Sched) : Context → Bool
  | none => false
  | some i => s.entry i = .returned

/-- `fiber_switch(&source->rsp, target->rsp)` with what the code does first on the new stack. -/
def fiberSwitch (source target : Context) (k : Continuation) (s : Sched) : Option Sched :=
  match s.rspOf target with
  | none => none
  | some next =>
    let s := { s.saveRsp k source with
      stack := target
      switchedToReturned := s.switchedToReturned || s.isReturned target }
    match next with
    | .trampoline => some s
    | .afterYield => some s
    | .afterResume prevFiber => some { s with currentFiber := prevFiber }

/-- `fiber_create` for an index in range. -/
def fiberCreate (i : Fin fiberMax) (s : Sched) : Sched :=
  { s.modifyFiber i fun fib => { fib with rsp := some .trampoline, state := .ready } with
    entry := Function.update s.entry i .live }

/-- The first unused slot. -/
def freeFiber (s : Sched) : Option (Fin fiberMax) :=
  (List.finRange fiberMax).find? fun i => (s.fibers i).state = .unused

/-- `fiber_spawn`, `none` for -1. -/
def fiberSpawn (s : Sched) : Option (Fin fiberMax) × Sched :=
  match freeFiber s with
  | some i => (some i, fiberCreate i s)
  | none => (none, s)

/-- `fiber_resume` for an index in range. -/
def resumeFiber (i : Fin fiberMax) (s : Sched) : Option Sched :=
  if (s.fibers i).state ≠ .ready then some s
  else
    let source := s.currentFiber
    fiberSwitch source (some i) (.afterResume s.currentFiber)
      { s.modifyFiber i fun fib => { fib with state := .running, resumedBy := some source } with
        currentFiber := some i }

/-- `fiber_resume`. -/
def fiberResume (idx : ℤ) (s : Sched) : Option Sched :=
  if h : 0 ≤ idx ∧ idx < fiberMax then resumeFiber ⟨idx.toNat, by omega⟩ s else some s

/-- `fiber_yield`. -/
def fiberYield (s : Sched) : Option Sched :=
  match s.currentFiber with
  | none => some s
  | some i =>
    match (s.fibers i).resumedBy with
    | none => none
    | some target =>
      fiberSwitch (some i) target .afterYield
        (s.modifyFiber i fun fib => { fib with state := .ready })

/-- The entry function of fiber `i` returns to `fiber_trampoline`. -/
def entryReturns (i : Fin fiberMax) (s : Sched) : Sched :=
  { s.modifyFiber i fun fib => { fib with state := .unused } with
    entry := Function.update s.entry i .returned }

/-- What the running code can do. -/
inductive Action where
  | spawn
  | resume (idx : ℤ)
  | yield
  /-- the entry function returns -/
  | ret

/-- One action; `none` when it is not possible. The trampoline of a fiber whose entry function has
    returned does nothing but yield. -/
def Sched.step (s : Sched) (a : Action) : Option Sched :=
  match a with
  | .spawn => if s.isReturned s.stack then none else some (fiberSpawn s).2
  | .resume idx => if s.isReturned s.stack then none else fiberResume idx s
  | .yield => fiberYield s
  | .ret =>
    match s.stack with
    | none => none
    | some i => if s.entry i = .live then some (entryReturns i s) else none

/-- The fibers whose entry function has not returned. -/
def Sched.liveFibers (s : Sched) : Finset (Fin fiberMax) :=
  Finset.univ.filter fun i => s.entry i = .live

theorem freeFiber_isSome (s : Sched) :
    (freeFiber s).isSome = true ↔ ∃ i, (s.fibers i).state = .unused := by
  simp [freeFiber, List.find?_isSome]

theorem freeFiber_spec {s : Sched} {i : Fin fiberMax} (h : freeFiber s = some i) :
    (s.fibers i).state = .unused := by
  simpa using List.find?_some h

@[simp]
theorem modifyFiber_self (s : Sched) (i : Fin fiberMax) (f : Fiber → Fiber) :
    (s.modifyFiber i f).fibers i = f (s.fibers i) := by
  simp [Sched.modifyFiber]

@[simp]
theorem modifyFiber_ne (s : Sched) {i j : Fin fiberMax} (h : j ≠ i) (f : Fiber → Fiber) :
    (s.modifyFiber i f).fibers j = s.fibers j := by
  simp [Sched.modifyFiber, h]

section fromMain

variable {s : Sched} {i : Fin fiberMax}

/-- The main context runs. -/
structure Sched.AtMain (s : Sched) : Prop where
  stack_eq : s.stack = none
  currentFiber_eq : s.currentFiber = none

/-- Fiber `i` runs, and the main context waits for it. -/
structure Sched.RunsFromMain (s : Sched) (i : Fin fiberMax) : Prop where
  stack_eq : s.stack = some i
  currentFiber_eq : s.currentFiber = some i
  resumedBy_eq : (s.fibers i).resumedBy = some none
  mainRsp_eq : s.mainRsp = some (.afterResume none)

/-- The main context resumes a fiber. -/
theorem resumeFiber_fromMain (h : s.AtMain) (hready : (s.fibers i).state = .ready)
    (hrsp : (s.fibers i).rsp = some .trampoline ∨ (s.fibers i).rsp = some .afterYield) :
    ∃ s', resumeFiber i s = some s' ∧ s'.RunsFromMain i ∧ s'.entry = s.entry ∧
      ∀ j, j ≠ i → s'.fibers j = s.fibers j := by
  have hrun : resumeFiber i s = some
      { s.modifyFiber i fun fib => { fib with state := .running, resumedBy := some none } with
        mainRsp := some (.afterResume none), currentFiber := some i, stack := some i,
        switchedToReturned := s.switchedToReturned || s.isReturned (some i) } := by
    rw [resumeFiber, if_neg (by simp [hready])]
    simp only [fiberSwitch, Sched.rspOf, modifyFiber_self, h.currentFiber_eq, Sched.saveRsp]
    obtain hr | hr := hrsp <;> simp [hr, Sched.isReturned, Sched.modifyFiber]
  exact ⟨_, hrun, ⟨rfl, rfl, by simp, rfl⟩, rfl, fun j hj => by simp [hj]⟩

/-- The fiber yields. -/
theorem fiberYield_toMain (h : s.RunsFromMain i) :
    ∃ s', fiberYield s = some s' ∧ s'.AtMain ∧ s'.entry = s.entry ∧
      (s'.fibers i).state = .ready ∧ (s'.fibers i).rsp = some .afterYield ∧
      ∀ j, j ≠ i → s'.fibers j = s.fibers j := by
  have hrun : fiberYield s = some
      { (s.modifyFiber i fun fib => { fib with state := .ready }).modifyFiber i fun fib =>
          { fib with rsp := some .afterYield } with
        stack := none, currentFiber := none } := by
    have hmain : (s.modifyFiber i fun fib => { fib with state := .ready }).rspOf none =
        some (.afterResume none) := h.mainRsp_eq
    simp only [fiberYield, h.currentFiber_eq, h.resumedBy_eq, fiberSwitch, hmain, Sched.isReturned,
      Bool.or_false, Sched.saveRsp]
    rfl
  exact ⟨_, hrun, ⟨rfl, rfl⟩, rfl, by simp, by simp, fun j hj => by simp [hj]⟩

/-- Its entry function returns. -/
theorem entryReturns_runsFromMain (h : s.RunsFromMain i) : (entryReturns i s).RunsFromMain i :=
  ⟨h.stack_eq, h.currentFiber_eq, by simpa [entryReturns] using h.resumedBy_eq, h.mainRsp_eq⟩

end fromMain

end AuroraOS.Fibers
