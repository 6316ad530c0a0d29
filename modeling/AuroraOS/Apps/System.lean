import AuroraOS.Apps.Apploader
import AuroraOS.Wm.Effects

/-!
# The window manager with loaded programs

The window table of `wm.c` together with `apploader.c`: `wm_launch_app` with the first slice of the
program, and frames in which `paint_apploader` resumes the program of each window it paints. All
other events touch the window table only.

## Main definitions

- `System`, `SysEvent`, `System.step`
- `AtRest` — the programs are at rest between the events
-/

namespace AuroraOS.Apps

open AuroraOS.Fibers AuroraOS.Wm

/-- The window manager and the loaded programs. -/
structure System where
  desk : Desktop
  apps : Apploader

/-- The state after `wm_init`. -/
def System.boot (screenW screenH : ℤ) (naturalSize : Paint → ℤ × ℤ) : System :=
  ⟨wmInit screenW screenH naturalSize, .boot⟩

/-- The running program, if there is one, ends its slice. -/
def runSlice (e : SliceEnd) (a : Apploader) : Option Apploader :=
  match a.sched.stack with
  | none => some a
  | some i => (endSlice i e a).map backInKernel

/-- `apploader_slot_is_alive`. -/
def slotIsAlive (a : Apploader) (slot : ℤ) : Bool :=
  if h : 0 ≤ slot ∧ slot < appSlots then
    (a.slots ⟨slot.toNat, toNat_lt_appSlots h⟩).state = .running
  else false

theorem slotIsAlive_val (a : Apploader) (k : Fin appSlots) :
    slotIsAlive a (k : ℤ) = decide ((a.slots k).state = .running) := by
  have hk := k.isLt
  rw [slotIsAlive, dif_pos (by omega)]
  simp

theorem running_of_slotIsAlive {a : Apploader} {slot : ℤ} (h : slotIsAlive a slot = true) :
    ∃ k : Fin appSlots, slot = (k : ℤ) ∧ (a.slots k).state = .running := by
  rw [slotIsAlive] at h
  split at h
  · next hrange => exact ⟨⟨slot.toNat, by omega⟩, by simp only; omega, of_decide_eq_true h⟩
  · exact absurd h (by decide)

/-- `wm_launch_app`; `e` ends the first slice of the program. -/
def System.launch (filename : String) (file : ProgramFile) (e : SliceEnd) (s : System) :
    Option System :=
  match freeSlot s.apps with
  | none => some s
  | some k =>
    match launchBegin file ((freeWindow s.desk).map fun i => (i : ℤ)) s.apps with
    | none => none
    | some apps =>
      match runSlice e apps with
      | none => none
      | some apps =>
        let slot := apps.slots k
        let loaded :=
          if slot.state = .unused then none else some ((k : ℤ), slot.pendingW, slot.pendingH)
        (wmLaunchApp filename loaded s.desk).map fun desk => ⟨desk, apps⟩

/-- `paint_apploader` for window `idx`; `e` ends the slice of its program. -/
def System.paintApploader (e : SliceEnd) (idx : Fin maxWindows) (s : System) : Option System :=
  let slot := s.desk.apploaderWindowSlot idx
  if ¬ slotIsAlive s.apps slot then
    some { s with desk := s.desk.modifyWindow idx fun win => { win with used := false } }
  else
    match resumeBegin slot s.apps with
    | none => none
    | some apps => (runSlice e apps).map fun apps => { s with apps := apps }

/-- `draw_window`, as far as the programs are concerned. -/
def System.drawWindow (e : SliceEnd) (idx : Fin maxWindows) (s : System) : Option System :=
  if (s.desk.windows idx).paint = .apploader then s.paintApploader e idx else some s

/-- The draw loop of `wm_run`: `n` places of `window_order` from `i` on. The program painted at
    place `i` ends its slice with `slices i`. -/
def System.drawLoop (slices : ℕ → SliceEnd) : ℕ → ℕ → System → Option System
  | 0, _, s => some s
  | n + 1, i, s =>
    match s.desk.orderAt i with
    | none => none
    | some idx =>
      match (if (s.desk.windows idx).visible then s.drawWindow (slices i) idx else some s) with
      | none => none
      | some s => drawLoop slices n (i + 1) s

/-- One frame of `wm_run`. -/
def System.frame (slices : ℕ → SliceEnd) (stringWidth : String → ℤ) (bx bxMax : ℤ) (s : System) :
    Option System :=
  match findTopmostVisible s.desk with
  | none => none
  | some top =>
    match System.drawLoop slices s.desk.windowCount 0
        { s with desk := { s.desk with topmostVisible := top } } with
    | none => none
    | some s =>
      match taskbarLoop stringWidth bxMax s.desk s.desk.windowCount 0 bx [] with
      | none => none
      | some buttons => some { s with desk := { s.desk with taskbarButtons := buttons } }

/-- What can happen. -/
inductive SysEvent where
  | openApp (appIndex : ℕ)
  | launch (filename : String) (file : ProgramFile) (e : SliceEnd)
  | click (x y : ℤ)
  | held (mx my : ℤ)
  | release
  | rescale (naturalSize : Paint → ℤ × ℤ)
  | exit
  | frame (slices : ℕ → SliceEnd) (stringWidth : String → ℤ) (bx bxMax : ℤ)

/-- An event that touches the window table only. -/
def System.onDesk (e : WmEvent) (s : System) : Option System :=
  (Desktop.step e s.desk).map fun desk => { s with desk := desk }

/-- One step of the system. -/
def System.step (s : System) : SysEvent → Option System
  | .openApp appIndex => s.onDesk (.openApp appIndex)
  | .launch filename file e => s.launch filename file e
  | .click x y => s.onDesk (.click x y)
  | .held mx my => s.onDesk (.held mx my)
  | .release => s.onDesk .release
  | .rescale naturalSize => s.onDesk (.rescale naturalSize)
  | .exit => s.onDesk .exit
  | .frame slices stringWidth bx bxMax => s.frame slices stringWidth bx bxMax

section frames

variable {P : System → Prop}

/-- What painting a window keeps, the draw loop keeps. -/
theorem drawLoop_keeps
    (hpaint : ∀ s s' e idx, P s → s.paintApploader e idx = some s' → P s') (slices : ℕ → SliceEnd)
    {n i : ℕ} {s s' : System} (h : P s) (hs' : System.drawLoop slices n i s = some s') : P s' := by
  induction n generalizing i s with
  | zero => exact Option.some.inj hs' ▸ h
  | succ n ih =>
    rw [System.drawLoop] at hs'
    split at hs'
    · exact absurd hs' (by simp)
    · next idx _ =>
      split at hs'
      · exact absurd hs' (by simp)
      · next s₁ hdraw =>
        refine ih ?_ hs'
        split at hdraw
        · rw [System.drawWindow] at hdraw
          split at hdraw
          · exact hpaint _ _ _ _ h hdraw
          · exact Option.some.inj hdraw ▸ h
        · exact Option.some.inj hdraw ▸ h

/-- A property of the windows and the programs that painting keeps, a frame keeps. -/
theorem frame_keeps
    (hpaint : ∀ s s' e idx, P s → s.paintApploader e idx = some s' → P s')
    (hdesk : ∀ s top buttons, P s →
      P { s with desk := { s.desk with topmostVisible := top, taskbarButtons := buttons } })
    {s s' : System} (h : P s) {slices : ℕ → SliceEnd} {stringWidth : String → ℤ} {bx bxMax : ℤ}
    (hs' : s.frame slices stringWidth bx bxMax = some s') : P s' := by
  rw [System.frame] at hs'
  split at hs'
  · exact absurd hs' (by simp)
  · next top _ =>
    split at hs'
    · exact absurd hs' (by simp)
    · next s₁ hdraw =>
      split at hs'
      · exact absurd hs' (by simp)
      · obtain rfl := Option.some.inj hs'
        exact hdesk _ _ _ (drawLoop_keeps hpaint slices (hdesk s top _ h) hdraw)

end frames

/-- A slot whose program can be resumed. -/
structure Resumable (a : Apploader) (k : Fin appSlots) (i : Fin fiberMax) : Prop where
  fiberId_eq : (a.slots k).fiberId = (i : ℤ)
  createWindowOk_eq : (a.slots k).createWindowOk = true
  pending_le : (a.slots k).pendingW ≤ 640 ∧ (a.slots k).pendingH ≤ 480
  ready : (a.sched.fibers i).state = .ready
  rsp_eq : (a.sched.fibers i).rsp = some .afterYield
  live : a.sched.entry i = .live
  entrySlot_eq : a.entrySlot i = k

/-- Between the events the kernel runs and every program in use can be resumed. -/
structure AtRest (a : Apploader) : Prop where
  atMain : a.sched.AtMain
  currentAppSlot_eq : a.currentAppSlot = none
  resumable : ∀ k, (a.slots k).state ≠ .unused → ∃ i, Resumable a k i

/-- The program of slot `k` runs on fiber `i`; all others can be resumed. -/
structure InSlice (a : Apploader) (k : Fin appSlots) (i : Fin fiberMax) : Prop where
  fromMain : a.sched.RunsFromMain i
  currentAppSlot_eq : a.currentAppSlot = some k
  fiberId_eq : (a.slots k).fiberId = (i : ℤ)
  pending_le : (a.slots k).createWindowOk = true →
    (a.slots k).pendingW ≤ 640 ∧ (a.slots k).pendingH ≤ 480
  live : a.sched.entry i = .live
  entrySlot_eq : a.entrySlot i = k
  others : ∀ k', k' ≠ k → (a.slots k').state ≠ .unused → ∃ j, j ≠ i ∧ Resumable a k' j

section rest

variable {a a' : Apploader} {k : Fin appSlots} {i : Fin fiberMax}

theorem boot_atRest : AtRest .boot := ⟨⟨rfl, rfl⟩, rfl, fun _ h => absurd rfl h⟩

theorem Resumable.congr {j : Fin fiberMax} (h : Resumable a k j) (hslot : a'.slots k = a.slots k)
    (hfiber : a'.sched.fibers j = a.sched.fibers j) (hentry : a'.sched.entry j = a.sched.entry j)
    (hlocal : a'.entrySlot j = a.entrySlot j) : Resumable a' k j :=
  ⟨hslot ▸ h.fiberId_eq, hslot ▸ h.createWindowOk_eq, hslot ▸ h.pending_le, hfiber ▸ h.ready,
    hfiber ▸ h.rsp_eq, hentry.trans h.live, hlocal.trans h.entrySlot_eq⟩

/-- A program asks for a window. -/
theorem syscallCreateWindow_inSlice (h : InSlice a k i) (w height : ℤ) :
    InSlice (syscallCreateWindow w height a) k i ∧
      (syscallCreateWindow w height a).waiting = a.waiting ∧
      (∀ k', k' ≠ k → (syscallCreateWindow w height a).slots k' = a.slots k') ∧
      ((syscallCreateWindow w height a).slots k).state = (a.slots k).state ∧
      ((syscallCreateWindow w height a).slots k).windowId = (a.slots k).windowId ∧
      ((syscallCreateWindow w height a).slots k).createWindowOk = true ∧
      ((a.slots k).createWindowOk = true →
        (syscallCreateWindow w height a).slots k = a.slots k) := by
  simp only [syscallCreateWindow, h.currentAppSlot_eq]
  split
  · next hok => exact ⟨h, rfl, fun _ _ => rfl, rfl, rfl, hok, fun _ => rfl⟩
  · next hok =>
    refine ⟨⟨h.fromMain, h.currentAppSlot_eq, ?_, ?_, h.live, h.entrySlot_eq, ?_⟩, rfl,
      ?_, ?_, ?_, ?_, fun hok' => absurd hok' hok⟩
    · simpa [Apploader.modifySlot] using h.fiberId_eq
    · intro _
      simp only [Apploader.modifySlot, Function.update_self]
      split <;> split <;> omega
    · intro k' hk hused
      have hsame : (a.modifySlot k fun slot => { slot with
          pendingW := if (if w < 100 then 100 else w) > 640 then 640 else if w < 100 then 100 else w
          pendingH := if (if height < 80 then 80 else height) > 480 then 480
            else if height < 80 then 80 else height
          createWindowOk := true }).slots k' = a.slots k' := by
        simp [Apploader.modifySlot, hk]
      rw [hsame] at hused
      obtain ⟨j, hj, hres⟩ := h.others k' hk hused
      exact ⟨j, hj, hres.congr hsame rfl rfl rfl⟩
    · intro k' hk
      simp [Apploader.modifySlot, hk]
    all_goals simp [Apploader.modifySlot]

/-- What the end of a slice leaves in the program's slot. -/
inductive SliceResult (a a' : Apploader) (k : Fin appSlots) (i : Fin fiberMax) : SliceEnd → Prop
  | yielded : a'.slots k = a.slots k →
      ((a.slots k).createWindowOk = true → Resumable a' k i) → SliceResult a a' k i .yield
  | asked {w h : ℤ} : (a'.slots k).state = (a.slots k).state →
      (a'.slots k).windowId = (a.slots k).windowId →
      ((a.slots k).createWindowOk = true → a'.slots k = a.slots k) → Resumable a' k i →
      SliceResult a a' k i (.createWindow w h)
  | exited : a'.slots k = .reset → SliceResult a a' k i .exit
  | crashed : a'.slots k = .reset → SliceResult a a' k i .crash

/-- The program yields: it can be resumed if it has asked for its window. -/
theorem yield_inSlice (h : InSlice a k i)
    (ha' : ((fiberYield a.sched).map fun sched => { a with sched := sched }) = some a') :
    a'.sched.AtMain ∧ a'.waiting = a.waiting ∧ a'.slots = a.slots ∧
      (∀ k', k' ≠ k → (a'.slots k').state ≠ .unused → ∃ j, Resumable a' k' j) ∧
      ((a.slots k).createWindowOk = true → Resumable a' k i) := by
  obtain ⟨sched, hrun, hmain, hentry, hready, hrsp, hother⟩ := fiberYield_toMain h.fromMain
  rw [hrun, Option.map_some] at ha'
  obtain rfl := Option.some.inj ha'
  refine ⟨hmain, rfl, rfl, ?_, fun hok => ?_⟩
  · intro k' hk hused
    obtain ⟨j, hj, hres⟩ := h.others k' hk hused
    exact ⟨j, hres.congr rfl (hother j hj) (congrFun hentry j) rfl⟩
  · exact ⟨h.fiberId_eq, hok, h.pending_le hok, hready, hrsp, (congrFun hentry i).trans h.live,
      h.entrySlot_eq⟩

/-- The program returns: its slot is free again. -/
theorem programReturns_inSlice (h : InSlice a k i) (ha' : programReturns i a = some a') :
    a'.sched.AtMain ∧ a'.waiting = a.waiting ∧ (∀ k', k' ≠ k → a'.slots k' = a.slots k') ∧
      (∀ k', k' ≠ k → (a'.slots k').state ≠ .unused → ∃ j, Resumable a' k' j) ∧
      a'.slots k = .reset := by
  obtain ⟨sched, hrun, hmain, hentry, hother⟩ := programReturns_eq h.fromMain
  obtain rfl := Option.some.inj (hrun.symm.trans ha')
  have hsame : ∀ k', k' ≠ k → (a.modifySlot (a.entrySlot i) fun _ => .reset).slots k' =
    a.slots k' := by
    intro k' hk
    simp [Apploader.modifySlot, h.entrySlot_eq, hk]
  refine ⟨hmain, rfl, hsame, ?_, by simp [Apploader.modifySlot, h.entrySlot_eq]⟩
  intro k' hk hused
  obtain ⟨j, hj, hres⟩ := h.others k' hk (by rwa [hsame k' hk] at hused)
  refine ⟨j, hres.congr (hsame k' hk) (hother j hj) ?_ rfl⟩
  simp [hentry, hj]

/-- The end of a slice. -/
theorem endSlice_spec (h : InSlice a k i) {e : SliceEnd} (ha' : endSlice i e a = some a') :
    a'.sched.AtMain ∧ a'.waiting = a.waiting ∧ (∀ k', k' ≠ k → a'.slots k' = a.slots k') ∧
      (∀ k', k' ≠ k → (a'.slots k').state ≠ .unused → ∃ j, Resumable a' k' j) ∧
      SliceResult a a' k i e := by
  cases e with
  | yield =>
    obtain ⟨hmain, hwait, hslots, hothers, hres⟩ := yield_inSlice h ha'
    exact ⟨hmain, hwait, fun k' _ => congrFun hslots k', hothers, .yielded (congrFun hslots k) hres⟩
  | createWindow w height =>
    obtain ⟨h₁, hwait₁, hslots₁, hstate, hwindow, hok, hsame⟩ :=
      syscallCreateWindow_inSlice h w height
    obtain ⟨hmain, hwait, hslots, hothers, hres⟩ := yield_inSlice h₁ ha'
    refine ⟨hmain, hwait.trans hwait₁, fun k' hk => (congrFun hslots k').trans (hslots₁ k' hk),
      hothers, .asked ?_ ?_ ?_ (hres hok)⟩
    · rw [hslots, hstate]
    · rw [hslots, hwindow]
    · intro hok'
      rw [hslots, hsame hok']
  | exit =>
    obtain ⟨hmain, hwait, hslots, hothers, hreset⟩ := programReturns_inSlice h ha'
    exact ⟨hmain, hwait, hslots, hothers, .exited hreset⟩
  | crash =>
    simp only [endSlice] at ha'
    split at ha'
    · have h' : InSlice { a with programCrashed := true } k i :=
        ⟨h.fromMain, h.currentAppSlot_eq, h.fiberId_eq, h.pending_le, h.live, h.entrySlot_eq,
          fun k' hk hused => by
            obtain ⟨j, hj, hres⟩ := h.others k' hk hused
            exact ⟨j, hj, hres.congr rfl rfl rfl rfl⟩⟩
      obtain ⟨hmain, hwait, hslots, hothers, hreset⟩ := programReturns_inSlice h' ha'
      exact ⟨hmain, hwait, hslots, hothers, .crashed hreset⟩
    · exact absurd ha' (by simp)

/-- Resuming the program of a slot for one slice. -/
theorem resumeSlice_spec (h : AtRest a) (hrunning : (a.slots k).state = .running) {a₁ : Apploader}
    (hbegin : resumeBegin (k : ℤ) a = some a₁) {e : SliceEnd} (hend : runSlice e a₁ = some a') :
    AtRest a' ∧ (∀ k', k' ≠ k → a'.slots k' = a.slots k') ∧
      (a'.slots k = a.slots k ∨ (a'.slots k).state = .unused) := by
  obtain ⟨i, hres⟩ := h.resumable k (by simp [hrunning])
  have hk := k.isLt
  obtain ⟨sched, hswitch, hfrom, hentry, hother⟩ := @switchIn_yielded { a with waiting := .resume }
    k i h.atMain hres.fiberId_eq hres.ready hres.rsp_eq hres.live
  have hstart : resumeBegin (k : ℤ) a =
      some { a with currentAppSlot := some k, sched := sched, waiting := .resume } := by
    rw [resumeBegin, dif_pos (by omega)]
    simp only [Int.toNat_natCast, Fin.eta, hrunning, ne_eq, not_true_eq_false, if_false, hswitch,
      Option.map_some]
    rw [backInKernel, if_pos (by simp [hfrom.stack_eq])]
  obtain rfl := Option.some.inj (hstart.symm.trans hbegin)
  have hslice :
    InSlice { a with currentAppSlot := some k, sched := sched, waiting := .resume } k i := by
    refine ⟨hfrom, rfl, hres.fiberId_eq, fun _ =>
      hres.pending_le, (congrFun hentry i).trans hres.live,
      hres.entrySlot_eq, fun k' hk' hused => ?_⟩
    obtain ⟨j, hresj⟩ := h.resumable k' hused
    have hj : j ≠ i := by
      intro hji
      subst hji
      exact hk' (hresj.entrySlot_eq.symm.trans hres.entrySlot_eq)
    exact ⟨j, hj, hresj.congr rfl (hother j hj) (congrFun hentry j) rfl⟩
  simp only [runSlice, hfrom.stack_eq] at hend
  obtain ⟨a₂, hend₂, rfl⟩ := Option.map_eq_some_iff.mp hend
  obtain ⟨hmain, hwait, hslots, hothers, hresult⟩ := endSlice_spec hslice hend₂
  have hback : backInKernel a₂ = { a₂ with currentAppSlot := none, waiting := .nothing } := by
    rw [backInKernel, if_neg (not_not.mpr hmain.stack_eq), hwait]
  have hcongr : ∀ {k' j}, Resumable a₂ k' j → Resumable (backInKernel a₂) k' j := by
    intro k' j hj
    rw [hback]
    exact hj.congr rfl rfl rfl rfl
  have hslotsBack : (backInKernel a₂).slots = a₂.slots := by rw [hback]
  have hslot : (a₂.slots k = a.slots k ∧ Resumable a₂ k i) ∨ (a₂.slots k).state = .unused := by
    cases hresult with
    | yielded hsame hres' => exact .inl ⟨hsame, hres' hres.createWindowOk_eq⟩
    | asked _ _ hsame hres' => exact .inl ⟨hsame hres.createWindowOk_eq, hres'⟩
    | exited hreset => exact .inr (by rw [hreset]; rfl)
    | crashed hreset => exact .inr (by rw [hreset]; rfl)
  refine ⟨⟨by rw [hback]; exact hmain, by rw [hback], fun k' hused => ?_⟩, ?_, ?_⟩
  · rw [hslotsBack] at hused
    by_cases hk' : k' = k
    · subst hk'
      obtain ⟨-, hres'⟩ | hunused := hslot
      · exact ⟨i, hcongr hres'⟩
      · exact absurd hunused hused
    · obtain ⟨j, hj⟩ := hothers k' hk' hused
      exact ⟨j, hcongr hj⟩
  · intro k' hk'
    rw [hslotsBack]
    exact hslots k' hk'
  · rw [hslotsBack]
    exact hslot.imp_left And.left

/-- The program is read, finds a fiber and asks for a window in its first slice. -/
def LoadSucceeds (a : Apploader) (file : ProgramFile) (e : SliceEnd) : Prop :=
  file = .good ∧ (freeFiber a.sched).isSome = true ∧ ∃ w h, e = .createWindow w h

/-- Back in `wm_launch_app` with a program that does not want a window: its slot is free again. -/
theorem backInKernel_failed {window : Option ℤ} (hmain : a.sched.AtMain)
    (hwait : a.waiting = .launch k window)
    (hfail : (a.slots k).state = .unused ∨ (a.slots k).createWindowOk = false) :
    (backInKernel a).sched = a.sched ∧ (backInKernel a).currentAppSlot = none ∧
      (backInKernel a).entrySlot = a.entrySlot ∧
      ((backInKernel a).slots k).state = .unused ∧
      ∀ k', k' ≠ k → (backInKernel a).slots k' = a.slots k' := by
  rw [backInKernel, if_neg (not_not.mpr hmain.stack_eq), hwait]
  simp only [loadEnd]
  by_cases hunused : (a.slots k).state = .unused
  · simp [hunused]
  · have hok : (a.slots k).createWindowOk = false := hfail.resolve_left hunused
    simp only [hunused, if_false, hok, Bool.false_eq_true, not_false_iff, if_true]
    refine ⟨rfl, rfl, rfl, by simp [Apploader.modifySlot, AppSlot.reset], fun k' hk => ?_⟩
    simp [Apploader.modifySlot, hk]

/-- Back in `wm_launch_app` with a program that wants a window. -/
theorem backInKernel_loaded {window : Option ℤ} (hmain : a.sched.AtMain)
    (hwait : a.waiting = .launch k window) (hused : (a.slots k).state = .awaitingWindow)
    (hok : (a.slots k).createWindowOk = true) (hid : (a.slots k).windowId = -1) :
    (backInKernel a).sched = a.sched ∧ (backInKernel a).currentAppSlot = none ∧
      (backInKernel a).entrySlot = a.entrySlot ∧
      (backInKernel a).slots k = { a.slots k with
        windowId := window.getD (-1)
        state := if window.isSome then .running else .awaitingWindow } ∧
      ∀ k', k' ≠ k → (backInKernel a).slots k' = a.slots k' := by
  rw [backInKernel, if_neg (not_not.mpr hmain.stack_eq), hwait]
  simp only [loadEnd, hused, hok, reduceCtorEq, if_false, not_true_eq_false]
  cases window with
  | none =>
    refine ⟨rfl, rfl, rfl, ?_, fun _ _ => rfl⟩
    cases hs : a.slots k with
    | mk state fiberId windowId pendingW pendingH createWindowOk =>
      rw [hs] at hused hok hid
      simp_all
  | some id =>
    refine ⟨rfl, rfl, rfl, by simp [attachWindow, Apploader.modifySlot, hok], fun k' hk => ?_⟩
    simp [attachWindow, Apploader.modifySlot, hk]

/-- Launching a program with its first slice. -/
theorem launchSlice_spec (h : AtRest a) (hfree : freeSlot a = some k) {file : ProgramFile}
    {window : Option ℤ} {a₁ : Apploader} (hbegin : launchBegin file window a = some a₁)
    {e : SliceEnd} (hend : runSlice e a₁ = some a') :
    AtRest a' ∧ (∀ k', k' ≠ k → a'.slots k' = a.slots k') ∧
      ((¬ LoadSucceeds a file e ∧ (a'.slots k).state = .unused) ∨
        (LoadSucceeds a file e ∧ (a'.slots k).windowId = window.getD (-1) ∧
          (a'.slots k).state = if window.isSome then .running else .awaitingWindow)) := by
  have hunused := freeSlot_spec hfree
  obtain ⟨rfl, hfail⟩ | ⟨k₁, hk₁, hfail, rfl⟩ |
      ⟨k₁, i, sched, hk₁, rfl, hfiber, hfrom, hentry, hother, rfl⟩ :=
    launchBegin_cases h.atMain hbegin
  · -- no such file
    simp only [runSlice, h.atMain.stack_eq] at hend
    obtain rfl := Option.some.inj hend
    refine ⟨h, fun _ _ => rfl, .inl ⟨?_, hunused⟩⟩
    rintro ⟨rfl, -⟩
    simp [hfree] at hfail
  · -- the file cannot be read, or no fiber is free
    obtain rfl := Option.some.inj (hk₁.symm.trans hfree)
    have hstack : (a.modifySlot k₁ fun _ => .reset).sched.stack = none := h.atMain.stack_eq
    simp only [runSlice, hstack] at hend
    obtain rfl := Option.some.inj hend
    have hsame : ∀ k', k' ≠ k₁ → (a.modifySlot k₁ fun _ => .reset).slots k' = a.slots k' := by
      intro k' hk
      simp [Apploader.modifySlot, hk]
    have hreset : ((a.modifySlot k₁ fun _ => .reset).slots k₁).state = .unused := by
      simp [Apploader.modifySlot, AppSlot.reset]
    refine ⟨⟨h.atMain, h.currentAppSlot_eq, fun k' hused => ?_⟩, hsame, .inl ⟨?_, hreset⟩⟩
    · have hk : k' ≠ k₁ := fun hk => hused (hk ▸ hreset)
      obtain ⟨j, hj⟩ := h.resumable k' (by rwa [hsame k' hk] at hused)
      exact ⟨j, hj.congr (hsame k' hk) rfl rfl rfl⟩
    · rintro ⟨rfl, hsome, -⟩
      simp only [reduceCtorEq, false_or] at hfail
      simp [hfail] at hsome
  · -- the program runs
    obtain rfl := Option.some.inj (hk₁.symm.trans hfree)
    have hsuccess : LoadSucceeds a .good e ↔ ∃ w h, e = .createWindow w h := by
      simp [LoadSucceeds, hfiber]
    generalize ha₁ : ({ a.modifySlot k₁ fun _ =>
        { AppSlot.reset with fiberId := (i : ℤ), state := .awaitingWindow } with
      currentAppSlot := some k₁, sched := sched, programCrashed := false, programRunning := true,
      entrySlot := Function.update a.entrySlot i k₁,
      entered := Function.update a.entered i true, waiting := .launch k₁ window } : Apploader) = a₁
      at hend
    have hsame : ∀ k', k' ≠ k₁ → a₁.slots k' = a.slots k' := by
      intro k' hk
      simp [← ha₁, Apploader.modifySlot, hk]
    have hslot : a₁.slots k₁ =
        { AppSlot.reset with fiberId := (i : ℤ), state := .awaitingWindow } := by
      simp [← ha₁, Apploader.modifySlot]
    have hwait₁ : a₁.waiting = .launch k₁ window := by rw [← ha₁]
    have hsched : a₁.sched = sched := by rw [← ha₁]
    have hlocal : a₁.entrySlot = Function.update a.entrySlot i k₁ := by rw [← ha₁]
    have hslice : InSlice a₁ k₁ i := by
      refine ⟨hsched ▸ hfrom, by rw [← ha₁], by rw [hslot], ?_, ?_, by simp [hlocal], ?_⟩
      · intro hok
        rw [hslot] at hok
        exact absurd hok (by simp [AppSlot.reset])
      · simp [hsched, hentry]
      · intro k' hk hused
        rw [hsame k' hk] at hused
        obtain ⟨j, hj⟩ := h.resumable k' hused
        have hji : j ≠ i := by
          intro hji
          have hready := hj.ready
          rw [hji, freeFiber_spec hfiber] at hready
          exact absurd hready (by simp)
        refine ⟨j, hji, hj.congr (hsame k' hk) ?_ ?_ ?_⟩
        · rw [hsched, hother j hji]
        · simp [hsched, hentry, hji]
        · simp [hlocal, hji]
    simp only [runSlice, hsched, hfrom.stack_eq] at hend
    obtain ⟨a₂, hend₂, rfl⟩ := Option.map_eq_some_iff.mp hend
    obtain ⟨hmain, hwait, hslots, hothers, hresult⟩ := endSlice_spec hslice hend₂
    -- the other slots, whatever the outcome
    have hrest : ∀ a₃ : Apploader, a₃.sched = a₂.sched → a₃.entrySlot = a₂.entrySlot →
        (∀ k', k' ≠ k₁ → a₃.slots k' = a₂.slots k') → ∀ k', k' ≠ k₁ →
        (a₃.slots k').state ≠ .unused → ∃ j, Resumable a₃ k' j := by
      intro a₃ hs hl hsl k' hk hused
      obtain ⟨j, hj⟩ := hothers k' hk (by rwa [hsl k' hk] at hused)
      exact ⟨j, hj.congr (hsl k' hk) (by rw [hs]) (by rw [hs]) (by rw [hl])⟩
    have hfailed : ((a₂.slots k₁).state = .unused ∨ (a₂.slots k₁).createWindowOk = false) →
        (∀ w h, e ≠ .createWindow w h) →
        AtRest (backInKernel a₂) ∧ (∀ k', k' ≠ k₁ → (backInKernel a₂).slots k' = a.slots k') ∧
          ((¬ LoadSucceeds a .good e ∧ ((backInKernel a₂).slots k₁).state = .unused) ∨
            (LoadSucceeds a .good e ∧
              ((backInKernel a₂).slots k₁).windowId = window.getD (-1) ∧
              ((backInKernel a₂).slots k₁).state =
                if window.isSome then .running else .awaitingWindow)) := by
      intro hfail hnot
      obtain ⟨hs, hc, hl, hun, hsl⟩ := backInKernel_failed hmain (hwait.trans hwait₁) hfail
      refine ⟨⟨hs ▸ hmain, hc, fun k' hused => ?_⟩, fun k' hk => ?_, .inl ⟨?_, hun⟩⟩
      · have hk : k' ≠ k₁ := fun hk => hused (hk ▸ hun)
        exact hrest _ hs hl hsl k' hk hused
      · rw [hsl k' hk, hslots k' hk, hsame k' hk]
      · rw [hsuccess]
        rintro ⟨w, height, rfl⟩
        exact hnot w height rfl
    cases hresult with
    | yielded hsl _ =>
      refine hfailed (.inr ?_) (fun _ _ => by simp)
      rw [hsl, hslot]
      rfl
    | exited hreset => exact hfailed (.inl (by rw [hreset]; rfl)) (fun _ _ => by simp)
    | crashed hreset => exact hfailed (.inl (by rw [hreset]; rfl)) (fun _ _ => by simp)
    | @asked w height hstate hwindow _ hres =>
      rw [hslot] at hstate hwindow
      obtain ⟨hs, hc, hl, hat, hsl⟩ := backInKernel_loaded hmain (hwait.trans hwait₁) hstate
        hres.createWindowOk_eq hwindow
      refine ⟨⟨hs ▸ hmain, hc, fun k' hused => ?_⟩, fun k' hk => ?_,
        .inr ⟨hsuccess.mpr ⟨w, height, rfl⟩, by rw [hat], by rw [hat]⟩⟩
      · by_cases hk : k' = k₁
        · subst hk
          refine ⟨i, ?_, ?_, ?_, ?_, ?_, ?_, ?_⟩
          · rw [hat]
            exact hres.fiberId_eq
          · rw [hat]
            exact hres.createWindowOk_eq
          · rw [hat]
            exact hres.pending_le
          · rw [hs]
            exact hres.ready
          · rw [hs]
            exact hres.rsp_eq
          · rw [hs]
            exact hres.live
          · rw [hl]
            exact hres.entrySlot_eq
        · exact hrest _ hs hl hsl k' hk hused
      · rw [hsl k' hk, hslots k' hk, hsame k' hk]

end rest

end AuroraOS.Apps
