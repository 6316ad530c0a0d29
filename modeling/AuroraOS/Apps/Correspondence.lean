import AuroraOS.Apps.System

/-!
# App slots and windows

Closing a window with its button does not free the slot of its program, and neither does a launch
that finds no window for a program that was loaded. A slot that a program has left can be given to
another one while the old window is still open, which then stays. The slots and the windows
correspond in a run exactly when none of this happens in it.

## Main results

- `correspond_iff`
-/

namespace AuroraOS.Apps

open AuroraOS.Fibers AuroraOS.Wm AuroraOS.Lib

/-- Window `w` is open and it and slot `k` name each other. -/
def System.Owns (s : System) (w : Fin maxWindows) (k : Fin appSlots) : Prop :=
  s.desk.Loaded w ∧ s.desk.apploaderWindowSlot w = (k : ℤ) ∧
    (s.apps.slots k).windowId = (w : ℤ)

/-- When window `w` is painted next, it is removed. -/
def System.RemovedByPaint (s : System) (w : Fin maxWindows) : Prop :=
  ∀ e, (s.paintApploader e w).map (fun s' => (s'.desk.windows w).used) = some false

/-- The open windows of loaded programs. -/
def System.loadedWindows (s : System) : Finset (Fin maxWindows) :=
  Finset.univ.filter s.desk.Loaded

/-- App slots and windows correspond. -/
structure Correspond (s : System) : Prop where
  slot_owned : ∀ k, (s.apps.slots k).state ≠ .unused → ∃! w, s.Owns w k
  window_owns : ∀ w, s.desk.Loaded w →
    (∃ k, (s.apps.slots k).state ≠ .unused ∧ s.Owns w k) ∨ s.RemovedByPaint w
  slot_free : s.loadedWindows.card < appSlots → (freeSlot s.apps).isSome = true

/-- The step does not close the window of a program that is alive, and a launch that loads a
    program finds a window and a slot that no open window names. -/
def StepKeepsOwners (s : System) : SysEvent → Prop
  | .click x y => ∀ idx, ClickCloses s.desk x y idx → s.desk.Loaded idx →
      slotIsAlive s.apps (s.desk.apploaderWindowSlot idx) = false
  | .launch _ file e => ∀ k, freeSlot s.apps = some k → LoadSucceeds s.apps file e →
      (freeWindow s.desk).isSome = true ∧
        ∀ w, s.desk.Loaded w → s.desk.apploaderWindowSlot w ≠ (k : ℤ)
  | _ => True

/-- What holds between the events of a run in which all steps meet the condition. -/
structure CorrInv (s : System) : Prop where
  rest : AtRest s.apps
  running : ∀ k, (s.apps.slots k).state ≠ .unused → (s.apps.slots k).state = .running
  owned : ∀ k, (s.apps.slots k).state ≠ .unused → ∃ w, s.Owns w k
  owns : ∀ w, s.desk.Loaded w → (∃ k, (s.apps.slots k).state ≠ .unused ∧ s.Owns w k) ∨
    slotIsAlive s.apps (s.desk.apploaderWindowSlot w) = false

/-- A window is removed when it is painted exactly when its program is not alive. -/
theorem removedByPaint_iff {s : System} {w : Fin maxWindows}
    (hused : (s.desk.windows w).used = true) :
    s.RemovedByPaint w ↔ slotIsAlive s.apps (s.desk.apploaderWindowSlot w) = false := by
  constructor
  · intro h
    by_contra hdead
    have halive : slotIsAlive s.apps (s.desk.apploaderWindowSlot w) = true := by simpa using hdead
    have hpaint := h .yield
    simp only [System.paintApploader, halive, not_true_eq_false, if_false] at hpaint
    cases hbegin : resumeBegin (s.desk.apploaderWindowSlot w) s.apps with
    | none => simp [hbegin] at hpaint
    | some a =>
      cases hend : runSlice .yield a with
      | none => simp [hbegin, hend] at hpaint
      | some a' => simp [hbegin, hend, hused] at hpaint
  · intro h e
    rw [System.paintApploader]
    simp [h, Desktop.modifyWindow]

theorem boot_corrInv (screenW screenH : ℤ) (naturalSize : Paint → ℤ × ℤ) :
    CorrInv (System.boot screenW screenH naturalSize) :=
  ⟨boot_atRest, fun _ h => absurd rfl h, fun _ h => absurd rfl h,
    fun w h => absurd h.1 (by simp [System.boot, wmInit, Window.zero])⟩

/-- If all slots are in use, there are as many windows. -/
theorem slot_free_of_owned {s : System}
    (howned : ∀ k, (s.apps.slots k).state ≠ .unused → ∃ w, s.Owns w k)
    (hlt : s.loadedWindows.card < appSlots) : (freeSlot s.apps).isSome = true := by
  by_contra hnone
  have hused : ∀ k, (s.apps.slots k).state ≠ .unused := by
    intro k hk
    have hsome : (freeSlot s.apps).isSome = true := by
      rw [freeSlot, List.find?_isSome]
      exact ⟨k, List.mem_finRange k, by simpa using hk⟩
    exact hnone hsome
  choose owner howner using fun k => howned k (hused k)
  have hinj : Function.Injective owner := by
    intro k k' hkk
    have hk := (howner k).2.1
    have hk' := (howner k').2.1
    rw [hkk] at hk
    exact Fin.ext (by exact_mod_cast hk.symm.trans hk')
  have hsub : Finset.univ.image owner ⊆ s.loadedWindows := by
    intro w hw
    obtain ⟨k, -, rfl⟩ := Finset.mem_image.mp hw
    exact Finset.mem_filter.mpr ⟨Finset.mem_univ _, (howner k).1⟩
  have hcard := Finset.card_le_card hsub
  rw [Finset.card_image_of_injective _ hinj, Finset.card_univ, Fintype.card_fin] at hcard
  omega

theorem owns_unique {s : System} {w w' : Fin maxWindows} {k : Fin appSlots} (h : s.Owns w k)
    (h' : s.Owns w' k) : w = w' :=
  Fin.ext (by exact_mod_cast h.2.2.symm.trans h'.2.2)

theorem correspond_of_inv {s : System} (h : CorrInv s) : Correspond s := by
  refine ⟨fun k hk => ?_, fun w hw => ?_, slot_free_of_owned h.owned⟩
  · obtain ⟨w, hw⟩ := h.owned k hk
    exact ⟨w, hw, fun w' hw' => owns_unique hw' hw⟩
  · exact (h.owns w hw).imp_right (removedByPaint_iff hw.1).mpr

/-- Only the loaded windows matter. -/
theorem CorrInv.congr {s : System} {desk : Desktop} (h : CorrInv s)
    (hsame : SameLoaded s.desk desk) :
    CorrInv { s with desk := desk } := by
  obtain ⟨hloaded, hslot⟩ := hsame
  have howns : ∀ w k, s.Owns w k → System.Owns { s with desk := desk } w k := by
    rintro w k ⟨hl, hs, hid⟩
    exact ⟨(hloaded w).mpr hl, by rw [← hs, hslot], hid⟩
  refine ⟨h.rest, h.running, fun k hk => ?_, fun w hw => ?_⟩
  · obtain ⟨w, hw⟩ := h.owned k hk
    exact ⟨w, howns w k hw⟩
  · obtain ⟨k, hk, hw'⟩ | hdead := h.owns w ((hloaded w).mp hw)
    · exact .inl ⟨k, hk, howns w k hw'⟩
    · exact .inr (by rw [hslot]; exact hdead)

/-- Closing a window whose program is not alive. -/
theorem CorrInv.close {s : System} {desk : Desktop} (h : CorrInv s) {idx : Fin maxWindows}
    (hdead : s.desk.Loaded idx → slotIsAlive s.apps (s.desk.apploaderWindowSlot idx) = false)
    (hloaded : ∀ w, desk.Loaded w ↔ s.desk.Loaded w ∧ w ≠ idx)
    (hslot : desk.apploaderWindowSlot = s.desk.apploaderWindowSlot) :
    CorrInv { s with desk := desk } := by
  have howns : ∀ w k, (s.apps.slots k).state ≠ .unused → s.Owns w k →
      System.Owns { s with desk := desk } w k := by
    rintro w k hk ⟨hl, hs, hid⟩
    refine ⟨(hloaded w).mpr ⟨hl, ?_⟩, by rw [← hs, hslot], hid⟩
    rintro rfl
    have halive := hdead hl
    rw [hs, slotIsAlive_val, h.running k hk] at halive
    exact absurd halive (by decide)
  refine ⟨h.rest, h.running, fun k hk => ?_, fun w hw => ?_⟩
  · obtain ⟨w, hw⟩ := h.owned k hk
    exact ⟨w, howns w k hk hw⟩
  · obtain ⟨k, hk, hw'⟩ | hdead' := h.owns w ((hloaded w).mp hw).1
    · exact .inl ⟨k, hk, howns w k hk hw'⟩
    · exact .inr (by rw [hslot]; exact hdead')

/-- Painting a window of a loaded program. -/
theorem paintApploader_inv {s s' : System} (h : CorrInv s) {e : SliceEnd} {idx : Fin maxWindows}
    (hs' : s.paintApploader e idx = some s') : CorrInv s' := by
  simp only [System.paintApploader] at hs'
  split at hs'
  · next hdead =>
    obtain rfl := Option.some.inj hs'
    exact h.close (fun _ => by simpa using hdead) closed_loaded rfl
  · next halive =>
    obtain ⟨k, hk, hrunning⟩ := running_of_slotIsAlive (by simpa using halive)
    rw [hk] at hs'
    cases hbegin : resumeBegin (k : ℤ) s.apps with
    | none => simp [hbegin] at hs'
    | some a₁ =>
      simp only [hbegin] at hs'
      obtain ⟨a₂, hend, rfl⟩ := Option.map_eq_some_iff.mp hs'
      obtain ⟨hrest, hother, hself⟩ := resumeSlice_spec h.rest hrunning hbegin hend
      -- a slot in use is as before
      have hsame : ∀ k', (a₂.slots k').state ≠ .unused → a₂.slots k' = s.apps.slots k' := by
        intro k' hused
        by_cases hkk : k' = k
        · subst hkk
          exact hself.resolve_right hused
        · exact hother k' hkk
      have howns : ∀ w k', (a₂.slots k').state ≠ .unused → s.Owns w k' →
          System.Owns { s with apps := a₂ } w k' := by
        rintro w k' hused ⟨hl, hs, hid⟩
        exact ⟨hl, hs, by rw [hsame k' hused]; exact hid⟩
      refine ⟨hrest, fun k' hused => ?_, fun k' hused => ?_, fun w hw => ?_⟩
      · rw [hsame k' hused]
        exact h.running k' (by rwa [hsame k' hused] at hused)
      · obtain ⟨w, hw⟩ := h.owned k' (by rwa [hsame k' hused] at hused)
        exact ⟨w, howns w k' hused hw⟩
      · obtain ⟨k', -, hw'⟩ | hdead := h.owns w hw
        · by_cases hused : (a₂.slots k').state = .unused
          · refine .inr ?_
            rw [hw'.2.1, slotIsAlive_val, hused]
            decide
          · exact .inl ⟨k', hused, howns w k' hused hw'⟩
        · refine .inr ?_
          by_contra hlive
          obtain ⟨k', hk', hrun'⟩ := running_of_slotIsAlive (show slotIsAlive a₂
            (s.desk.apploaderWindowSlot w) = true by simpa using hlive)
          rw [hk', slotIsAlive_val, ← hsame k' (by simp [hrun']), hrun'] at hdead
          exact absurd hdead (by decide)

theorem frame_inv {s s' : System} (h : CorrInv s) {slices : ℕ → SliceEnd}
    {stringWidth : String → ℤ} {bx bxMax : ℤ}
    (hs' : s.frame slices stringWidth bx bxMax = some s') : CorrInv s' :=
  frame_keeps (fun _ _ _ _ h => paintApploader_inv h)
    (fun _ _ _ h => h.congr ⟨fun _ => Iff.rfl, rfl⟩) h hs'

theorem launch_inv {s s' : System} (h : CorrInv s) {filename : String} {file : ProgramFile}
    {e : SliceEnd} (hkeeps : StepKeepsOwners s (.launch filename file e))
    (hs' : s.launch filename file e = some s') : CorrInv s' := by
  rw [System.launch] at hs'
  split at hs'
  · exact Option.some.inj hs' ▸ h
  · next k hfree =>
    split at hs'
    · exact absurd hs' (by simp)
    · next a₁ hbegin =>
      split at hs'
      · exact absurd hs' (by simp)
      · next a₂ hend =>
        obtain ⟨desk, hwm, rfl⟩ := Option.map_eq_some_iff.mp hs'
        obtain ⟨hrest, hother, hresult⟩ := launchSlice_spec h.rest hfree hbegin hend
        have hunused := freeSlot_spec hfree
        -- a slot in use other than the new one is as before
        have hold : ∀ k', k' ≠ k → (a₂.slots k').state ≠ .unused →
            (s.apps.slots k').state ≠ .unused := by
          intro k' hk hused
          rwa [hother k' hk] at hused
        obtain ⟨-, hfailed⟩ | ⟨hsuccess, hid, hstate⟩ := hresult
        · -- the slot is free again and the windows are as before
          rw [if_pos hfailed] at hwm
          obtain rfl := Option.some.inj hwm
          have howns : ∀ w k', k' ≠ k → s.Owns w k' → System.Owns ⟨s.desk, a₂⟩ w k' := by
            rintro w k' hk ⟨hl, hs, hid⟩
            exact ⟨hl, hs, by rw [hother k' hk]; exact hid⟩
          refine ⟨hrest, fun k' hused => ?_, fun k' hused => ?_, fun w hw => ?_⟩
          · have hk : k' ≠ k := fun hk => hused (hk ▸ hfailed)
            rw [hother k' hk]
            exact h.running k' (hold k' hk hused)
          · have hk : k' ≠ k := fun hk => hused (hk ▸ hfailed)
            obtain ⟨w, hw⟩ := h.owned k' (hold k' hk hused)
            exact ⟨w, howns w k' hk hw⟩
          · obtain ⟨k', hused, hw'⟩ | hdead := h.owns w hw
            · have hk : k' ≠ k := fun hk => hused (hk ▸ hunused)
              exact .inl ⟨k', by rwa [hother k' hk], howns w k' hk hw'⟩
            · refine .inr ?_
              by_contra hlive
              obtain ⟨k', hk', hrun'⟩ := running_of_slotIsAlive (show slotIsAlive a₂
                (s.desk.apploaderWindowSlot w) = true by simpa using hlive)
              have hk : k' ≠ k := fun hk => absurd (hk ▸ hrun') (by simp [hfailed])
              rw [hk', slotIsAlive_val, ← hother k' hk, hrun'] at hdead
              exact absurd hdead (by decide)
        · -- the new window and the slot own each other
          obtain ⟨hwindow, hnames⟩ := hkeeps k hfree hsuccess
          obtain ⟨i, hi⟩ := Option.isSome_iff_exists.mp hwindow
          rw [hi] at hid hstate
          have hused : (a₂.slots k).state = .running := by simpa using hstate
          rw [if_neg (by simp [hused])] at hwm
          obtain ⟨hnone, -⟩ | ⟨i', win, hi', hwin, hpaint, -, -, -, hkeep⟩ := wmLaunchApp_cases hwm
          · exact absurd (hi.symm.trans hnone) (by simp)
          · obtain rfl := Option.some.inj (hi.symm.trans hi')
            have hfresh := freeWindow_not_loaded hi
            have hloaded : ∀ w, desk.Loaded w ↔ w = i ∨ s.desk.Loaded w := by
              intro w
              refine ((hkeep.1 w).loaded_iff).trans ?_
              by_cases hw : w = i
              · subst hw
                simp [Desktop.Loaded, hwin, hpaint]
              · simp [Desktop.Loaded, hw]
            have hslot : ∀ w, desk.apploaderWindowSlot w =
                if w = i then (k : ℤ) else s.desk.apploaderWindowSlot w := by
              intro w
              rw [hkeep.2.1]
              simp [Function.update_apply]
            have howns : ∀ w k', k' ≠ k → s.Owns w k' → System.Owns ⟨desk, a₂⟩ w k' := by
              rintro w k' hk ⟨hl, hs, hid⟩
              have hw : w ≠ i := fun hw => hfresh (hw ▸ hl)
              exact ⟨(hloaded w).mpr (.inr hl), by rw [hslot, if_neg hw, hs],
                by rw [hother k' hk]; exact hid⟩
            have hnew : System.Owns ⟨desk, a₂⟩ i k :=
              ⟨(hloaded i).mpr (.inl rfl), by rw [hslot, if_pos rfl], by simpa using hid⟩
            refine ⟨hrest, fun k' hused' => ?_, fun k' hused' => ?_, fun w hw => ?_⟩
            · by_cases hk : k' = k
              · exact hk ▸ hused
              · rw [hother k' hk]
                exact h.running k' (hold k' hk hused')
            · by_cases hk : k' = k
              · exact ⟨i, hk ▸ hnew⟩
              · obtain ⟨w, hw⟩ := h.owned k' (hold k' hk hused')
                exact ⟨w, howns w k' hk hw⟩
            · by_cases hwi : w = i
              · exact .inl ⟨k, by simp [hused], hwi ▸ hnew⟩
              · have hw' : s.desk.Loaded w := ((hloaded w).mp hw).resolve_left hwi
                obtain ⟨k', hk', hown⟩ | hdead := h.owns w hw'
                · have hk : k' ≠ k := fun hk => hk' (hk ▸ hunused)
                  exact .inl ⟨k', by rwa [hother k' hk], howns w k' hk hown⟩
                · refine .inr ?_
                  rw [hslot, if_neg hwi]
                  by_contra hlive
                  obtain ⟨k', hk', hrun'⟩ := running_of_slotIsAlive (show slotIsAlive a₂
                    (s.desk.apploaderWindowSlot w) = true by simpa using hlive)
                  have hk : k' ≠ k := fun hk => hnames w hw' (hk ▸ hk')
                  rw [hk', slotIsAlive_val, ← hother k' hk, hrun'] at hdead
                  exact absurd hdead (by decide)

theorem click_inv {s : System} {desk : Desktop} (h : CorrInv s) {x y : ℤ}
    (hkeeps : StepKeepsOwners s (.click x y)) (hclick : handleClick x y s.desk = some desk) :
    CorrInv { s with desk := desk } := by
  obtain ⟨idx, hclose, horder⟩ | ⟨idx, -, horder⟩ | ⟨-, -, hkeep⟩ := handleClick_cases hclick
  · refine h.close (hkeeps idx hclose) (fun w => (horder.loaded_iff w).trans (closed_loaded w)) ?_
    obtain ⟨_, _, rfl⟩ := horder
    rfl
  · refine h.congr ⟨fun w => (horder.loaded_iff w).trans ?_, ?_⟩
    · exact modifyWindow_loaded (toggleFullscreen_used_paint _ _) w
    · obtain ⟨_, _, rfl⟩ := horder
      rfl
  · exact h.congr hkeep.sameLoaded

theorem step_corrInv {s s' : System} {e : SysEvent} (h : CorrInv s) (hkeeps : StepKeepsOwners s e)
    (hs' : s.step e = some s') : CorrInv s' := by
  cases e with
  | launch filename file e => exact launch_inv h hkeeps hs'
  | frame slices stringWidth bx bxMax => exact frame_inv h hs'
  | click x y =>
    obtain ⟨desk, hclick, rfl⟩ := Option.map_eq_some_iff.mp hs'
    exact click_inv h hkeeps hclick
  | openApp appIndex =>
    obtain ⟨desk, hopen, rfl⟩ := Option.map_eq_some_iff.mp hs'
    exact h.congr (launchOrFocusApp_sameLoaded hopen)
  | held mx my =>
    obtain rfl := Option.some.inj hs'
    exact h.congr (mouseHeld_sameLoaded mx my s.desk)
  | release =>
    obtain rfl := Option.some.inj hs'
    exact h.congr ⟨fun _ => Iff.rfl, rfl⟩
  | rescale naturalSize =>
    obtain rfl := Option.some.inj hs'
    exact h.congr (rescaleAllWindows_sameLoaded naturalSize s.desk)
  | exit =>
    obtain rfl := Option.some.inj hs'
    exact h.congr (terminalExit_sameLoaded s.desk)

/-- The window of a program that is alive is closed: its slot has no owner. -/
theorem click_breaks {s : System} {desk : Desktop} (h : CorrInv s) {x y : ℤ}
    (hnot : ¬ StepKeepsOwners s (.click x y)) (hclick : handleClick x y s.desk = some desk) :
    ¬ Correspond { s with desk := desk } := by
  simp only [StepKeepsOwners, not_forall, Bool.not_eq_false] at hnot
  obtain ⟨idx, hclose, hloaded, halive⟩ := hnot
  obtain ⟨k, hk, hrunning⟩ := running_of_slotIsAlive halive
  have hused : (s.apps.slots k).state ≠ .unused := by simp [hrunning]
  intro hcorr
  obtain ⟨w, hw, -⟩ := hcorr.slot_owned k hused
  obtain ⟨idx', hclose', horder⟩ | ⟨idx', htoggle, -⟩ | ⟨hnoclose, -, -⟩ := handleClick_cases hclick
  · have hidx : idx' = idx := by
      simpa using hclose'.1.2.symm.trans hclose.1.2
    subst hidx
    obtain ⟨hl, hne⟩ := (closed_loaded w).mp ((horder.loaded_iff w).mp hw.1)
    -- the owner of the slot was the window that is closed
    obtain ⟨k', hk', hown⟩ | hdead := h.owns idx' hloaded
    · have hkk : k' = k := Fin.ext (by exact_mod_cast hown.2.1.symm.trans hk)
      subst hkk
      exact hne (Fin.ext (by exact_mod_cast hw.2.2.symm.trans hown.2.2))
    · exact absurd (halive.symm.trans hdead) (by decide)
  · have hidx : idx' = idx := by
      simpa using htoggle.1.2.symm.trans hclose.1.2
    subst hidx
    have := htoggle.2.2.1
    have := hclose.2.2.2
    omega
  · exact hnoclose idx hclose

/-- A program is loaded, but there is no window for it, or an open window names its slot. -/
theorem launch_breaks {s s' : System} (h : CorrInv s) {filename : String} {file : ProgramFile}
    {e : SliceEnd} (hnot : ¬ StepKeepsOwners s (.launch filename file e))
    (hs' : s.launch filename file e = some s') : ¬ Correspond s' := by
  simp only [StepKeepsOwners, not_forall] at hnot
  obtain ⟨k, hfree, hload, hbad⟩ := hnot
  rw [System.launch, hfree] at hs'
  simp only at hs'
  split at hs'
  · exact absurd hs' (by simp)
  · next a₁ hbegin =>
    split at hs'
    · exact absurd hs' (by simp)
    · next a₂ hend =>
      obtain ⟨desk, hwm, rfl⟩ := Option.map_eq_some_iff.mp hs'
      obtain ⟨-, -, ⟨hfail, -⟩ | ⟨-, hid, hstate⟩⟩ := launchSlice_spec h.rest hfree hbegin hend
      · exact absurd hload hfail
      have hused : (a₂.slots k).state ≠ .unused := by
        rw [hstate]
        split <;> simp
      rw [if_neg hused] at hwm
      intro hcorr
      obtain ⟨hnone, -⟩ | ⟨i, win, hi, -, -, -, -, -, hkeep⟩ := wmLaunchApp_cases hwm
      · -- the slot has no window
        obtain ⟨w, hw, -⟩ := hcorr.slot_owned k hused
        have hself : (a₂.slots k).windowId = (w : ℤ) := hw.2.2
        have hneg : (a₂.slots k).windowId = -1 := by simpa [hnone] using hid
        omega
      · -- the old window names the slot, which is in use again and names the new window
        rw [hi] at hid hstate hbad
        obtain ⟨w, hl, hname⟩ : ∃ w, s.desk.Loaded w ∧ s.desk.apploaderWindowSlot w = (k : ℤ) := by
          by_contra hnone
          exact hbad ⟨rfl, fun w hl hw => hnone ⟨w, hl, hw⟩⟩
        have hwi : w ≠ i := fun hw => freeWindow_not_loaded hi (hw ▸ hl)
        have hl' : desk.Loaded w := by
          refine (hkeep.1 w).loaded_iff.mpr ?_
          simpa [Desktop.Loaded, hwi] using hl
        have hname' : desk.apploaderWindowSlot w = (k : ℤ) := by
          rw [hkeep.2.1]
          simpa [hwi] using hname
        obtain ⟨k', -, hown⟩ | hremoved := hcorr.window_owns w hl'
        · have hkk : k' = k := Fin.ext (by exact_mod_cast hown.2.1.symm.trans hname')
          subst hkk
          have hself : (w : ℤ) = (i : ℤ) := hown.2.2.symm.trans (by simpa using hid)
          exact hwi (Fin.ext (by exact_mod_cast hself))
        · have hdead := (removedByPaint_iff hl'.1).mp hremoved
          simp only [hname', slotIsAlive_val, hstate] at hdead
          exact absurd hdead (by simp)

theorem step_breaks_owners {s s' : System} {e : SysEvent} (h : CorrInv s)
    (hnot : ¬ StepKeepsOwners s e) (hs' : s.step e = some s') : ¬ Correspond s' := by
  cases e with
  | launch filename file e => exact launch_breaks h hnot hs'
  | click x y =>
    obtain ⟨desk, hclick, rfl⟩ := Option.map_eq_some_iff.mp hs'
    exact click_breaks h hnot hclick
  | _ => exact absurd trivial hnot

/-- App slots and windows correspond in a run exactly when no step of it closes the window of a
    program that is alive, and every launch that loads a program finds a window for it and a slot
    that no open window names. -/
theorem correspond_iff (screenW screenH : ℤ) (naturalSize : Paint → ℤ × ℤ) (es : List SysEvent) :
    Always System.step Correspond es (System.boot screenW screenH naturalSize) ↔
      Meets System.step StepKeepsOwners es (System.boot screenW screenH naturalSize) :=
  always_iff_meets (fun _ => correspond_of_inv) (fun _ _ _ => step_corrInv)
    (fun _ _ _ => step_breaks_owners) es (boot_corrInv screenW screenH naturalSize)

/-- A program gets its window, and a click on the close button closes it. -/
def launchThenClose : List SysEvent :=
  [.launch "APP.BIN" .good (.createWindow 200 100), .click 270 251]

/-- The slot of the program stays in use with no window that owns it. -/
theorem close_button_leaves_slot :
    ¬ Always System.step Correspond launchThenClose
      (System.boot 1024 768 fun _ => (480, 300)) := by
  intro h
  have hset : (launchThenClose.foldlM System.step (System.boot 1024 768 fun _ => (480, 300))).any
      (fun s => (s.apps.slots 0).windowId == 0 && (s.apps.slots 0).state == .running &&
        !(s.desk.windows 0).used) = true := by
    decide
  obtain ⟨s, hs, hbad⟩ := (Option.any_eq_true _ _).mp hset
  simp only [Bool.and_eq_true, beq_iff_eq, Bool.not_eq_true'] at hbad
  obtain ⟨⟨hid, hstate⟩, hclosed⟩ := hbad
  obtain ⟨w, hw, -⟩ := (h.last hs).slot_owned 0 (by simp [hstate])
  have hw0 : w = 0 := by
    have hzero := hw.2.2.symm.trans hid
    exact_mod_cast hzero
  exact absurd (hw0 ▸ hw.1.1) (by simp [hclosed])

end AuroraOS.Apps
