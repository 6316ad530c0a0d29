import AuroraOS.Wm.Model

/-!
# The window table over whole runs

`TableInv s` says that the first `window_count` places of `window_order` list the used windows
without repetition. Opening, raising, hiding and closing with the button keep it. The other two
ways a window can end, `exit` in a Terminal and a loaded program that is gone when its window is
painted, only clear `used`: after such a step the invariant is false, and the next window that
reuses the slot is listed twice.

## Main results

- `step_inv` — every other step succeeds and keeps the invariant
- `run_inv_iff` — a run keeps the invariant exactly when no step is of those two kinds
-/

namespace AuroraOS.Wm

/-- The windows in the order they are drawn. -/
def Desktop.order (s : Desktop) : List (Fin maxWindows) := Lib.front s.windowOrder s.windowCount

/-- `window_order` lists the used windows, each once. -/
structure TableInv (s : Desktop) : Prop where
  count_le : s.windowCount ≤ maxWindows
  nodup : s.order.Nodup
  used : ∀ i, i ∈ s.order ↔ (s.windows i).used = true

theorem wmInit_inv (screenW screenH : ℤ) (naturalSize : Paint → ℤ × ℤ) :
    TableInv (wmInit screenW screenH naturalSize) :=
  ⟨Nat.zero_le _, by simp [Desktop.order, Lib.front, wmInit],
    fun i => by simp [Desktop.order, Lib.front, wmInit, Window.zero]⟩

/-- Only the used flags matter. -/
theorem TableInv.congr {s s' : Desktop} (h : TableInv s) (hord : s'.windowOrder = s.windowOrder)
    (hcount : s'.windowCount = s.windowCount)
    (hused : ∀ i, (s'.windows i).used = (s.windows i).used) : TableInv s' := by
  have horder : s'.order = s.order := by rw [Desktop.order, Desktop.order, hord, hcount]
  exact ⟨hcount ▸ h.count_le, horder ▸ h.nodup, fun i => by rw [horder, hused i, h.used i]⟩

theorem modifyWindow_used {s : Desktop} {idx : Fin maxWindows} {f : Window → Window}
    (hf : ∀ w, (f w).used = w.used) (i : Fin maxWindows) :
    ((s.modifyWindow idx f).windows i).used = (s.windows i).used := by
  by_cases hi : i = idx
  · subst hi
    simp [Desktop.modifyWindow, hf]
  · simp [Desktop.modifyWindow, hi]

theorem TableInv.modifyWindow {s : Desktop} (h : TableInv s) (idx : Fin maxWindows)
    {f : Window → Window} (hf : ∀ w, (f w).used = w.used) : TableInv (s.modifyWindow idx f) :=
  h.congr rfl rfl (modifyWindow_used hf)

section order

variable {s : Desktop} (hc : s.windowCount ≤ maxWindows)

include hc

theorem length_order : s.order.length = s.windowCount := Lib.length_front hc

theorem orderAt_eq {i : ℕ} (hi : i < s.windowCount) :
    ∃ idx, s.orderAt i = some idx ∧ s.order[i]? = some idx :=
  ⟨_, dif_pos (lt_of_lt_of_le hi hc), Lib.getElem_front hc hi⟩

/-- The search for a window in the order. -/
theorem findFrom_order (idx : Fin maxWindows) :
    Lib.findFrom s.windowOrder idx s.windowCount 0 = some (s.order.idxOf? idx) := by
  rw [Lib.findFrom_eq _ _ _ _ (by omega), Nat.zero_add, List.drop_zero]
  simp [Desktop.order]

/-- Closing the gap at the place where the search found a window. -/
theorem shiftDown_order {idx : Fin maxWindows} {pos : ℕ} (hpos : s.order.idxOf? idx = some pos) :
    0 < s.windowCount ∧ idx ∈ s.order ∧
      ∃ order, Lib.shiftDown (s.windowCount - 1 - pos) pos s.windowOrder = some order ∧
        Lib.front order (s.windowCount - 1) = s.order.erase idx := by
  obtain ⟨hlt, heq, hmin⟩ := List.findIdx?_eq_some_iff_getElem.mp hpos
  have hmem : idx ∈ s.order := by
    have hget : s.order[pos] = idx := by simpa using heq
    exact hget ▸ List.getElem_mem hlt
  have hidx : s.order.idxOf idx = pos := by
    rw [List.idxOf, List.findIdx_eq hlt]
    exact ⟨heq, fun j hj => by simpa using hmin j hj⟩
  rw [length_order hc] at hlt
  obtain ⟨order, hshift, hfront⟩ := Lib.shiftDown_front s.windowOrder hc hlt
  refine ⟨by omega, hmem, order, hshift, ?_⟩
  rw [hfront, List.erase_eq_eraseIdx_of_idxOf hidx, Desktop.order]

/-- `raise_window` moves the window to the end of the order. -/
theorem raiseWindow_eq (idx : Fin maxWindows) :
    ∃ s', raiseWindow idx s = some s' ∧ s'.windows = s.windows ∧
      s'.windowCount = s.windowCount ∧
      s'.order = if idx ∈ s.order then s.order.erase idx ++ [idx] else s.order := by
  rw [raiseWindow, findFrom_order hc]
  cases hpos : s.order.idxOf? idx with
  | none =>
    have hnot : idx ∉ s.order := by simpa using hpos
    exact ⟨s, rfl, rfl, rfl, by rw [if_neg hnot]⟩
  | some pos =>
    obtain ⟨hpos', hmem, order, hshift, hfront⟩ := shiftDown_order hc hpos
    have hset : s.windowCount - 1 < maxWindows := by omega
    simp only [hshift, dif_pos hset, if_pos hmem]
    refine ⟨_, rfl, rfl, rfl, ?_⟩
    have hsucc := Lib.front_set_succ order hset idx
    rwa [show s.windowCount - 1 + 1 = s.windowCount by omega, hfront] at hsucc

/-- Taking a window out of the order. -/
theorem removeFromOrder_eq (idx : Fin maxWindows) :
    ∃ s', removeFromOrder idx s = some s' ∧ s'.windows = s.windows ∧
      s'.windowCount ≤ s.windowCount ∧ s'.order = s.order.erase idx := by
  rw [removeFromOrder, findFrom_order hc]
  cases hpos : s.order.idxOf? idx with
  | none =>
    have hnot : idx ∉ s.order := by simpa using hpos
    exact ⟨s, rfl, rfl, le_rfl, (List.erase_of_not_mem hnot).symm⟩
  | some pos =>
    obtain ⟨_, _, order, hshift, hfront⟩ := shiftDown_order hc hpos
    simp only [hshift]
    exact ⟨_, rfl, rfl, Nat.sub_le _ _, hfront⟩

/-- The loops that look for the topmost window stay inside the order. -/
theorem topmostBelow_eq (p : Window → Bool) {n : ℕ} (hn : n ≤ s.windowCount) :
    ∃ r, topmostBelow p s n = some r := by
  induction n with
  | zero => exact ⟨none, rfl⟩
  | succ n ih =>
    obtain ⟨idx, hidx, _⟩ := orderAt_eq hc (show n < s.windowCount by omega)
    rw [topmostBelow, hidx]
    by_cases hp : p (s.windows idx) = true
    · exact ⟨some idx, by simp [hp]⟩
    · obtain ⟨r, hr⟩ := ih (by omega)
      exact ⟨r, by simp [hp, hr]⟩

end order

theorem appendOrder_eq {s : Desktop} (hc : s.windowCount < maxWindows) (i : Fin maxWindows) :
    ∃ s', appendOrder i s = some s' ∧ s'.windows = s.windows ∧
      s'.windowCount = s.windowCount + 1 ∧ s'.order = s.order ++ [i] :=
  ⟨_, dif_pos hc, rfl, rfl, Lib.front_set_succ _ hc i⟩

theorem raiseWindow_spec {s : Desktop} (h : TableInv s) (idx : Fin maxWindows) :
    ∃ s', raiseWindow idx s = some s' ∧ TableInv s' := by
  obtain ⟨s', hrun, hwin, hcount, horder⟩ := raiseWindow_eq h.count_le idx
  refine ⟨s', hrun, hcount ▸ h.count_le, ?_, fun i => ?_⟩
  · rw [horder]
    split
    · refine (h.nodup.erase idx).append (by simp) ?_
      intro i hi hidx
      rw [List.mem_singleton] at hidx
      exact h.nodup.not_mem_erase (hidx ▸ hi)
    · exact h.nodup
  · rw [horder, hwin, ← h.used i]
    split
    · next hmem =>
      rw [List.mem_append, List.mem_singleton, h.nodup.mem_erase_iff]
      by_cases hi : i = idx
      · simp [hi, hmem]
      · simp [hi]
    · rfl

theorem freeWindow_spec {s : Desktop} {i : Fin maxWindows} (hi : freeWindow s = some i) :
    (s.windows i).used = false := by
  simpa using List.find?_some hi

/-- `create_window` has a place in the order for every window it can find. -/
theorem createWindow_spec {s : Desktop} (h : TableInv s) (x y w height : ℤ) (title : String)
    (paint : Paint) :
    ∃ r s', createWindow x y w height title paint s = some (r, s') ∧ TableInv s' := by
  rw [createWindow]
  cases hfree : freeWindow s with
  | none => exact ⟨none, s, rfl, h⟩
  | some i =>
    have hunused := freeWindow_spec hfree
    have hnot : i ∉ s.order := fun hmem => by
      rw [(h.used i).mp hmem] at hunused
      exact absurd hunused (by simp)
    -- a duplicate-free list that misses one of eight windows has at most seven
    have hlt : s.windowCount < maxWindows := by
      have hcard := List.Nodup.length_le_card (List.nodup_cons.mpr ⟨hnot, h.nodup⟩)
      rw [List.length_cons, length_order h.count_le, Fintype.card_fin] at hcard
      omega
    let win := (s.modifyWindow i fun win =>
      { win with
        used := true, x := x, y := y, w := w, h := height, title := title, paint := paint,
        minimized := false, fullscreen := false })
    obtain ⟨s', hrun, hwin, hcount, horder⟩ := appendOrder_eq (s := win) hlt i
    have horder' : s'.order = s.order ++ [i] := horder
    refine ⟨some i, s', by simp only [win] at hrun; simp only [hrun, Option.map_some], ?_, ?_,
      fun j => ?_⟩
    · rw [hcount]
      exact hlt
    · rw [horder']
      refine List.nodup_append.mpr ⟨h.nodup, by simp, fun a ha b hb => ?_⟩
      rw [List.mem_singleton] at hb
      exact fun hab => hnot (hb ▸ hab ▸ ha)
    · rw [horder', hwin, List.mem_append, List.mem_singleton, h.used j]
      by_cases hj : j = i
      · subst hj
        simp [win, Desktop.modifyWindow]
      · simp [win, Desktop.modifyWindow, hj]

theorem showAndRaise_spec {s : Desktop} (h : TableInv s) (idx : Fin maxWindows) :
    ∃ s', showAndRaise idx s = some s' ∧ TableInv s' := by
  apply raiseWindow_spec
  exact h.modifyWindow idx fun _ => rfl

theorem launchOrFocusApp_spec {s : Desktop} (h : TableInv s) (appIndex : ℕ) :
    ∃ s', launchOrFocusApp appIndex s = some s' ∧ TableInv s' := by
  rw [launchOrFocusApp]
  cases apps[appIndex]? with
  | none => exact ⟨s, rfl, h⟩
  | some app =>
    simp only
    cases findOpenWindowByName app.name s with
    | some idx => exact showAndRaise_spec h idx
    | none =>
      obtain ⟨r, s', hcreate, hinv⟩ := createWindow_spec h (s.baseCx + app.xOffset)
        (s.baseCy + app.yOffset) (s.naturalSize app.paint).1 (s.naturalSize app.paint).2 app.name
        app.paint
      simp only [hcreate]
      cases r with
      | none => exact ⟨s', rfl, hinv⟩
      | some idx => exact showAndRaise_spec hinv idx

theorem wmLaunchApp_spec {s : Desktop} (h : TableInv s) (filename : String)
    (loaded : Option (ℤ × ℤ × ℤ)) :
    ∃ s', wmLaunchApp filename loaded s = some s' ∧ TableInv s' := by
  cases loaded with
  | none => exact ⟨s, rfl, h⟩
  | some r =>
    obtain ⟨slot, w, height⟩ := r
    rw [wmLaunchApp]
    obtain ⟨r, s', hcreate, hinv⟩ := createWindow_spec h (s.baseCx + 80) (s.baseCy + 80) w height
      filename .apploader
    simp only [hcreate]
    cases r with
    | none => exact ⟨s', rfl, hinv⟩
    | some idx =>
      apply showAndRaise_spec
      exact hinv.congr rfl rfl fun _ => rfl

/-- The close button removes the window from the order. -/
theorem closeWindow_spec {s : Desktop} (h : TableInv s) (idx : Fin maxWindows) :
    ∃ s', closeWindow idx s = some s' ∧ TableInv s' := by
  let s₁ := s.modifyWindow idx fun win => { win with used := false }
  obtain ⟨s', hrun, hwin, hcount, horder⟩ := removeFromOrder_eq (s := s₁) h.count_le idx
  have horder' : s'.order = s.order.erase idx := horder
  refine ⟨s', hrun, hcount.trans h.count_le, ?_, fun i => ?_⟩
  · rw [horder']
    exact h.nodup.erase idx
  · rw [horder', hwin, h.nodup.mem_erase_iff, h.used i]
    by_cases hi : i = idx
    · simp [s₁, Desktop.modifyWindow, hi]
    · simp [s₁, Desktop.modifyWindow, hi]

theorem toggleFullscreen_used (screenW screenH : ℤ) (win : Window) :
    (toggleFullscreen screenW screenH win).used = win.used := by
  rw [toggleFullscreen]
  split <;> rfl

theorem clickTaskbar_spec {s : Desktop} (h : TableInv s) (btn : TaskbarButton) :
    ∃ s', clickTaskbar btn s = some s' ∧ TableInv s' := by
  obtain ⟨top, htop⟩ := topmostBelow_eq h.count_le Window.visible le_rfl
  rw [clickTaskbar, findTopmostVisible, htop]
  simp only
  split
  · apply raiseWindow_spec
    exact h.modifyWindow btn.windowIdx fun _ => rfl
  · split
    · exact ⟨_, rfl, h.modifyWindow _ fun _ => rfl⟩
    · exact raiseWindow_spec h btn.windowIdx

theorem clickWindow_spec {s : Desktop} (h : TableInv s) (idx : Fin maxWindows) (x y : ℤ) :
    ∃ s', clickWindow idx x y s = some s' ∧ TableInv s' := by
  obtain ⟨s₁, hraise, hinv⟩ := raiseWindow_spec h idx
  rw [clickWindow, hraise]
  simp only
  split
  · exact closeWindow_spec hinv idx
  · split
    · exact ⟨_, rfl, hinv.modifyWindow _ fun _ => rfl⟩
    · split
      · exact ⟨_, rfl, hinv.modifyWindow _ (toggleFullscreen_used _ _)⟩
      · split
        · split
          · exact ⟨_, rfl, hinv⟩
          · exact ⟨_, rfl, hinv.congr rfl rfl fun _ => rfl⟩
        · split
          · exact ⟨_, rfl, hinv.congr rfl rfl fun _ => rfl⟩
          · exact ⟨_, rfl, hinv⟩

theorem handleClick_spec {s : Desktop} (h : TableInv s) (x y : ℤ) :
    ∃ s', handleClick x y s = some s' ∧ TableInv s' := by
  rw [handleClick]
  cases s.taskbarButtons.find? (·.contains x y) with
  | some btn => exact clickTaskbar_spec h btn
  | none =>
    obtain ⟨r, hr⟩ := topmostBelow_eq h.count_le (·.hit x y) le_rfl
    rw [topmostWindowAt, hr]
    cases r with
    | none => exact ⟨s, rfl, h⟩
    | some idx => exact clickWindow_spec h idx x y

theorem dragPass_inv {s : Desktop} (h : TableInv s) (mx my : ℤ) :
    TableInv (dragPass mx my s) := by
  rw [dragPass]
  split
  · exact h
  · exact h.modifyWindow _ fun _ => rfl

theorem mouseHeld_inv {s : Desktop} (h : TableInv s) (mx my : ℤ) :
    TableInv (mouseHeld mx my s) := by
  have hdrag := dragPass_inv h mx my
  rw [mouseHeld, resizePass]
  split
  · exact hdrag
  · exact hdrag.modifyWindow _ fun _ => rfl

theorem rescaleAllWindows_inv {s : Desktop} (h : TableInv s) (naturalSize : Paint → ℤ × ℤ) :
    TableInv (rescaleAllWindows naturalSize s) := by
  refine h.congr rfl rfl fun i => ?_
  simp only [rescaleAllWindows]
  split
  · rfl
  · split
    · rfl
    · rw [rescaleWindow]
      split <;> rfl

/-- Drawing window `idx` closes it. -/
def closes (alive : ℤ → Bool) (s : Desktop) (idx : Fin maxWindows) : Bool :=
  (s.windows idx).visible && decide ((s.windows idx).paint = .apploader) &&
    !alive (s.apploaderWindowSlot idx)

/-- One round of the draw loop. -/
theorem drawRound_eq (alive : ℤ → Bool) (s : Desktop) (idx : Fin maxWindows) :
    (if (s.windows idx).visible then drawWindow alive idx s else s) =
      if closes alive s idx then s.modifyWindow idx fun win => { win with used := false }
      else s := by
  simp only [drawWindow, paintApploader, closes]
  by_cases hv : (s.windows idx).visible = true
  · by_cases hp : (s.windows idx).paint = .apploader
    · by_cases ha : alive (s.apploaderWindowSlot idx) = true
      · simp [hv, hp, ha]
      · simp [hv, hp, ha]
    · simp [hv, hp]
  · simp [hv]

/-- The draw loop closes exactly the windows whose programs are gone when they are painted. -/
theorem drawLoop_eq (alive : ℕ → ℤ → Bool) {n i : ℕ} {s : Desktop}
    (hc : s.windowCount ≤ maxWindows) (hn : i + n ≤ s.windowCount) :
    ∃ s', drawLoop alive n i s = some s' ∧ s'.windowOrder = s.windowOrder ∧
      s'.windowCount = s.windowCount ∧
      (∀ j, (s.windows j).used = false → (s'.windows j).used = false) ∧
      (∀ k, i ≤ k → k < i + n → ∀ idx, s.order[k]? = some idx → closes (alive k) s idx = true →
        (s'.windows idx).used = false) ∧
      ((∀ k idx, s.order[k]? = some idx → closes (alive k) s idx = false) → s' = s) := by
  induction n generalizing i s with
  | zero =>
    exact ⟨s, rfl, rfl, rfl, fun _ h => h, fun k h₁ h₂ => by omega, fun _ => rfl⟩
  | succ n ih =>
    obtain ⟨idx, hidx, hget⟩ := orderAt_eq hc (show i < s.windowCount by omega)
    simp only [drawLoop, hidx, drawRound_eq]
    by_cases hcl : closes (alive i) s idx = true
    · let s₁ := s.modifyWindow idx fun win => { win with used := false }
      obtain ⟨s', hrun, hord, hcount, hmono, hclosed, _⟩ := @ih (i + 1) s₁ hc
        (show i + 1 + n ≤ s.windowCount by omega)
      have hidx' : (s'.windows idx).used = false :=
        hmono idx (by simp [s₁, Desktop.modifyWindow])
      refine ⟨s', by rw [if_pos hcl]; exact hrun, hord, hcount, fun j hj => hmono j ?_,
        fun k h₁ h₂ j hj hjc => ?_, fun hnone => ?_⟩
      · by_cases hji : j = idx
        · simp [s₁, Desktop.modifyWindow, hji]
        · simpa [s₁, Desktop.modifyWindow, hji] using hj
      · by_cases hji : j = idx
        · rw [hji]
          exact hidx'
        · have hki : k ≠ i := fun hki => hji (by
            rw [hki, hget, Option.some.injEq] at hj
            exact hj.symm)
          refine hclosed k (by omega) (by omega) j hj ?_
          simpa [closes, s₁, Desktop.modifyWindow, hji] using hjc
      · rw [hnone i idx hget] at hcl
        exact absurd hcl (by simp)
    · obtain ⟨s', hrun, hord, hcount, hmono, hclosed, hsame⟩ := @ih (i + 1) s hc (by omega)
      refine ⟨s', by rw [if_neg hcl]; exact hrun, hord, hcount, hmono,
        fun k h₁ h₂ j hj hjc => ?_, hsame⟩
      by_cases hki : k = i
      · rw [hki, hget, Option.some.injEq] at hj
        rw [hki, ← hj] at hjc
        exact absurd hjc hcl
      · exact hclosed k (by omega) (by omega) j hj hjc

theorem taskbarLoop_eq (stringWidth : String → ℤ) (bxMax : ℤ) {s : Desktop}
    (hc : s.windowCount ≤ maxWindows) {n i : ℕ} (hn : i + n ≤ s.windowCount) (bx : ℤ)
    (buttons : List TaskbarButton) :
    ∃ r, taskbarLoop stringWidth bxMax s n i bx buttons = some r := by
  induction n generalizing i bx buttons with
  | zero => exact ⟨buttons, rfl⟩
  | succ n ih =>
    obtain ⟨idx, hidx, _⟩ := orderAt_eq hc (show i < s.windowCount by omega)
    simp only [taskbarLoop, hidx]
    split
    · exact ih (by omega) _ _
    · split
      · exact ⟨buttons, rfl⟩
      · exact ih (by omega) _ _

/-- A frame succeeds, and it closes a window exactly when a visible window's program is gone. -/
theorem drawFrame_spec {s : Desktop} (h : TableInv s) (inp : FrameInput) :
    ∃ s', drawFrame inp s = some s' ∧
      (TableInv s' ↔ ∀ k idx, s.order[k]? = some idx → closes (inp.alive k) s idx = false) := by
  obtain ⟨top, htop⟩ := topmostBelow_eq h.count_le Window.visible le_rfl
  let s₁ : Desktop := { s with topmostVisible := top }
  obtain ⟨s', hrun, hord, hcount, _, hclosed, hsame⟩ := drawLoop_eq inp.alive (s := s₁) (i := 0)
    h.count_le (Nat.zero_add _).le
  have hc' : s'.windowCount ≤ maxWindows := hcount ▸ h.count_le
  obtain ⟨buttons, hbuttons⟩ := taskbarLoop_eq inp.stringWidth inp.bxMax hc' (i := 0)
    (Nat.zero_add _).le inp.bx []
  have horder : s'.order = s.order := by rw [Desktop.order, hord, hcount, Desktop.order]
  refine ⟨{ s' with taskbarButtons := buttons }, ?_, fun hinv k idx hidx => ?_, fun hnone => ?_⟩
  · rw [drawFrame, findTopmostVisible, htop]
    simp only [s₁] at hrun
    simp only [hrun, hbuttons]
  · -- a closed window would still be listed
    by_contra hcl
    have hk : k < s.windowCount := by
      rw [← length_order h.count_le]
      exact (List.getElem?_eq_some_iff.mp hidx).1
    have hunused := hclosed k (Nat.zero_le _) (by simpa [s₁] using hk) idx hidx
      (show closes (inp.alive k) s idx = true by simpa using hcl)
    have hused := (hinv.used idx).mp (by
      change idx ∈ s'.order
      rw [horder]
      exact List.mem_of_getElem? hidx)
    rw [show ({ s' with taskbarButtons := buttons } : Desktop).windows idx =
      s'.windows idx from rfl, hunused] at hused
    exact absurd hused (by simp)
  · have hs' : s' = s₁ := hsame hnone
    exact h.congr hord hcount fun i => by rw [hs']

/-- The steps that end a window without taking it out of the order. -/
def Breaks (s : Desktop) : WmEvent → Prop
  | .exit => ∃ idx, s.topmostVisible = some idx ∧ (s.windows idx).paint = .terminal ∧
      (s.windows idx).used = true
  | .frame inp => ∃ k idx, s.order[k]? = some idx ∧ closes (inp.alive k) s idx = true
  | _ => False

/-- `exit` keeps the invariant only where it closes nothing. -/
theorem terminalExit_spec {s : Desktop} (h : TableInv s) :
    TableInv (terminalExit s) ↔ ¬ Breaks s .exit := by
  constructor
  · rintro hinv ⟨idx, htop, hpaint, hused⟩
    have heq : terminalExit s = s.modifyWindow idx fun win => { win with used := false } := by
      rw [terminalExit, htop]
      exact if_pos hpaint
    have hmem : idx ∈ (terminalExit s).order := by
      rw [heq]
      exact (h.used idx).mpr hused
    have hused' := (hinv.used idx).mp hmem
    rw [heq] at hused'
    simp [Desktop.modifyWindow] at hused'
  · intro hgood
    rw [terminalExit]
    cases htop : s.topmostVisible with
    | none => exact h
    | some idx =>
      simp only
      split
      · next hpaint =>
        refine h.congr rfl rfl fun i => ?_
        by_cases hi : i = idx
        · subst hi
          have hunused : (s.windows i).used = false := by
            by_contra hused
            exact hgood ⟨i, htop, hpaint, by simpa using hused⟩
          simp [Desktop.modifyWindow, hunused]
        · simp [Desktop.modifyWindow, hi]
      · exact h

/-- From a state with the invariant every step succeeds, and it keeps the invariant exactly when
    it is not one of the two that break it. -/
theorem step_inv {s : Desktop} (h : TableInv s) (e : WmEvent) :
    ∃ s', Desktop.step e s = some s' ∧ (TableInv s' ↔ ¬ Breaks s e) := by
  have hkeep : ∀ {r : Option Desktop}, (∃ s', r = some s' ∧ TableInv s') → ¬ Breaks s e →
      ∃ s', r = some s' ∧ (TableInv s' ↔ ¬ Breaks s e) :=
    fun ⟨s', hs', hinv⟩ hno => ⟨s', hs', iff_of_true hinv hno⟩
  cases e with
  | openApp appIndex => exact hkeep (launchOrFocusApp_spec h appIndex) id
  | launchApp filename loaded => exact hkeep (wmLaunchApp_spec h filename loaded) id
  | click x y => exact hkeep (handleClick_spec h x y) id
  | held mx my => exact hkeep ⟨_, rfl, mouseHeld_inv h mx my⟩ id
  | release => exact hkeep ⟨_, rfl, h.congr rfl rfl fun _ => rfl⟩ id
  | rescale naturalSize => exact hkeep ⟨_, rfl, rescaleAllWindows_inv h naturalSize⟩ id
  | exit => exact ⟨_, rfl, terminalExit_spec h⟩
  | frame inp =>
    obtain ⟨s', hrun, hiff⟩ := drawFrame_spec h inp
    refine ⟨s', hrun, hiff.trans ?_⟩
    simp only [Breaks, not_exists, not_and, Bool.not_eq_true]

/-- The invariant holds in every state of the run, and no access leaves `window_order`. -/
def RunInv : List WmEvent → Desktop → Prop
  | [], s => TableInv s
  | e :: es, s => TableInv s ∧ ∃ s', Desktop.step e s = some s' ∧ RunInv es s'

/-- No step of the run ends a window behind the order's back. -/
def RunClean : List WmEvent → Desktop → Prop
  | [], _ => True
  | e :: es, s => ¬ Breaks s e ∧ ∀ s', Desktop.step e s = some s' → RunClean es s'

theorem runInv_iff {s : Desktop} (h : TableInv s) (es : List WmEvent) :
    RunInv es s ↔ RunClean es s := by
  induction es generalizing s with
  | nil => exact iff_of_true h trivial
  | cons e es ih =>
    obtain ⟨s', hstep, hiff⟩ := step_inv h e
    constructor
    · rintro ⟨_, s'', hstep', hrun⟩
      rw [hstep] at hstep'
      obtain rfl := Option.some.inj hstep'
      have hinv' : TableInv s' := by
        cases es with
        | nil => exact hrun
        | cons _ _ => exact hrun.1
      refine ⟨hiff.mp hinv', fun t ht => ?_⟩
      rw [hstep] at ht
      obtain rfl := Option.some.inj ht
      exact (ih hinv').mp hrun
    · rintro ⟨hno, hrest⟩
      exact ⟨h, s', hstep, (ih (hiff.mpr hno)).mpr (hrest s' hstep)⟩

/-- From the empty desktop, the window table is right after every step of a run exactly when in
    no step a Terminal is left with `exit` and in no frame a visible window's program is gone when
    the window is painted. -/
theorem run_inv_iff (screenW screenH : ℤ) (naturalSize : Paint → ℤ × ℤ) (es : List WmEvent) :
    RunInv es (wmInit screenW screenH naturalSize) ↔
      RunClean es (wmInit screenW screenH naturalSize) :=
  runInv_iff (wmInit_inv screenW screenH naturalSize) es

/-- A frame in which every program is alive, on a taskbar without room for buttons. -/
def quietFrame : WmEvent := .frame ⟨fun _ _ => true, fun _ => 0, 0, 0⟩

/-- A Terminal is opened, drawn and left with `exit`. -/
def openAndExit : List WmEvent := [.openApp 6, quietFrame, .exit]

/-- Eight times in a row. -/
def openAndExitAgain : List WmEvent := (List.replicate 8 openAndExit).flatten

/-- After one such round the closed window is still listed; after eight, opening a ninth Terminal
    writes to `window_order[8]`. -/
theorem exit_breaks_table :
    ¬ RunInv openAndExit (wmInit 1024 768 fun _ => (400, 300)) ∧
      ((openAndExitAgain ++ [WmEvent.openApp 6]).foldlM (fun s e => Desktop.step e s)
        (wmInit 1024 768 fun _ => (400, 300))) = none := by
  refine ⟨?_, by decide⟩
  rw [openAndExit, runInv_iff (wmInit_inv _ _ _)]
  rintro ⟨-, hrest⟩
  obtain ⟨-, hrest⟩ := hrest _ rfl
  obtain ⟨hno, -⟩ := hrest _ rfl
  exact hno ⟨0, rfl, rfl, rfl⟩

end AuroraOS.Wm
