import AuroraOS.Wm.Model

/-!
# What a step does to the windows

Whatever the state of `window_order`, a step of the window manager that succeeds changes the
windows themselves in few ways. These lemmas say in which, without the invariant of the table.

## Main results

- `handleClick_cases` — a click closes a window, toggles full screen, or changes no window except
  for hiding or showing it
- `launchOrFocusApp_cases`, `wmLaunchApp_cases`
-/

namespace AuroraOS.Wm

/-- The states differ in the order of the windows only. -/
def OnlyOrder (s s' : Desktop) : Prop :=
  ∃ order count, s' = { s with windowOrder := order, windowCount := count }

theorem OnlyOrder.refl (s : Desktop) : OnlyOrder s s := ⟨_, _, rfl⟩

theorem raiseWindow_onlyOrder {s s' : Desktop} {idx : Fin maxWindows}
    (h : raiseWindow idx s = some s') : OnlyOrder s s' := by
  rw [raiseWindow] at h
  split at h
  · exact absurd h (by simp)
  · exact Option.some.inj h ▸ .refl s
  · split at h
    · exact absurd h (by simp)
    · split at h
      · exact ⟨_, _, (Option.some.inj h).symm⟩
      · exact absurd h (by simp)

theorem removeFromOrder_onlyOrder {s s' : Desktop} {idx : Fin maxWindows}
    (h : removeFromOrder idx s = some s') : OnlyOrder s s' := by
  rw [removeFromOrder] at h
  split at h
  · exact absurd h (by simp)
  · exact Option.some.inj h ▸ .refl s
  · split at h
    · exact absurd h (by simp)
    · exact ⟨_, _, (Option.some.inj h).symm⟩

/-- A window with the same contents that may be hidden or shown. -/
def SameButMinimized (win win' : Window) : Prop := ∃ m, win' = { win with minimized := m }

theorem SameButMinimized.refl (win : Window) : SameButMinimized win win := ⟨_, rfl⟩

/-- Every window keeps its contents. -/
def KeepsWindows (s s' : Desktop) : Prop :=
  (∀ i, SameButMinimized (s.windows i) (s'.windows i)) ∧
    s'.apploaderWindowSlot = s.apploaderWindowSlot ∧ s'.screenW = s.screenW ∧
    s'.screenH = s.screenH

theorem KeepsWindows.refl (s : Desktop) : KeepsWindows s s :=
  ⟨fun _ => .refl _, rfl, rfl, rfl⟩

theorem OnlyOrder.keepsWindows {s s' : Desktop} (h : OnlyOrder s s') : KeepsWindows s s' := by
  obtain ⟨_, _, rfl⟩ := h
  exact .refl _

theorem keepsWindows_minimized (s : Desktop) (idx : Fin maxWindows) (m : Bool) :
    KeepsWindows s (s.modifyWindow idx fun win => { win with minimized := m }) := by
  refine ⟨fun i => ?_, rfl, rfl, rfl⟩
  by_cases hi : i = idx
  · subst hi
    exact ⟨m, by simp [Desktop.modifyWindow]⟩
  · exact ⟨(s.windows i).minimized, by simp [Desktop.modifyWindow, hi]⟩

theorem KeepsWindows.trans {s₁ s₂ s₃ : Desktop} (h₁ : KeepsWindows s₁ s₂)
    (h₂ : KeepsWindows s₂ s₃) : KeepsWindows s₁ s₃ := by
  obtain ⟨hw₁, ha₁, hsw₁, hsh₁⟩ := h₁
  obtain ⟨hw₂, ha₂, hsw₂, hsh₂⟩ := h₂
  refine ⟨fun i => ?_, ha₂.trans ha₁, hsw₂.trans hsw₁, hsh₂.trans hsh₁⟩
  obtain ⟨m₁, h₁⟩ := hw₁ i
  obtain ⟨m₂, h₂⟩ := hw₂ i
  exact ⟨m₂, by rw [h₂, h₁]⟩

/-- The click goes to window `idx`. -/
def ClickHits (s : Desktop) (x y : ℤ) (idx : Fin maxWindows) : Prop :=
  s.taskbarButtons.find? (·.contains x y) = none ∧ topmostWindowAt x y s = some (some idx)

/-- The click is on a row of the title bar's buttons, `left` pixels from the window's edge. -/
def Window.onButton (win : Window) (left x y : ℤ) : Prop :=
  (win.y + titlebarH.tdiv 2 - 6 ≤ y ∧ y < win.y + titlebarH.tdiv 2 + 6) ∧
    win.x + left ≤ x ∧ x < win.x + left + 12

/-- The click is on the close button of window `idx`. -/
def ClickCloses (s : Desktop) (x y : ℤ) (idx : Fin maxWindows) : Prop :=
  ClickHits s x y idx ∧ (s.windows idx).onButton 14 x y

/-- The click is on the full-screen button of window `idx`. -/
def ClickToggles (s : Desktop) (x y : ℤ) (idx : Fin maxWindows) : Prop :=
  ClickHits s x y idx ∧ (s.windows idx).onButton 54 x y

theorem clickTaskbar_keepsWindows {s s' : Desktop} {btn : TaskbarButton}
    (h : clickTaskbar btn s = some s') : KeepsWindows s s' := by
  rw [clickTaskbar] at h
  split at h
  · exact absurd h (by simp)
  · split at h
    · exact (keepsWindows_minimized s btn.windowIdx false).trans
        (raiseWindow_onlyOrder h).keepsWindows
    · split at h
      · exact Option.some.inj h ▸ keepsWindows_minimized s btn.windowIdx true
      · exact (raiseWindow_onlyOrder h).keepsWindows

/-- What a click does to the windows. -/
theorem handleClick_cases {s s' : Desktop} {x y : ℤ} (h : handleClick x y s = some s') :
    (∃ idx, ClickCloses s x y idx ∧
      OnlyOrder (s.modifyWindow idx fun win => { win with used := false }) s') ∨
    (∃ idx, ClickToggles s x y idx ∧
      OnlyOrder (s.modifyWindow idx (toggleFullscreen s.screenW s.screenH)) s') ∨
    ((∀ idx, ¬ ClickCloses s x y idx) ∧ (∀ idx, ¬ ClickToggles s x y idx) ∧ KeepsWindows s s') := by
  rw [handleClick] at h
  split at h
  · next btn hbtn =>
    have hhit : ∀ idx, ¬ ClickHits s x y idx := fun idx hh =>
      absurd (hbtn.symm.trans hh.1) (by simp)
    exact .inr (.inr ⟨fun idx hc => hhit idx hc.1, fun idx hc => hhit idx hc.1,
      clickTaskbar_keepsWindows h⟩)
  · next hbtn =>
    split at h
    · exact absurd h (by simp)
    · next htop =>
      have hhit : ∀ idx, ¬ ClickHits s x y idx := fun idx hh =>
        absurd (htop.symm.trans hh.2) (by simp)
      exact .inr (.inr ⟨fun idx hc => hhit idx hc.1, fun idx hc => hhit idx hc.1,
        Option.some.inj h ▸ .refl s⟩)
    · next idx htop =>
      have hhits : ClickHits s x y idx := ⟨hbtn, htop⟩
      have hunique : ∀ idx', ClickHits s x y idx' → idx' = idx := by
        intro idx' hh
        simpa using hh.2.symm.trans htop
      rw [clickWindow] at h
      split at h
      · exact absurd h (by simp)
      · next s₁ hraise =>
        obtain ⟨order, count, rfl⟩ := raiseWindow_onlyOrder hraise
        simp only at h
        by_cases hclose : (s.windows idx).onButton 14 x y
        · rw [if_pos ⟨hclose.1, hclose.2.1, by have := hclose.2.2; omega⟩] at h
          refine .inl ⟨idx, ⟨hhits, hclose⟩, ?_⟩
          obtain ⟨order', count', rfl⟩ := removeFromOrder_onlyOrder h
          exact ⟨order', count', rfl⟩
        · have hnoclose : ∀ idx', ¬ ClickCloses s x y idx' := fun idx' hc =>
            hclose (hunique idx' hc.1 ▸ hc.2)
          rw [if_neg fun hc => hclose ⟨hc.1, hc.2.1, by have := hc.2.2; omega⟩] at h
          by_cases htoggle : (s.windows idx).onButton 54 x y
          · have hnomin : ¬ (((s.windows idx).y + titlebarH.tdiv 2 - 6 ≤ y ∧
                y < (s.windows idx).y + titlebarH.tdiv 2 + 6) ∧
                (s.windows idx).x + 34 ≤ x ∧ x < (s.windows idx).x + 46) := by
              have := htoggle.2.1
              omega
            rw [if_neg hnomin, if_pos ⟨htoggle.1, htoggle.2.1, by have := htoggle.2.2; omega⟩] at h
            refine .inr (.inl ⟨idx, ⟨hhits, htoggle⟩, ?_⟩)
            obtain rfl := Option.some.inj h
            exact ⟨order, count, rfl⟩
          · have hnotoggle : ∀ idx', ¬ ClickToggles s x y idx' := fun idx' hc =>
              htoggle (hunique idx' hc.1 ▸ hc.2)
            refine .inr (.inr ⟨hnoclose, hnotoggle, ?_⟩)
            have hraised : KeepsWindows s { s with windowOrder := order, windowCount := count } :=
              OnlyOrder.keepsWindows ⟨order, count, rfl⟩
            split at h
            · exact Option.some.inj h ▸ hraised.trans (keepsWindows_minimized _ idx true)
            · rw [if_neg fun hc => htoggle ⟨hc.1, hc.2.1, by have := hc.2.2; omega⟩] at h
              split at h
              · split at h
                · exact Option.some.inj h ▸ hraised
                · exact Option.some.inj h ▸ hraised
              · split at h
                · exact Option.some.inj h ▸ hraised
                · exact Option.some.inj h ▸ hraised

theorem createWindow_cases {s s' : Desktop} {x y w h : ℤ} {title : String} {paint : Paint}
    {r : Option (Fin maxWindows)} (hc : createWindow x y w h title paint s = some (r, s')) :
    (r = none ∧ freeWindow s = none ∧ s' = s) ∨
      ∃ i win, r = some i ∧ freeWindow s = some i ∧ win.used = true ∧ win.paint = paint ∧
        win.w = w ∧ win.h = h ∧ win.fullscreen = false ∧
        OnlyOrder { s with windows := Function.update s.windows i win } s' := by
  rw [createWindow] at hc
  split at hc
  · next hfree =>
    obtain ⟨rfl, rfl⟩ := Prod.mk.inj (Option.some.inj hc)
    exact .inl ⟨rfl, hfree, rfl⟩
  · next i hfree =>
    obtain ⟨s₁, happend, heq⟩ := Option.map_eq_some_iff.mp hc
    obtain ⟨rfl, rfl⟩ := Prod.mk.inj heq
    rw [appendOrder] at happend
    split at happend
    · exact .inr ⟨i, _, rfl, hfree, rfl, rfl, rfl, rfl, rfl, _, _, (Option.some.inj happend).symm⟩
    · exact absurd happend (by simp)

theorem showAndRaise_keepsWindows {s s' : Desktop} {idx : Fin maxWindows}
    (h : showAndRaise idx s = some s') : KeepsWindows s s' :=
  (keepsWindows_minimized s idx false).trans (raiseWindow_onlyOrder h).keepsWindows

/-- Choosing an app shows a window or opens one of a built-in app. -/
theorem launchOrFocusApp_cases {s s' : Desktop} {appIndex : ℕ}
    (h : launchOrFocusApp appIndex s = some s') :
    KeepsWindows s s' ∨
      ∃ i win, freeWindow s = some i ∧ win.paint ≠ .apploader ∧
        KeepsWindows { s with windows := Function.update s.windows i win } s' := by
  have hbuiltin : ∀ app ∈ apps, app.paint ≠ .apploader := by decide
  rw [launchOrFocusApp] at h
  split at h
  · exact .inl (Option.some.inj h ▸ .refl s)
  · next app happ =>
    split at h
    · exact .inl (showAndRaise_keepsWindows h)
    · split at h
      · exact absurd h (by simp)
      · next s₁ hcreate =>
        obtain ⟨-, -, rfl⟩ | ⟨i, win, hi, -⟩ := createWindow_cases hcreate
        · exact .inl (Option.some.inj h ▸ .refl _)
        · exact absurd hi (by simp)
      · next idx s₁ hcreate =>
        obtain ⟨hi, -⟩ | ⟨i, win, -, hfree, -, hpaint, -, -, -, horder⟩ :=
          createWindow_cases hcreate
        · exact absurd hi (by simp)
        · refine .inr ⟨i, win, hfree, ?_, horder.keepsWindows.trans (showAndRaise_keepsWindows h)⟩
          rw [hpaint]
          exact hbuiltin app (List.mem_of_getElem? happ)

/-- Launching a program opens its window if one is free. -/
theorem wmLaunchApp_cases {s s' : Desktop} {filename : String} {slot w h : ℤ}
    (hl : wmLaunchApp filename (some (slot, w, h)) s = some s') :
    (freeWindow s = none ∧ s' = s) ∨
      ∃ i win, freeWindow s = some i ∧ win.used = true ∧ win.paint = .apploader ∧ win.w = w ∧
        win.h = h ∧ win.fullscreen = false ∧
        KeepsWindows { s with
          windows := Function.update s.windows i win
          apploaderWindowSlot := Function.update s.apploaderWindowSlot i slot } s' := by
  simp only [wmLaunchApp] at hl
  split at hl
  · exact absurd hl (by simp)
  · next s₁ hcreate =>
    obtain ⟨-, hfree, rfl⟩ | ⟨i, win, hi, -⟩ := createWindow_cases hcreate
    · exact .inl ⟨hfree, (Option.some.inj hl).symm⟩
    · exact absurd hi (by simp)
  · next idx s₁ hcreate =>
    obtain ⟨hi, -⟩ | ⟨i, win, hi, hfree, hused, hpaint, hw, hh, hfull, order, count, rfl⟩ :=
      createWindow_cases hcreate
    · exact absurd hi (by simp)
    · obtain rfl := Option.some.inj hi
      obtain ⟨hwin, hslot, hsw, hsh⟩ := showAndRaise_keepsWindows hl
      exact .inr ⟨idx, win, hfree, hused, hpaint, hw, hh, hfull, hwin, hslot, hsw, hsh⟩

/-- Window `i` is open and belongs to a loaded program. -/
def Desktop.Loaded (s : Desktop) (i : Fin maxWindows) : Prop :=
  (s.windows i).used = true ∧ (s.windows i).paint = .apploader

instance (s : Desktop) (i : Fin maxWindows) : Decidable (s.Loaded i) :=
  inferInstanceAs (Decidable (_ ∧ _))

theorem SameButMinimized.loaded_iff {s s' : Desktop} {i : Fin maxWindows}
    (h : SameButMinimized (s.windows i) (s'.windows i)) : s'.Loaded i ↔ s.Loaded i := by
  obtain ⟨m, hm⟩ := h
  simp [Desktop.Loaded, hm]

theorem freeWindow_not_loaded {s : Desktop} {i : Fin maxWindows} (h : freeWindow s = some i) :
    ¬ s.Loaded i := by
  have hfree := List.find?_some h
  rintro ⟨hused, -⟩
  simp [hused] at hfree

/-- Changing a window in place keeps the loaded windows. -/
theorem modifyWindow_loaded {s : Desktop} {idx : Fin maxWindows} {f : Window → Window}
    (hf : ∀ win, (f win).used = win.used ∧ (f win).paint = win.paint) (i : Fin maxWindows) :
    (s.modifyWindow idx f).Loaded i ↔ s.Loaded i := by
  by_cases hi : i = idx
  · subst hi
    simp [Desktop.Loaded, Desktop.modifyWindow, hf]
  · simp [Desktop.Loaded, Desktop.modifyWindow, hi]

/-- Closing a window takes it from the loaded windows. -/
theorem closed_loaded {s : Desktop} {idx : Fin maxWindows} (i : Fin maxWindows) :
    (s.modifyWindow idx fun win => { win with used := false }).Loaded i ↔ s.Loaded i ∧ i ≠ idx := by
  by_cases hi : i = idx
  · subst hi
    simp [Desktop.Loaded, Desktop.modifyWindow]
  · simp [Desktop.Loaded, Desktop.modifyWindow, hi]

theorem OnlyOrder.loaded_iff {s s' : Desktop} (h : OnlyOrder s s') (i : Fin maxWindows) :
    s'.Loaded i ↔ s.Loaded i := by
  obtain ⟨_, _, rfl⟩ := h
  rfl

/-- The loaded windows of two states are the same. -/
def SameLoaded (s s' : Desktop) : Prop :=
  (∀ i, s'.Loaded i ↔ s.Loaded i) ∧ s'.apploaderWindowSlot = s.apploaderWindowSlot

theorem KeepsWindows.sameLoaded {s s' : Desktop} (h : KeepsWindows s s') : SameLoaded s s' :=
  ⟨fun i => (h.1 i).loaded_iff, h.2.1⟩

theorem launchOrFocusApp_sameLoaded {s s' : Desktop} {appIndex : ℕ}
    (h : launchOrFocusApp appIndex s = some s') : SameLoaded s s' := by
  obtain hkeeps | ⟨i, win, hfree, hpaint, hkeeps⟩ := launchOrFocusApp_cases h
  · exact hkeeps.sameLoaded
  · refine ⟨fun j => (hkeeps.1 j).loaded_iff.trans ?_, hkeeps.2.1⟩
    by_cases hj : j = i
    · subst hj
      have hnot := freeWindow_not_loaded hfree
      simp only [Desktop.Loaded, Function.update_self, hpaint, and_false, false_iff] at hnot ⊢
      exact hnot
    · simp [Desktop.Loaded, hj]

theorem mouseHeld_sameLoaded (mx my : ℤ) (s : Desktop) : SameLoaded s (mouseHeld mx my s) := by
  have hdrag : SameLoaded s (dragPass mx my s) := by
    rw [dragPass]
    split
    · exact ⟨fun _ => Iff.rfl, rfl⟩
    · exact ⟨modifyWindow_loaded fun win => ⟨rfl, rfl⟩, rfl⟩
  have hresize : SameLoaded (dragPass mx my s) (mouseHeld mx my s) := by
    rw [mouseHeld, resizePass]
    split
    · exact ⟨fun _ => Iff.rfl, rfl⟩
    · exact ⟨modifyWindow_loaded fun win => ⟨rfl, rfl⟩, rfl⟩
  exact ⟨fun i => (hresize.1 i).trans (hdrag.1 i), hresize.2.trans hdrag.2⟩

theorem rescaleWindow_used_paint (screenW screenH newW newH : ℤ) (win : Window) :
    (rescaleWindow screenW screenH newW newH win).used = win.used ∧
      (rescaleWindow screenW screenH newW newH win).paint = win.paint := by
  rw [rescaleWindow]
  split <;> exact ⟨rfl, rfl⟩

theorem rescaleAllWindows_sameLoaded (naturalSize : Paint → ℤ × ℤ) (s : Desktop) :
    SameLoaded s (rescaleAllWindows naturalSize s) := by
  refine ⟨fun i => ?_, rfl⟩
  simp only [Desktop.Loaded, rescaleAllWindows]
  split
  · rfl
  · split
    · rfl
    · rw [(rescaleWindow_used_paint _ _ _ _ _).1, (rescaleWindow_used_paint _ _ _ _ _).2]

theorem terminalExit_sameLoaded (s : Desktop) : SameLoaded s (terminalExit s) := by
  rw [terminalExit]
  split
  · exact ⟨fun _ => Iff.rfl, rfl⟩
  · next idx _ =>
    split
    · next hpaint =>
      refine ⟨fun i => ?_, rfl⟩
      rw [closed_loaded]
      refine ⟨And.left, fun h => ⟨h, ?_⟩⟩
      rintro rfl
      exact absurd (h.2.symm.trans hpaint) (by decide)
    · exact ⟨fun _ => Iff.rfl, rfl⟩

theorem toggleFullscreen_used_paint (screenW screenH : ℤ) (win : Window) :
    (toggleFullscreen screenW screenH win).used = win.used ∧
      (toggleFullscreen screenW screenH win).paint = win.paint := by
  rw [toggleFullscreen]
  split <;> exact ⟨rfl, rfl⟩

end AuroraOS.Wm
