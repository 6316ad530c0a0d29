import AuroraOS.Apps.System
import AuroraOS.Lib.Runs

/-!
# The pixel caches of loaded programs

The window of a loaded program must not become larger than the cache that holds its pixels.
Creating and resizing respect that; full screen does not, and neither does another UI scale when
the program's file has the name of a built-in app.

## Main results

- `cacheBound_iff`
-/

namespace AuroraOS.Apps

open AuroraOS.Wm AuroraOS.Lib

/-- `wm_window_rect`. -/
def wmWindowRect (s : Desktop) (windowId : ℤ) : Option (ℤ × ℤ × ℤ × ℤ) :=
  if h : 0 ≤ windowId ∧ windowId < maxWindows then
    let win := s.windows ⟨windowId.toNat, by omega⟩
    if win.used then some (win.x, win.y + titlebarH, win.w, win.h) else none
  else none

/-- The cells of `app_cache[slot]`, by row and column, that `apploader_cache_snapshot` and
    `apploader_cache_restore` access for a window of the given size. -/
def cacheCells (w h : ℤ) : List (ℕ × ℕ) :=
  (List.range h.toNat).flatMap fun y => (List.range w.toNat).map fun x => (y, x)

/-- The windows of loaded programs fit into their caches. -/
structure CacheBound (s : System) : Prop where
  size_le : ∀ i, s.desk.Loaded i → ∀ x y w h, wmWindowRect s.desk i = some (x, y, w, h) →
    w ≤ appCacheW ∧ h ≤ appCacheH
  cells_inside : ∀ i, s.desk.Loaded i → ∀ x y w h, wmWindowRect s.desk i = some (x, y, w, h) →
    ∀ p ∈ cacheCells w h, (p.1 : ℤ) < appCacheH ∧ (p.2 : ℤ) < appCacheW

/-- A size that fits into the cache. -/
def Fits (w h : ℤ) : Prop := w ≤ appCacheW ∧ h ≤ appCacheH

/-- The step does not bring a window of a loaded program to full screen on a screen that is larger
    than the cache or back from it to a larger size, and does not give it the size of a built-in
    app of the same name that is larger. -/
def StepKeepsSizes (s : System) : SysEvent → Prop
  | .click x y => ∀ idx, ClickToggles s.desk x y idx → s.desk.Loaded idx →
      if (s.desk.windows idx).fullscreen then
        Fits (s.desk.windows idx).restoreW (s.desk.windows idx).restoreH
      else Fits s.desk.screenW (s.desk.screenH - taskbarH - titlebarH)
  | .rescale naturalSize => ∀ idx, s.desk.Loaded idx → (s.desk.windows idx).fullscreen = false →
      ∀ app, apps.find? (·.name = (s.desk.windows idx).title) = some app →
        Fits (naturalSize app.paint).1 (naturalSize app.paint).2
  | _ => True

/-- The windows of loaded programs fit. -/
def Desktop.LoadedFit (s : Desktop) : Prop :=
  ∀ i, s.Loaded i → Fits (s.windows i).w (s.windows i).h

theorem wmWindowRect_of_loaded {s : Desktop} {i : Fin maxWindows} (h : s.Loaded i) :
    wmWindowRect s i =
      some ((s.windows i).x, (s.windows i).y + titlebarH, (s.windows i).w, (s.windows i).h) := by
  have hi := i.isLt
  rw [wmWindowRect, dif_pos (by omega)]
  simp [h.1]

theorem cacheBound_iff_fit {s : System} : CacheBound s ↔ Desktop.LoadedFit s.desk := by
  constructor
  · intro h i hi
    exact h.size_le i hi _ _ _ _ (wmWindowRect_of_loaded hi)
  · intro h
    have hsize : ∀ i, s.desk.Loaded i → ∀ x y w h, wmWindowRect s.desk i = some (x, y, w, h) →
        w ≤ appCacheW ∧ h ≤ appCacheH := by
      intro i hi x y w height hrect
      rw [wmWindowRect_of_loaded hi] at hrect
      obtain ⟨-, -, rfl, rfl⟩ := Prod.mk.injEq .. ▸ Option.some.inj hrect
      exact h i hi
    refine ⟨hsize, fun i hi x y w height hrect p hp => ?_⟩
    obtain ⟨hw, hh⟩ := hsize i hi x y w height hrect
    simp only [cacheCells, List.mem_flatMap, List.mem_range, List.mem_map] at hp
    obtain ⟨row, hrow, col, hcol, rfl⟩ := hp
    constructor
    · simp only
      omega
    · simp only
      omega

section desk

variable {s s' : Desktop}

/-- No window is added and none changes its size. -/
theorem LoadedFit.of_same (h : Desktop.LoadedFit s)
    (hsame : ∀ i, s'.Loaded i → s.Loaded i ∧ (s'.windows i).w = (s.windows i).w ∧
      (s'.windows i).h = (s.windows i).h) : Desktop.LoadedFit s' := by
  intro i hi
  obtain ⟨hl, hw, hh⟩ := hsame i hi
  rw [hw, hh]
  exact h i hl

theorem LoadedFit.keeps (h : Desktop.LoadedFit s) (hk : KeepsWindows s s') :
    Desktop.LoadedFit s' := by
  refine LoadedFit.of_same h fun i hi => ⟨(hk.1 i).loaded_iff.mp hi, ?_⟩
  obtain ⟨m, hm⟩ := hk.1 i
  rw [hm]
  exact ⟨rfl, rfl⟩

/-- A window changes in place. -/
theorem LoadedFit.modify (h : Desktop.LoadedFit s) {idx : Fin maxWindows} {f : Window → Window}
    (hf : ∀ win, (f win).used = win.used ∧ (f win).paint = win.paint)
    (hfit : s.Loaded idx → Fits (f (s.windows idx)).w (f (s.windows idx)).h) :
    Desktop.LoadedFit (s.modifyWindow idx f) := by
  intro i hi
  have hl := (modifyWindow_loaded hf i).mp hi
  by_cases hidx : i = idx
  · subst hidx
    simpa [Desktop.modifyWindow] using hfit hl
  · simpa [Desktop.modifyWindow, hidx] using h i hl

theorem LoadedFit.closed (h : Desktop.LoadedFit s) (idx : Fin maxWindows) :
    Desktop.LoadedFit (s.modifyWindow idx fun win => { win with used := false }) := by
  refine LoadedFit.of_same h fun i hi => ?_
  obtain ⟨hl, hne⟩ := (closed_loaded i).mp hi
  exact ⟨hl, by simp [Desktop.modifyWindow, hne]⟩

theorem LoadedFit.onlyOrder (h : Desktop.LoadedFit s) (horder : OnlyOrder s s') :
    Desktop.LoadedFit s' :=
  LoadedFit.keeps h horder.keepsWindows

theorem openApp_fit (h : Desktop.LoadedFit s) {appIndex : ℕ}
    (hs' : launchOrFocusApp appIndex s = some s') : Desktop.LoadedFit s' := by
  obtain hkeeps | ⟨i, win, hfree, hpaint, hkeeps⟩ := launchOrFocusApp_cases hs'
  · exact LoadedFit.keeps h hkeeps
  · refine LoadedFit.keeps (LoadedFit.of_same h fun j hj => ?_) hkeeps
    by_cases hji : j = i
    · subst hji
      exact absurd hj.2 (by simpa using hpaint)
    · simpa [Desktop.Loaded, hji] using hj

/-- Dragging moves a window, and the grip stops at the size of the cache. -/
theorem held_fit (h : Desktop.LoadedFit s) (mx my : ℤ) : Desktop.LoadedFit (mouseHeld mx my s) := by
  have hdrag : Desktop.LoadedFit (dragPass mx my s) := by
    rw [dragPass]
    split
    · exact h
    · next idx offX offY _ =>
      exact LoadedFit.modify h (fun _ => ⟨rfl, rfl⟩) fun hl => h idx hl
  rw [mouseHeld, resizePass]
  split
  · exact hdrag
  · next idx startW startH startMx startMy _ =>
    refine LoadedFit.modify hdrag (fun _ => ⟨rfl, rfl⟩) fun hl => ?_
    simp only [resizeTo, hl.2, if_true, Fits]
    constructor
    · split <;> omega
    · split <;> omega

/-- A window keeps its size or gets that of the built-in app with its title. -/
theorem rescale_size (naturalSize : Paint → ℤ × ℤ) (i : Fin maxWindows)
    (hused : (s.windows i).used = true) :
    (((rescaleAllWindows naturalSize s).windows i).w = (s.windows i).w ∧
      ((rescaleAllWindows naturalSize s).windows i).h = (s.windows i).h ∧
      ((s.windows i).fullscreen = false →
        apps.find? (·.name = (s.windows i).title) = none)) ∨
    ∃ app, apps.find? (·.name = (s.windows i).title) = some app ∧
      (s.windows i).fullscreen = false ∧
      ((rescaleAllWindows naturalSize s).windows i).w = (naturalSize app.paint).1 ∧
      ((rescaleAllWindows naturalSize s).windows i).h = (naturalSize app.paint).2 := by
  simp only [rescaleAllWindows, hused, not_true_eq_false, if_false]
  cases hfind : apps.find? (·.name = (s.windows i).title) with
  | none => exact .inl ⟨rfl, rfl, fun _ => rfl⟩
  | some app =>
    by_cases hfull : (s.windows i).fullscreen = true
    · exact .inl (by simp [rescaleWindow, hfull])
    · exact .inr ⟨app, rfl, by simpa using hfull, by simp [rescaleWindow, hfull],
        by simp [rescaleWindow, hfull]⟩

end desk

/-- What holds between the events of a run in which all steps meet the condition. -/
structure CacheInv (s : System) : Prop where
  rest : AtRest s.apps
  fit : Desktop.LoadedFit s.desk

theorem paintApploader_cacheInv {s s' : System} (h : CacheInv s) {e : SliceEnd}
    {idx : Fin maxWindows} (hs' : s.paintApploader e idx = some s') : CacheInv s' := by
  simp only [System.paintApploader] at hs'
  split at hs'
  · obtain rfl := Option.some.inj hs'
    exact ⟨h.rest, LoadedFit.closed h.fit idx⟩
  · next halive =>
    obtain ⟨k, hk, hrunning⟩ := running_of_slotIsAlive (by simpa using halive)
    rw [hk] at hs'
    cases hbegin : resumeBegin (k : ℤ) s.apps with
    | none => simp [hbegin] at hs'
    | some a₁ =>
      simp only [hbegin] at hs'
      obtain ⟨a₂, hend, rfl⟩ := Option.map_eq_some_iff.mp hs'
      exact ⟨(resumeSlice_spec h.rest hrunning hbegin hend).1, h.fit⟩

/-- A program cannot ask for a window larger than the cache. -/
theorem launch_cacheInv {s s' : System} (h : CacheInv s) {filename : String} {file : ProgramFile}
    {e : SliceEnd} (hs' : s.launch filename file e = some s') : CacheInv s' := by
  rw [System.launch] at hs'
  split at hs'
  · exact Option.some.inj hs' ▸ h
  · next k hfree =>
    split at hs'
    · exact absurd hs' (by simp)
    · next a₁ hbegin =>
      split at hs'
      · exact absurd hs' (by simp)
      · next a₂ hend =>
        obtain ⟨desk, hwm, rfl⟩ := Option.map_eq_some_iff.mp hs'
        obtain ⟨hrest, -, -⟩ := launchSlice_spec h.rest hfree hbegin hend
        refine ⟨hrest, ?_⟩
        by_cases hused : (a₂.slots k).state = .unused
        · rw [if_pos hused] at hwm
          exact Option.some.inj hwm ▸ h.fit
        · obtain ⟨i, hres⟩ := hrest.resumable k hused
          rw [if_neg hused] at hwm
          obtain ⟨-, rfl⟩ | ⟨j, win, -, -, -, hw, hh, -, hkeep⟩ := wmLaunchApp_cases hwm
          · exact h.fit
          · refine LoadedFit.keeps (fun i' hi' => ?_) hkeep
            by_cases hij : i' = j
            · subst hij
              simp only [Function.update_self, hw, hh]
              exact hres.pending_le
            · simp only [Desktop.Loaded, Function.update_of_ne hij] at hi' ⊢
              exact h.fit i' hi'

theorem step_cacheInv {s s' : System} {e : SysEvent} (h : CacheInv s) (hkeeps : StepKeepsSizes s e)
    (hs' : s.step e = some s') : CacheInv s' := by
  cases e with
  | launch filename file e => exact launch_cacheInv h hs'
  | frame slices stringWidth bx bxMax =>
    exact frame_keeps (fun _ _ _ _ h => paintApploader_cacheInv h)
      (fun _ _ _ h => ⟨h.rest, h.fit⟩) h hs'
  | click x y =>
    obtain ⟨desk, hclick, rfl⟩ := Option.map_eq_some_iff.mp hs'
    refine ⟨h.rest, ?_⟩
    obtain ⟨idx, -, horder⟩ | ⟨idx, htoggle, horder⟩ | ⟨-, -, hkeep⟩ := handleClick_cases hclick
    · exact LoadedFit.onlyOrder (LoadedFit.closed h.fit idx) horder
    · refine LoadedFit.onlyOrder
        (LoadedFit.modify h.fit (toggleFullscreen_used_paint _ _) ?_) horder
      intro hl
      have hfits := hkeeps idx htoggle hl
      by_cases hfull : (s.desk.windows idx).fullscreen = true
      · simpa [toggleFullscreen, hfull] using hfits
      · simpa [toggleFullscreen, hfull] using hfits
    · exact LoadedFit.keeps h.fit hkeep
  | openApp appIndex =>
    obtain ⟨desk, hopen, rfl⟩ := Option.map_eq_some_iff.mp hs'
    exact ⟨h.rest, openApp_fit h.fit hopen⟩
  | held mx my =>
    obtain rfl := Option.some.inj hs'
    exact ⟨h.rest, held_fit h.fit mx my⟩
  | release =>
    obtain rfl := Option.some.inj hs'
    exact ⟨h.rest, h.fit⟩
  | rescale naturalSize =>
    obtain rfl := Option.some.inj hs'
    refine ⟨h.rest, fun i hi => ?_⟩
    have hl := ((rescaleAllWindows_sameLoaded naturalSize s.desk).1 i).mp hi
    obtain ⟨hw, hh, -⟩ | ⟨app, hfind, hfull, hw, hh⟩ := rescale_size naturalSize i hl.1
    · rw [hw, hh]
      exact h.fit i hl
    · rw [hw, hh]
      exact hkeeps i hl hfull app hfind
  | exit =>
    obtain rfl := Option.some.inj hs'
    refine ⟨h.rest, ?_⟩
    simp only [terminalExit]
    split
    · exact h.fit
    · split
      · exact LoadedFit.closed h.fit _
      · exact h.fit

/-- A window gets a size that does not fit. -/
theorem step_breaks_sizes {s s' : System} {e : SysEvent} (hnot : ¬ StepKeepsSizes s e)
    (hs' : s.step e = some s') : ¬ CacheBound s' := by
  rw [cacheBound_iff_fit]
  intro hfit
  cases e with
  | click x y =>
    simp only [StepKeepsSizes, not_forall] at hnot
    obtain ⟨idx, htoggle, hl, hbad⟩ := hnot
    obtain ⟨desk, hclick, rfl⟩ := Option.map_eq_some_iff.mp hs'
    obtain ⟨idx', hclose, -⟩ | ⟨idx', htoggle', horder⟩ | ⟨-, hnotoggle, -⟩ :=
      handleClick_cases hclick
    · have hidx : idx' = idx := by simpa using hclose.1.2.symm.trans htoggle.1.2
      subst hidx
      have := htoggle.2.2.1
      have := hclose.2.2.2
      omega
    · have hidx : idx' = idx := by simpa using htoggle'.1.2.symm.trans htoggle.1.2
      subst hidx
      have hl' : desk.Loaded idx' := (horder.loaded_iff idx').mpr
        ((modifyWindow_loaded (toggleFullscreen_used_paint _ _) idx').mpr hl)
      have hfits := hfit idx' hl'
      obtain ⟨_, _, rfl⟩ := horder
      apply hbad
      by_cases hfull : (s.desk.windows idx').fullscreen = true
      · simpa [Desktop.modifyWindow, toggleFullscreen, hfull] using hfits
      · simpa [Desktop.modifyWindow, toggleFullscreen, hfull] using hfits
    · exact hnotoggle idx htoggle
  | rescale naturalSize =>
    simp only [StepKeepsSizes, not_forall] at hnot
    obtain ⟨idx, hl, hfull, app, hfind, hbad⟩ := hnot
    obtain rfl := Option.some.inj hs'
    have hl' := ((rescaleAllWindows_sameLoaded naturalSize s.desk).1 idx).mpr hl
    have hfits := hfit idx hl'
    obtain ⟨-, -, hnone⟩ | ⟨app', hfind', -, hw, hh⟩ := rescale_size naturalSize idx hl.1
    · exact absurd (hfind.symm.trans (hnone hfull)) (by simp)
    · obtain rfl := Option.some.inj (hfind.symm.trans hfind')
      rw [hw, hh] at hfits
      exact hbad hfits
  | _ => exact absurd trivial hnot

theorem boot_cacheInv (screenW screenH : ℤ) (naturalSize : Paint → ℤ × ℤ) :
    CacheInv (System.boot screenW screenH naturalSize) :=
  ⟨boot_atRest, fun _ h => absurd h.1 (by simp [System.boot, wmInit, Window.zero])⟩

/-- The windows of loaded programs fit into their caches in a run exactly when no step of it
    toggles full screen to a size that does not fit, and no other UI scale gives one of them the
    natural size of a built-in app that does not fit. -/
theorem cacheBound_iff (screenW screenH : ℤ) (naturalSize : Paint → ℤ × ℤ) (es : List SysEvent) :
    Always System.step CacheBound es (System.boot screenW screenH naturalSize) ↔
      Meets System.step StepKeepsSizes es (System.boot screenW screenH naturalSize) :=
  always_iff_meets (fun _ h => cacheBound_iff_fit.mpr h.fit) (fun _ _ _ => step_cacheInv)
    (fun _ _ _ _ => step_breaks_sizes) es (boot_cacheInv screenW screenH naturalSize)

/-- A program gets its window, and a click on the full-screen button enlarges it. -/
def launchThenFullscreen : List SysEvent :=
  [.launch "APP.BIN" .good (.createWindow 200 100), .click 310 251]

/-- On a screen of 1024 by 768 pixels the window is larger than the cache. -/
theorem fullscreen_exceeds_cache :
    ¬ Always System.step CacheBound launchThenFullscreen
      (System.boot 1024 768 fun _ => (480, 300)) := by
  intro h
  have hset : (launchThenFullscreen.foldlM System.step
      (System.boot 1024 768 fun _ => (480, 300))).any
        (fun s => decide (s.desk.Loaded 0) && decide ((s.desk.windows 0).w = 1024)) = true := by
    decide
  obtain ⟨s, hs, hbad⟩ := (Option.any_eq_true _ _).mp hset
  simp only [Bool.and_eq_true, decide_eq_true_eq] at hbad
  have hfits := cacheBound_iff_fit.mp (h.last hs) 0 hbad.1
  rw [hbad.2] at hfits
  exact absurd hfits.1 (by decide)

end AuroraOS.Apps
