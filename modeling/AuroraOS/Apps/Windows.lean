import AuroraOS.Apps.System
import AuroraOS.Wm.WindowTable

/-!
# The window table under loaded programs

A frame resumes one program after the other, and a program that ends in it is gone for the windows
painted after its own. The draw loop of the whole system closes the windows that the draw loop of
the window table closes when it is told, place by place, which slots are alive. So every step of the
system is a step of the window table, and the table is right in a run of the system exactly when no
step ends a window behind the order's back.

## Main definitions

- `System.aliveWhenPainted` — the slots that are alive when the window at a place is painted
- `StepKeepsTable`

## Main results

- `step_desk` — a step of the system is a step of the window table
- `table_iff` — the window table over whole runs of the system
-/

namespace AuroraOS.Apps

open AuroraOS.Fibers AuroraOS.Wm AuroraOS.Lib

/-- The slots that are alive when the window at place `k` is painted, in a draw loop over `n` places
    from `i` on. -/
def System.aliveWhenPainted (slices : ℕ → SliceEnd) : ℕ → ℕ → System → ℕ → ℤ → Bool
  | 0, _, _, _ => fun _ => false
  | n + 1, i, s, k =>
    if k = i then slotIsAlive s.apps
    else
      match s.desk.orderAt i with
      | none => fun _ => false
      | some idx =>
        match (if (s.desk.windows idx).visible then s.drawWindow (slices i) idx else some s) with
        | none => fun _ => false
        | some s => aliveWhenPainted slices n (i + 1) s k

/-- The frame as the window table sees it. -/
def System.frameInput (slices : ℕ → SliceEnd) (stringWidth : String → ℤ) (bx bxMax : ℤ)
    (s : System) : FrameInput :=
  let top := (findTopmostVisible s.desk).getD none
  ⟨System.aliveWhenPainted slices s.desk.windowCount 0
    { s with desk := { s.desk with topmostVisible := top } }, stringWidth, bx, bxMax⟩

section frame

variable {slices : ℕ → SliceEnd}

/-- The draw loop looks at the places it goes through. -/
theorem drawLoop_congr {alive alive' : ℕ → ℤ → Bool} {n i : ℕ} {d : Desktop}
    (h : ∀ k, i ≤ k → alive k = alive' k) :
    Wm.drawLoop alive n i d = Wm.drawLoop alive' n i d := by
  induction n generalizing i d with
  | zero => rfl
  | succ n ih =>
    simp only [Wm.drawLoop, h i le_rfl]
    cases d.orderAt i with
    | none => rfl
    | some idx => exact ih fun k hk => h k (by omega)

/-- Painting a window, the program resumed or the window closed. -/
theorem drawWindow_desk {s s' : System} {e : SliceEnd} {idx : Fin maxWindows}
    (hs' : s.drawWindow e idx = some s') :
    s'.desk = Wm.drawWindow (slotIsAlive s.apps) idx s.desk := by
  rw [System.drawWindow] at hs'
  rw [Wm.drawWindow]
  split at hs'
  · next hpaint =>
    simp only [System.paintApploader] at hs'
    rw [if_pos hpaint, Wm.paintApploader]
    split at hs'
    · next hdead =>
      obtain rfl := Option.some.inj hs'
      rw [if_neg hdead]
    · next halive =>
      split at hs'
      · exact absurd hs' (by simp)
      · obtain ⟨apps, -, rfl⟩ := Option.map_eq_some_iff.mp hs'
        rw [if_pos (not_not.mp halive)]
  · next hpaint =>
    obtain rfl := Option.some.inj hs'
    rw [if_neg hpaint]

/-- The draw loops agree, place by place. -/
theorem drawLoop_desk {n i : ℕ} {s s' : System} (hs' : System.drawLoop slices n i s = some s') :
    Wm.drawLoop (s.aliveWhenPainted slices n i) n i s.desk = some s'.desk := by
  induction n generalizing i s with
  | zero => exact congrArg (Option.map System.desk) hs'
  | succ n ih =>
    rw [System.drawLoop] at hs'
    rw [Wm.drawLoop]
    split at hs'
    · exact absurd hs' (by simp)
    · next idx hidx =>
      split at hs'
      · exact absurd hs' (by simp)
      · next s₁ hdraw =>
        have hdesk : s₁.desk = if (s.desk.windows idx).visible
            then Wm.drawWindow (slotIsAlive s.apps) idx s.desk else s.desk := by
          split at hdraw
          · next hvisible => rw [if_pos hvisible, drawWindow_desk hdraw]
          · next hhidden =>
            obtain rfl := Option.some.inj hdraw
            rw [if_neg hhidden]
        have hhere : s.aliveWhenPainted slices (n + 1) i i = slotIsAlive s.apps := by
          rw [System.aliveWhenPainted, if_pos rfl]
        -- at the places after `i` the rest of the loop has recorded what is alive
        have hafter : ∀ k, i + 1 ≤ k → s.aliveWhenPainted slices (n + 1) i k =
            s₁.aliveWhenPainted slices n (i + 1) k := by
          intro k hk
          rw [System.aliveWhenPainted, if_neg (by omega), hidx]
          simp only [hdraw]
        simp only [hidx, hhere, ← hdesk]
        rw [drawLoop_congr hafter]
        exact ih hs'

theorem frame_desk {s s' : System} {stringWidth : String → ℤ} {bx bxMax : ℤ}
    (hs' : s.frame slices stringWidth bx bxMax = some s') :
    drawFrame (s.frameInput slices stringWidth bx bxMax) s.desk = some s'.desk := by
  rw [System.frame] at hs'
  split at hs'
  · exact absurd hs' (by simp)
  · next top htop =>
    split at hs'
    · exact absurd hs' (by simp)
    · next s₁ hdraw =>
      have hdesk := drawLoop_desk hdraw
      simp only [drawFrame, System.frameInput, htop, Option.getD_some]
      dsimp only at hdesk
      rw [hdesk]
      split at hs'
      · exact absurd hs' (by simp)
      · next buttons hbuttons =>
        obtain rfl := Option.some.inj hs'
        dsimp only
        rw [hbuttons]

end frame

/-- No Terminal is left with `exit`, and no program is gone when its window is painted. -/
def StepKeepsTable (s : System) : SysEvent → Prop
  | .exit => ¬ Breaks s.desk .exit
  | .frame slices stringWidth bx bxMax =>
    ¬ Breaks s.desk (.frame (s.frameInput slices stringWidth bx bxMax))
  | _ => True

/-- Loading a program leaves the windows alone, whatever comes of it. -/
theorem launch_desk {s s' : System} {filename : String} {file : ProgramFile} {e : SliceEnd}
    (hs' : s.launch filename file e = some s') :
    ∃ loaded, wmLaunchApp filename loaded s.desk = some s'.desk := by
  rw [System.launch] at hs'
  split at hs'
  · obtain rfl := Option.some.inj hs'
    exact ⟨none, rfl⟩
  · split at hs'
    · exact absurd hs' (by simp)
    · split at hs'
      · exact absurd hs' (by simp)
      · obtain ⟨desk, hlaunch, rfl⟩ := Option.map_eq_some_iff.mp hs'
        exact ⟨_, hlaunch⟩

/-- A step of the system is a step of the window table, and the one keeps the table where the other
    does. -/
theorem step_desk {s s' : System} {e : SysEvent} (hs' : s.step e = some s') :
    ∃ w, Desktop.step w s.desk = some s'.desk ∧ (StepKeepsTable s e ↔ ¬ Breaks s.desk w) := by
  have honDesk : ∀ w, s.onDesk w = some s' → Desktop.step w s.desk = some s'.desk := by
    intro w h
    obtain ⟨desk, hdesk, rfl⟩ := Option.map_eq_some_iff.mp h
    exact hdesk
  cases e with
  | launch filename file e =>
    obtain ⟨loaded, hdesk⟩ := launch_desk hs'
    exact ⟨.launchApp filename loaded, hdesk, iff_of_true trivial id⟩
  | frame slices stringWidth bx bxMax => exact ⟨.frame _, frame_desk hs', Iff.rfl⟩
  | exit => exact ⟨.exit, honDesk _ hs', Iff.rfl⟩
  | openApp appIndex => exact ⟨.openApp appIndex, honDesk _ hs', iff_of_true trivial id⟩
  | click x y => exact ⟨.click x y, honDesk _ hs', iff_of_true trivial id⟩
  | held mx my => exact ⟨.held mx my, honDesk _ hs', iff_of_true trivial id⟩
  | release => exact ⟨.release, honDesk _ hs', iff_of_true trivial id⟩
  | rescale naturalSize => exact ⟨.rescale naturalSize, honDesk _ hs', iff_of_true trivial id⟩

theorem step_tableInv {s s' : System} {e : SysEvent} (h : TableInv s.desk)
    (hs' : s.step e = some s') : TableInv s'.desk ↔ StepKeepsTable s e := by
  obtain ⟨w, hw, hkeeps⟩ := step_desk hs'
  obtain ⟨desk, hdesk, hiff⟩ := step_inv h w
  obtain rfl := Option.some.inj (hw.symm.trans hdesk)
  exact hiff.trans hkeeps.symm

/-- In a run of the whole system the window table is right after every step exactly when no step of
    it ends a window behind the order's back. -/
theorem table_iff (screenW screenH : ℤ) (naturalSize : Paint → ℤ × ℤ) (es : List SysEvent) :
    Always System.step (fun s => TableInv s.desk) es (System.boot screenW screenH naturalSize) ↔
      Meets System.step StepKeepsTable es (System.boot screenW screenH naturalSize) :=
  always_iff_meets (fun _ h => h) (fun _ _ _ h hkeeps hs' => (step_tableInv h hs').mpr hkeeps)
    (fun _ _ _ h hnot hs' => fun h' => hnot ((step_tableInv h hs').mp h')) es
    (wmInit_inv screenW screenH naturalSize)

end AuroraOS.Apps
