import AuroraOS.Lib.ArrayPrefix

/-!
# The window manager

The window table of `kernel/wm.c`: `windows`, `window_order` and `window_count`, with every
function that creates, raises, hides or closes a window, and the parts of `wm_run` that call
them. An access to `window_order` outside the array makes a function return `none`.

Drawing is left out, except that the draw loop calls `paint_apploader`, which may close a
window, and lays out the taskbar's buttons, which decide what a later click hits. The clicks
that the search panel, the network panel and the wallpaper button claim never reach the table.

## Main definitions

- `Desktop` — the state
- `createWindow`, `raiseWindow`, `handleClick`, `terminalExit`, `drawFrame`
- `WmEvent`, `Desktop.step` — one step of the manager
-/

namespace AuroraOS.Wm

/-- `MAX_WINDOWS`. -/
abbrev maxWindows : ℕ := 8

/-- `TITLEBAR_H`. -/
def titlebarH : ℤ := 34

/-- `TASKBAR_H`. -/
def taskbarH : ℤ := 48

/-- `RESIZE_GRIP_SIZE`. -/
def resizeGripSize : ℤ := 18

/-- `WINDOW_MIN_W`. -/
def windowMinW : ℤ := 150

/-- `WINDOW_MIN_H`. -/
def windowMinH : ℤ := 100

/-- `APP_CACHE_W`. -/
def appCacheW : ℤ := 640

/-- `APP_CACHE_H`. -/
def appCacheH : ℤ := 480

/-- A window's paint function. The key, click and scroll handlers go with it. -/
inductive Paint where
  | about | counter | palette | settings | texteditor | browser | terminal | apploader
deriving DecidableEq

/-- `struct window`, without the two fields that only drawing reads. -/
structure Window where
  used : Bool
  x : ℤ
  y : ℤ
  w : ℤ
  h : ℤ
  title : String
  paint : Paint
  minimized : Bool
  fullscreen : Bool
  restoreX : ℤ
  restoreY : ℤ
  restoreW : ℤ
  restoreH : ℤ

/-- A zeroed window, as `memset` leaves it. -/
def Window.zero : Window := ⟨false, 0, 0, 0, 0, "", .about, false, false, 0, 0, 0, 0⟩

/-- `w->used && !w->minimized`. -/
def Window.visible (w : Window) : Bool := w.used && !w.minimized

/-- The hit test of `topmost_window_at`. -/
def Window.hit (w : Window) (x y : ℤ) : Bool :=
  w.visible && decide (w.x ≤ x ∧ x < w.x + w.w ∧ w.y ≤ y ∧ y < w.y + w.h + titlebarH)

/-- `struct app_entry`, without icon and accent. -/
structure AppEntry where
  name : String
  xOffset : ℤ
  yOffset : ℤ
  paint : Paint

/-- The apps that `wm_init` registers. All of them have a `natural_size`, so their fallback
    sizes are never used. -/
def apps : List AppEntry :=
  [⟨"About auroraOS", 0, 0, .about⟩, ⟨"Uptime", 540, 0, .counter⟩,
    ⟨"Palette", 100, 290, .palette⟩, ⟨"Settings", 100, 40, .settings⟩,
    ⟨"Text Editor", 40, 20, .texteditor⟩, ⟨"Browser", 30, 10, .browser⟩,
    ⟨"Terminal", 60, 60, .terminal⟩]

/-- `struct taskbar_button`. -/
structure TaskbarButton where
  windowIdx : Fin maxWindows
  x : ℤ
  y : ℤ
  w : ℤ
  h : ℤ

/-- The window manager's static variables. -/
structure Desktop where
  windows : Fin maxWindows → Window
  windowOrder : Vector (Fin maxWindows) maxWindows
  windowCount : ℕ
  apploaderWindowSlot : Fin maxWindows → ℤ
  taskbarButtons : List TaskbarButton
  /-- computed at the start of a frame, used for the key that comes after it -/
  topmostVisible : Option (Fin maxWindows)
  /-- the window being dragged, with the offset of the mouse in it -/
  dragging : Option (Fin maxWindows × ℤ × ℤ)
  /-- the window being resized, with its size and the mouse position at the start -/
  resizing : Option (Fin maxWindows × ℤ × ℤ × ℤ × ℤ)
  screenW : ℤ
  screenH : ℤ
  /-- what the apps' `natural_size` functions return at the current UI scale -/
  naturalSize : Paint → ℤ × ℤ

/-- `base_cx`. C division rounds towards zero. -/
def Desktop.baseCx (s : Desktop) : ℤ := s.screenW.tdiv 2 - 340

/-- `base_cy`. -/
def Desktop.baseCy (s : Desktop) : ℤ := s.screenH.tdiv 2 - 230

theorem maxWindows_pos : 0 < maxWindows := by decide

/-- `wm_init` on a screen of the given size. -/
def wmInit (screenW screenH : ℤ) (naturalSize : Paint → ℤ × ℤ) : Desktop where
  windows := fun _ => .zero
  windowOrder := Vector.replicate maxWindows ⟨0, maxWindows_pos⟩
  windowCount := 0
  apploaderWindowSlot := fun _ => -1
  taskbarButtons := []
  topmostVisible := none
  dragging := none
  resizing := none
  screenW := screenW
  screenH := screenH
  naturalSize := naturalSize

/-- Change one window. -/
def Desktop.modifyWindow (s : Desktop) (idx : Fin maxWindows) (f : Window → Window) : Desktop :=
  { s with windows := Function.update s.windows idx (f (s.windows idx)) }

/-- `window_order[i]`, `none` outside the array. -/
def Desktop.orderAt (s : Desktop) (i : ℕ) : Option (Fin maxWindows) :=
  if h : i < maxWindows then some (s.windowOrder.get ⟨i, h⟩) else none

/-- `raise_window`. -/
def raiseWindow (idx : Fin maxWindows) (s : Desktop) : Option Desktop :=
  match Lib.findFrom s.windowOrder idx s.windowCount 0 with
  | none => none
  | some none => some s
  | some (some pos) =>
    match Lib.shiftDown (s.windowCount - 1 - pos) pos s.windowOrder with
    | none => none
    | some order =>
      if h : s.windowCount - 1 < maxWindows then
        some { s with windowOrder := order.set (s.windowCount - 1) idx h }
      else none

/-- The loops that look for the topmost window with a property, from `window_order[n - 1]` down. -/
def topmostBelow (p : Window → Bool) (s : Desktop) : ℕ → Option (Option (Fin maxWindows))
  | 0 => some none
  | n + 1 =>
    match s.orderAt n with
    | none => none
    | some idx => if p (s.windows idx) then some (some idx) else topmostBelow p s n

/-- `topmost_window_at`. -/
def topmostWindowAt (x y : ℤ) (s : Desktop) : Option (Option (Fin maxWindows)) :=
  topmostBelow (·.hit x y) s s.windowCount

/-- The loop for `topmost_visible`, which occurs three times in the source. -/
def findTopmostVisible (s : Desktop) : Option (Option (Fin maxWindows)) :=
  topmostBelow Window.visible s s.windowCount

/-- The first slot of `windows` that is not used. -/
def freeWindow (s : Desktop) : Option (Fin maxWindows) :=
  (List.finRange maxWindows).find? fun i => !(s.windows i).used

/-- `window_order[window_count++] = i`. -/
def appendOrder (i : Fin maxWindows) (s : Desktop) : Option Desktop :=
  if h : s.windowCount < maxWindows then
    some { s with
      windowOrder := s.windowOrder.set s.windowCount i h
      windowCount := s.windowCount + 1 }
  else none

/-- `create_window`; the inner option is `none` when all windows are used. -/
def createWindow (x y w h : ℤ) (title : String) (paint : Paint) (s : Desktop) :
    Option (Option (Fin maxWindows) × Desktop) :=
  match freeWindow s with
  | none => some (none, s)
  | some i =>
    (appendOrder i (s.modifyWindow i fun win =>
      { win with
        used := true, x := x, y := y, w := w, h := h, title := title, paint := paint,
        minimized := false, fullscreen := false })).map fun s => (some i, s)

/-- `find_open_window_by_name`. -/
def findOpenWindowByName (name : String) (s : Desktop) : Option (Fin maxWindows) :=
  (List.finRange maxWindows).find? fun i => (s.windows i).used && (s.windows i).title = name

/-- The end of both ways to open a window: show it and put it on top. -/
def showAndRaise (idx : Fin maxWindows) (s : Desktop) : Option Desktop :=
  raiseWindow idx (s.modifyWindow idx fun win => { win with minimized := false })

/-- `launch_or_focus_app`. -/
def launchOrFocusApp (appIndex : ℕ) (s : Desktop) : Option Desktop :=
  match apps[appIndex]? with
  | none => some s
  | some app =>
    match findOpenWindowByName app.name s with
    | some idx => showAndRaise idx s
    | none =>
      match createWindow (s.baseCx + app.xOffset) (s.baseCy + app.yOffset)
          (s.naturalSize app.paint).1 (s.naturalSize app.paint).2 app.name app.paint s with
      | none => none
      | some (none, s) => some s
      | some (some idx, s) => showAndRaise idx s

/-- `wm_launch_app`; `loaded` is what `apploader_load` returned: a slot and the size the program
    asked for. -/
def wmLaunchApp (filename : String) (loaded : Option (ℤ × ℤ × ℤ)) (s : Desktop) : Option Desktop :=
  match loaded with
  | none => some s
  | some (slot, w, h) =>
    match createWindow (s.baseCx + 80) (s.baseCy + 80) w h filename .apploader s with
    | none => none
    | some (none, s) => some s
    | some (some idx, s) =>
      showAndRaise idx { s with
        apploaderWindowSlot := Function.update s.apploaderWindowSlot idx slot }

/-- The loop of `handle_click` that takes a closed window out of `window_order`. -/
def removeFromOrder (idx : Fin maxWindows) (s : Desktop) : Option Desktop :=
  match Lib.findFrom s.windowOrder idx s.windowCount 0 with
  | none => none
  | some none => some s
  | some (some pos) =>
    match Lib.shiftDown (s.windowCount - 1 - pos) pos s.windowOrder with
    | none => none
    | some order => some { s with windowOrder := order, windowCount := s.windowCount - 1 }

/-- Closing a window with its button. -/
def closeWindow (idx : Fin maxWindows) (s : Desktop) : Option Desktop :=
  removeFromOrder idx (s.modifyWindow idx fun win => { win with used := false })

/-- `toggle_fullscreen`. -/
def toggleFullscreen (screenW screenH : ℤ) (win : Window) : Window :=
  if ¬ win.fullscreen then
    { win with
      restoreX := win.x, restoreY := win.y, restoreW := win.w, restoreH := win.h,
      fullscreen := true, x := 0, y := 0, w := screenW, h := screenH - taskbarH - titlebarH }
  else
    { win with
      fullscreen := false, x := win.restoreX, y := win.restoreY, w := win.restoreW,
      h := win.restoreH }

/-- `point_in` for a taskbar button. -/
def TaskbarButton.contains (b : TaskbarButton) (x y : ℤ) : Bool :=
  decide (b.x ≤ x ∧ x < b.x + b.w ∧ b.y ≤ y ∧ y < b.y + b.h)

/-- The taskbar part of `handle_click`. -/
def clickTaskbar (btn : TaskbarButton) (s : Desktop) : Option Desktop :=
  match findTopmostVisible s with
  | none => none
  | some top =>
    if (s.windows btn.windowIdx).minimized then
      raiseWindow btn.windowIdx
        (s.modifyWindow btn.windowIdx fun win => { win with minimized := false })
    else if some btn.windowIdx = top then
      some (s.modifyWindow btn.windowIdx fun win => { win with minimized := true })
    else raiseWindow btn.windowIdx s

/-- The window part of `handle_click`, after the click was found to hit window `idx`. -/
def clickWindow (idx : Fin maxWindows) (x y : ℤ) (s : Desktop) : Option Desktop :=
  match raiseWindow idx s with
  | none => none
  | some s =>
    let win := s.windows idx
    let inButtonRow := win.y + titlebarH.tdiv 2 - 6 ≤ y ∧ y < win.y + titlebarH.tdiv 2 + 6
    if inButtonRow ∧ win.x + 14 ≤ x ∧ x < win.x + 26 then closeWindow idx s
    else if inButtonRow ∧ win.x + 34 ≤ x ∧ x < win.x + 46 then
      some (s.modifyWindow idx fun win => { win with minimized := true })
    else if inButtonRow ∧ win.x + 54 ≤ x ∧ x < win.x + 66 then
      some (s.modifyWindow idx (toggleFullscreen s.screenW s.screenH))
    else if y < win.y + titlebarH then
      if win.fullscreen then some s
      else some { s with dragging := some (idx, x - win.x, y - win.y) }
    else if ¬ win.fullscreen ∧ win.x + win.w - resizeGripSize ≤ x ∧ x < win.x + win.w ∧
        win.y + titlebarH + win.h - resizeGripSize ≤ y ∧ y < win.y + titlebarH + win.h then
      some { s with resizing := some (idx, win.w, win.h, x, y) }
    else some s -- the app's own click handler, which does not touch the table

/-- `handle_click` from the taskbar on. -/
def handleClick (x y : ℤ) (s : Desktop) : Option Desktop :=
  match s.taskbarButtons.find? (·.contains x y) with
  | some btn => clickTaskbar btn s
  | none =>
    match topmostWindowAt x y s with
    | none => none
    | some none => some s
    | some (some idx) => clickWindow idx x y s

/-- The move that `wm_run` makes while a window is dragged to the mouse position. -/
def dragTo (screenW screenH mx my offX offY : ℤ) (win : Window) : Window :=
  let x := max (mx - offX) 0
  let y := max (my - offY) 0
  { win with
    x := if x + win.w > screenW then screenW - win.w else x
    y := if y + win.h + titlebarH > screenH - taskbarH then screenH - taskbarH - win.h - titlebarH
      else y }

/-- The resize that `wm_run` makes while the grip is held. -/
def resizeTo (screenW screenH mx my startW startH startMx startMy : ℤ) (win : Window) : Window :=
  let newW := max (startW + (mx - startMx)) windowMinW
  let newH := max (startH + (my - startMy)) windowMinH
  let newW := if win.paint = .apploader then min newW appCacheW else newW
  let newH := if win.paint = .apploader then min newH appCacheH else newH
  { win with
    w := if win.x + newW > screenW then screenW - win.x else newW
    h := if win.y + newH + titlebarH > screenH - taskbarH then
        screenH - taskbarH - titlebarH - win.y
      else newH }

/-- The drag part of a pass of `wm_run` with the mouse button held at `(mx, my)`. -/
def dragPass (mx my : ℤ) (s : Desktop) : Desktop :=
  match s.dragging with
  | none => s
  | some (idx, offX, offY) => s.modifyWindow idx (dragTo s.screenW s.screenH mx my offX offY)

/-- The resize part. -/
def resizePass (mx my : ℤ) (s : Desktop) : Desktop :=
  match s.resizing with
  | none => s
  | some (idx, startW, startH, startMx, startMy) =>
    s.modifyWindow idx (resizeTo s.screenW s.screenH mx my startW startH startMx startMy)

/-- One pass of `wm_run` with the mouse button held at `(mx, my)`. -/
def mouseHeld (mx my : ℤ) (s : Desktop) : Desktop := resizePass mx my (dragPass mx my s)

/-- What `rescale_all_windows` does to one window whose app wants the size `(newW, newH)`. -/
def rescaleWindow (screenW screenH newW newH : ℤ) (win : Window) : Window :=
  if win.fullscreen then { win with restoreW := newW, restoreH := newH }
  else
    let x := if win.x + newW > screenW then screenW - newW else win.x
    let y := if win.y + newH + titlebarH > screenH - taskbarH then
        screenH - taskbarH - newH - titlebarH
      else win.y
    { win with w := newW, h := newH, x := max x 0, y := max y 0 }

/-- `rescale_all_windows`, after the UI scale and with it the natural sizes have changed. -/
def rescaleAllWindows (naturalSize : Paint → ℤ × ℤ) (s : Desktop) : Desktop :=
  { s with
    naturalSize := naturalSize
    windows := fun i =>
      let win := s.windows i
      if ¬ win.used then win
      else
        match apps.find? (·.name = win.title) with
        | none => win
        | some app => rescaleWindow s.screenW s.screenH (naturalSize app.paint).1
            (naturalSize app.paint).2 win }

/-- `exit` submitted to the window that has the keyboard: `terminal_submit_line` clears `used`
    and does nothing else. Other apps do not know the command. -/
def terminalExit (s : Desktop) : Desktop :=
  match s.topmostVisible with
  | none => s
  | some idx =>
    if (s.windows idx).paint = .terminal then
      s.modifyWindow idx fun win => { win with used := false }
    else s

/-- `paint_apploader` for window `idx`: a window whose program has ended is closed by clearing
    `used`. -/
def paintApploader (alive : ℤ → Bool) (idx : Fin maxWindows) (s : Desktop) : Desktop :=
  if alive (s.apploaderWindowSlot idx) then s
  else s.modifyWindow idx fun win => { win with used := false }

/-- `draw_window`, as far as the table is concerned. -/
def drawWindow (alive : ℤ → Bool) (idx : Fin maxWindows) (s : Desktop) : Desktop :=
  if (s.windows idx).paint = .apploader then paintApploader alive idx s else s

/-- The draw loop of `wm_run`: `n` places of `window_order` from `i` on. When the window at place
    `i` is painted, the slots that `alive i` holds of are alive. -/
def drawLoop (alive : ℕ → ℤ → Bool) : ℕ → ℕ → Desktop → Option Desktop
  | 0, _, s => some s
  | n + 1, i, s =>
    match s.orderAt i with
    | none => none
    | some idx =>
      drawLoop alive n (i + 1)
        (if (s.windows idx).visible then drawWindow (alive i) idx s else s)

/-- The button loop of `draw_taskbar`: `n` places of `window_order` from `i` on, the next button
    at `bx`. -/
def taskbarLoop (stringWidth : String → ℤ) (bxMax : ℤ) (s : Desktop) :
    ℕ → ℕ → ℤ → List TaskbarButton → Option (List TaskbarButton)
  | 0, _, _, buttons => some buttons
  | n + 1, i, bx, buttons =>
    match s.orderAt i with
    | none => none
    | some idx =>
      let win := s.windows idx
      if ¬ win.used then taskbarLoop stringWidth bxMax s n (i + 1) bx buttons
      else
        let iconSize := taskbarH - 26
        let tw := stringWidth win.title + 32 + iconSize + 6
        if bx + tw > bxMax then some buttons
        else
          let buttons := if buttons.length < maxWindows then
              buttons ++ [⟨idx, bx, s.screenH - taskbarH + 8, tw, taskbarH - 16⟩]
            else buttons
          taskbarLoop stringWidth bxMax s n (i + 1) (bx + tw + 8) buttons

/-- What a frame needs to know of the outside: which program slots are alive when the window at each
    place is painted, how wide texts are and where the taskbar has room for buttons. -/
structure FrameInput where
  alive : ℕ → ℤ → Bool
  stringWidth : String → ℤ
  bx : ℤ
  bxMax : ℤ

/-- One frame of `wm_run`. -/
def drawFrame (inp : FrameInput) (s : Desktop) : Option Desktop :=
  match findTopmostVisible s with
  | none => none
  | some top =>
    match drawLoop inp.alive s.windowCount 0 { s with topmostVisible := top } with
    | none => none
    | some s =>
      match taskbarLoop inp.stringWidth inp.bxMax s s.windowCount 0 inp.bx [] with
      | none => none
      | some buttons => some { s with taskbarButtons := buttons }

/-- What can happen to the window table. -/
inductive WmEvent where
  /-- an app is chosen in the search panel -/
  | openApp (appIndex : ℕ)
  /-- the `launch` command of a terminal -/
  | launchApp (filename : String) (loaded : Option (ℤ × ℤ × ℤ))
  /-- the mouse button goes down outside the panels -/
  | click (x y : ℤ)
  /-- the mouse button is still down -/
  | held (mx my : ℤ)
  /-- the mouse button is up -/
  | release
  /-- another UI scale -/
  | rescale (naturalSize : Paint → ℤ × ℤ)
  /-- `exit` is typed -/
  | exit
  /-- a frame is drawn -/
  | frame (inp : FrameInput)

/-- One step of the window manager. -/
def Desktop.step : WmEvent → Desktop → Option Desktop
  | .openApp appIndex, s => launchOrFocusApp appIndex s
  | .launchApp filename loaded, s => wmLaunchApp filename loaded s
  | .click x y, s => handleClick x y s
  | .held mx my, s => some (mouseHeld mx my s)
  | .release, s => some { s with dragging := none, resizing := none }
  | .rescale naturalSize, s => some (rescaleAllWindows naturalSize s)
  | .exit, s => some (terminalExit s)
  | .frame inp, s => drawFrame inp s

end AuroraOS.Wm
