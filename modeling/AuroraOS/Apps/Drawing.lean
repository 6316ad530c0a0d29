import AuroraOS.Apps.PixelCache
import AuroraOS.Gfx.Line

/-!
# Drawing by loaded programs

The `SYS_GFX_*` syscalls that draw. A program without a window draws on the whole screen, lines
and text are not clipped, and the sums that clip a rectangle can overflow. A program that avoids
this changes no pixel outside its window.

## Main definitions

- `gfxSyscall` — the drawing syscalls of `syscall_dispatch`
- `CallConfined` — what the syscall must avoid

## Main results

- `drawing_confined`
-/

namespace AuroraOS.Apps

open AuroraOS.Wm AuroraOS.Lib AuroraOS.Gfx

/-- `apploader_current_window_id`. -/
def currentWindowId (a : Apploader) : ℤ :=
  match a.currentAppSlot with
  | none => -1
  | some k => (a.slots k).windowId

/-- `gfx_clip_x0`, `gfx_clip_y0`, `gfx_clip_x1` and `gfx_clip_y1`. -/
structure Clip where
  x0 : ℤ
  y0 : ℤ
  x1 : ℤ
  y1 : ℤ
deriving DecidableEq

/-- What `gfx_apply_clip` finds. -/
inductive ClipState where
  /-- the window is closed: nothing is drawn -/
  | closed
  /-- no window: `gfx_clip_active` is false -/
  | inactive
  | active (c : Clip)
deriving DecidableEq

/-- `gfx_apply_clip`. -/
def gfxApplyClip (s : System) : ClipState :=
  if currentWindowId s.apps < 0 then .inactive
  else
    match wmWindowRect s.desk (currentWindowId s.apps) with
    | none => .closed
    | some (wx, wy, ww, wh) => .active ⟨wx, wy, wx + ww, wy + wh⟩

/-- `(int)a` of a register. -/
def toInt (a : UInt64) : ℤ := wrap32 a.toNat

/-- `gfx_clip_offset`. -/
def gfxClipOffset : ClipState → ℤ × ℤ → ℤ × ℤ
  | .active c, (x, y) => (wrap32 (x + c.x0), wrap32 (y + c.y0))
  | _, p => p

/-- The clamping of `SYS_GFX_RECT` along one axis. -/
def clampAxis (lo hi pos len : ℤ) : ℤ × ℤ :=
  let len := if pos < lo then wrap32 (len - wrap32 (lo - pos)) else len
  let pos := if pos < lo then lo else pos
  if wrap32 (pos + len) > hi then (pos, wrap32 (hi - pos)) else (pos, len)

/-- The drawing syscalls with their arguments; the text is the memory at its pointer. -/
inductive GfxCall where
  | setExtra (a b : UInt64)
  | pixel (x y color : UInt64)
  | rect (x y color : UInt64)
  | line (x y color : UInt64)
  | text (x y : UInt64) (s : List UInt8) (color : UInt64)

/-- `gfx_extra_a`, `gfx_extra_b` and the back buffer. -/
structure DrawState where
  extraA : UInt64
  extraB : UInt64
  buf : BackBuffer

/-- `SYS_GFX_PIXEL`. -/
def sysGfxPixel (clip : ClipState) (g : Display) (x y : ℤ) (color : GfxColor) (buf : BackBuffer) :
    BackBuffer :=
  let p := gfxClipOffset clip (x, y)
  match clip with
  | .closed => buf
  | .inactive => gfxPutpixel g p.1 p.2 color buf
  | .active c =>
    if p.1 < c.x0 ∨ p.1 ≥ c.x1 ∨ p.2 < c.y0 ∨ p.2 ≥ c.y1 then buf
    else gfxPutpixel g p.1 p.2 color buf

/-- A clamped rectangle is filled unless it is empty. -/
def fillClamped (g : Display) (xw yh : ℤ × ℤ) (color : GfxColor) (buf : BackBuffer) : BackBuffer :=
  if xw.2 ≤ 0 ∨ yh.2 ≤ 0 then buf else gfxFillRect g xw.1 yh.1 xw.2 yh.2 color buf

/-- `SYS_GFX_RECT`. -/
def sysGfxRect (clip : ClipState) (g : Display) (x y w h : ℤ) (color : GfxColor)
    (buf : BackBuffer) : BackBuffer :=
  let p := gfxClipOffset clip (x, y)
  match clip with
  | .closed => buf
  | .inactive => gfxFillRect g p.1 p.2 w h color buf
  | .active c =>
    fillClamped g (clampAxis c.x0 c.x1 p.1 w) (clampAxis c.y0 c.y1 p.2 h) color buf

/-- The line of `SYS_GFX_LINE`. -/
def clipSegment (clip : ClipState) (x0 y0 x1 y1 : ℤ) : Segment :=
  let p := gfxClipOffset clip (x0, y0)
  let q := gfxClipOffset clip (x1, y1)
  ⟨p.1, p.2, q.1, q.2⟩

/-- `SYS_GFX_LINE`. -/
def sysGfxLine (clip : ClipState) (g : Display) (x0 y0 x1 y1 : ℤ) (color : GfxColor)
    (buf : BackBuffer) : Option BackBuffer :=
  match clip with
  | .closed => some buf
  | clip => gfxDrawLine g (clipSegment clip x0 y0 x1 y1) color buf

/-- `SYS_GFX_TEXT`. -/
def sysGfxText (clip : ClipState) (g : Display) (x y : ℤ) (s : List UInt8) (color : GfxColor)
    (buf : BackBuffer) : BackBuffer :=
  let p := gfxClipOffset clip (x, y)
  match clip with
  | .closed => buf
  | _ => gfxDrawString g p.1 p.2 s color buf

/-- The drawing cases of `syscall_dispatch`; `none` when the loop of a line does not end. -/
def gfxSyscall (s : System) (g : Display) (st : DrawState) : GfxCall → Option DrawState
  | .setExtra a b => some { st with extraA := a, extraB := b }
  | .pixel x y color => some { st with
      buf := sysGfxPixel (gfxApplyClip s) g (toInt x) (toInt y) color.toUInt32 st.buf }
  | .rect x y color => some { st with
      buf := sysGfxRect (gfxApplyClip s) g (toInt x) (toInt y) (toInt st.extraA) (toInt st.extraB)
        color.toUInt32 st.buf }
  | .line x y color =>
    (sysGfxLine (gfxApplyClip s) g (toInt x) (toInt y) (toInt st.extraA) (toInt st.extraB)
      color.toUInt32 st.buf).map fun buf => { st with buf := buf }
  | .text x y str color => some { st with
      buf := sysGfxText (gfxApplyClip s) g (toInt x) (toInt y) str color.toUInt32 st.buf }

/-- The pixel is in the content rectangle of the window of a slot. -/
def InWindow (s : System) (k : Fin appSlots) (px py : ℤ) : Prop :=
  ∃ wx wy ww wh, wmWindowRect s.desk (s.apps.slots k).windowId = some (wx, wy, ww, wh) ∧
    (wx ≤ px ∧ px < wx + ww) ∧ wy ≤ py ∧ py < wy + wh

/-- The sequence of syscalls returns, and no pixel outside the window of slot `k` has changed. -/
def DrawsInside (s : System) (k : Fin appSlots) (g : Display) (calls : List GfxCall)
    (st : DrawState) : Prop :=
  ∃ st', calls.foldlM (gfxSyscall s g) st = some st' ∧
    ∀ px py, g.Has px py → ¬ InWindow s k px py →
      st'.buf (g.index px py) = st.buf (g.index px py)

/-- The sums and differences of the clamping do not overflow. -/
structure AxisFits (lo hi pos len : ℤ) : Prop where
  start_fits : Fits32 (max pos lo)
  end_fits : Fits32 (pos + len)
  rest_fits : Fits32 (hi - max pos lo)
  cut_fits : pos < lo → Fits32 (lo - pos) ∧ Fits32 (len - (lo - pos))

/-- What a syscall of the program in slot `k` must avoid: drawing on the screen before the program
    has its window, overflow in the arithmetic of a rectangle, a line or a text, and a line or a
    text with pixels on the screen outside the window. -/
def CallConfined (s : System) (k : Fin appSlots) (g : Display) (st : DrawState) : GfxCall → Prop
  | .setExtra _ _ => True
  | .pixel x y _ =>
    match gfxApplyClip s with
    | .inactive => ¬ g.Has (toInt x) (toInt y)
    | _ => True
  | .rect x y _ =>
    match gfxApplyClip s with
    | .closed => True
    | .inactive =>
      (Fits32 (toInt x + toInt st.extraA) ∧ Fits32 (toInt y + toInt st.extraB)) ∧
        ∀ px py, g.Has px py → ¬ ((toInt x ≤ px ∧ px < toInt x + toInt st.extraA) ∧
          toInt y ≤ py ∧ py < toInt y + toInt st.extraB)
    | .active c =>
      AxisFits c.x0 c.x1 (wrap32 (toInt x + c.x0)) (toInt st.extraA) ∧
        AxisFits c.y0 c.y1 (wrap32 (toInt y + c.y0)) (toInt st.extraB)
  | .line x y _ =>
    match gfxApplyClip s with
    | .closed => True
    | clip => (clipSegment clip (toInt x) (toInt y) (toInt st.extraA) (toInt st.extraB)).Inside g
        (InWindow s k)
  | .text x y str _ =>
    match gfxApplyClip s with
    | .closed => True
    | clip =>
      let p := gfxClipOffset clip (toInt x, toInt y)
      TextInside g (InWindow s k) p.1 str p.1 p.2

/-- All syscalls of a sequence avoid it. -/
def CallsConfined (s : System) (k : Fin appSlots) (g : Display) : List GfxCall → DrawState → Prop
  | [], _ => True
  | call :: calls, st => CallConfined s k g st call ∧
      ∀ st', gfxSyscall s g st call = some st' → CallsConfined s k g calls st'

section calls

variable {s : System} {k : Fin appSlots} {g : Display} {st st' : DrawState}

/-- The clip rectangle is the content rectangle of the program's window. -/
theorem inWindow_of_active (hk : s.apps.currentAppSlot = some k) {c : Clip}
    (h : gfxApplyClip s = .active c) {px py : ℤ} (hx : c.x0 ≤ px ∧ px < c.x1)
    (hy : c.y0 ≤ py ∧ py < c.y1) : InWindow s k px py := by
  have hid : currentWindowId s.apps = (s.apps.slots k).windowId := by rw [currentWindowId, hk]
  rw [gfxApplyClip, hid] at h
  split at h
  · exact absurd h (by simp)
  · split at h
    · exact absurd h (by simp)
    · next wx wy ww wh hrect =>
      obtain rfl := ClipState.active.inj h
      exact ⟨wx, wy, ww, wh, hrect, hx, hy⟩

theorem toInt_fits (a : UInt64) : Fits32 (toInt a) := fits32_wrap32 _

theorem gfxClipOffset_fits (clip : ClipState) {x y : ℤ} (hx : Fits32 x) (hy : Fits32 y) :
    Fits32 (gfxClipOffset clip (x, y)).1 ∧ Fits32 (gfxClipOffset clip (x, y)).2 := by
  cases clip with
  | closed => exact ⟨hx, hy⟩
  | inactive => exact ⟨hx, hy⟩
  | active c => exact ⟨fits32_wrap32 _, fits32_wrap32 _⟩

/-- Without overflow the clamped interval lies between the bounds. -/
theorem clampAxis_spec {lo hi pos len : ℤ} (h : AxisFits lo hi pos len) (hlen : Fits32 len)
    (hpos : 0 < (clampAxis lo hi pos len).2) :
    lo ≤ (clampAxis lo hi pos len).1 ∧
      (clampAxis lo hi pos len).1 + (clampAxis lo hi pos len).2 ≤ hi ∧
      Fits32 (clampAxis lo hi pos len).1 ∧ Fits32 (clampAxis lo hi pos len).2 ∧
      Fits32 ((clampAxis lo hi pos len).1 + (clampAxis lo hi pos len).2) := by
  obtain ⟨hstart, hend, hrest, hcut⟩ := h
  have hcutLen : (if pos < lo then wrap32 (len - wrap32 (lo - pos)) else len) =
      pos + len - max pos lo ∧ Fits32 (pos + len - max pos lo) := by
    split
    · next hlt =>
      obtain ⟨h₁, h₂⟩ := hcut hlt
      rw [wrap32_eq h₁, wrap32_eq h₂, max_eq_right hlt.le,
        show pos + len - lo = len - (lo - pos) by ring]
      exact ⟨rfl, h₂⟩
    · next hge =>
      rw [max_eq_left (by omega), show pos + len - pos = len by ring]
      exact ⟨rfl, hlen⟩
  have hcutPos : (if pos < lo then lo else pos) = max pos lo := by
    split <;> omega
  have hsum : max pos lo + (pos + len - max pos lo) = pos + len := by ring
  have hclamp : clampAxis lo hi pos len = if pos + len > hi then (max pos lo, hi - max pos lo)
      else (max pos lo, pos + len - max pos lo) := by
    simp only [clampAxis, hcutLen.1, hcutPos, hsum, wrap32_eq hend, wrap32_eq hrest]
  rw [hclamp] at hpos ⊢
  split
  · next hgt =>
    rw [if_pos hgt] at hpos
    simp only [add_sub_cancel] at hpos ⊢
    exact ⟨le_max_right _ _, le_rfl, hstart, hrest,
      hstart.of_between hend (by omega) (by omega)⟩
  · next hle =>
    simp only [hsum]
    exact ⟨le_max_right _ _, by omega, hstart, hcutLen.2, hend⟩

theorem pixel_confined (hk : s.apps.currentAppSlot = some k) {x y color : UInt64}
    (h : CallConfined s k g st (.pixel x y color)) :
    Confined g (InWindow s k) st.buf
      (sysGfxPixel (gfxApplyClip s) g (toInt x) (toInt y) color.toUInt32 st.buf) := by
  rw [CallConfined] at h
  cases hclip : gfxApplyClip s with
  | closed => exact .refl
  | inactive =>
    rw [hclip] at h
    simp only [sysGfxPixel, gfxClipOffset]
    exact putpixel_confined fun hp => absurd hp h
  | active c =>
    simp only [sysGfxPixel]
    split
    · exact .refl
    · next hin =>
      exact putpixel_confined fun _ =>
        inWindow_of_active hk hclip ⟨by omega, by omega⟩ ⟨by omega, by omega⟩

theorem rect_confined (hk : s.apps.currentAppSlot = some k) {x y color : UInt64}
    (h : CallConfined s k g st (.rect x y color)) :
    Confined g (InWindow s k) st.buf
      (sysGfxRect (gfxApplyClip s) g (toInt x) (toInt y) (toInt st.extraA) (toInt st.extraB)
        color.toUInt32 st.buf) := by
  rw [CallConfined] at h
  cases hclip : gfxApplyClip s with
  | closed => exact .refl
  | inactive =>
    rw [hclip] at h
    obtain ⟨⟨hxw, hyh⟩, hout⟩ := h
    simp only [sysGfxRect, gfxClipOffset]
    exact fillRect_confined (toInt_fits x) (toInt_fits _) hxw hyh
      fun px py hp hx hy => absurd ⟨hx, hy⟩ (hout px py hp)
  | active c =>
    rw [hclip] at h
    obtain ⟨hax, hay⟩ := h
    simp only [sysGfxRect, gfxClipOffset]
    rw [fillClamped]
    split
    · exact .refl
    · next hpos =>
      obtain ⟨hlo, hhi, hfit, hlen, hsum⟩ := clampAxis_spec hax (toInt_fits _) (by omega)
      obtain ⟨hlo', hhi', -, -, hsum'⟩ := clampAxis_spec hay (toInt_fits _) (by omega)
      exact fillRect_confined hfit hlen hsum hsum' fun px py _ hx hy =>
        inWindow_of_active hk hclip ⟨by omega, by omega⟩ ⟨by omega, by omega⟩

theorem clipSegment_wellformed (clip : ClipState) (x y a b : UInt64) :
    (clipSegment clip (toInt x) (toInt y) (toInt a) (toInt b)).Wellformed := by
  obtain ⟨hx, hy⟩ := gfxClipOffset_fits clip (toInt_fits x) (toInt_fits y)
  obtain ⟨ha, hb⟩ := gfxClipOffset_fits clip (toInt_fits a) (toInt_fits b)
  exact ⟨hx, hy, ha, hb⟩

theorem line_confined {x y color : UInt64} (h : CallConfined s k g st (.line x y color)) :
    ∃ buf, sysGfxLine (gfxApplyClip s) g (toInt x) (toInt y) (toInt st.extraA) (toInt st.extraB)
        color.toUInt32 st.buf = some buf ∧
      Confined g (InWindow s k) st.buf buf := by
  rw [CallConfined] at h
  cases hclip : gfxApplyClip s with
  | closed => exact ⟨st.buf, rfl, .refl⟩
  | inactive =>
    rw [hclip] at h
    exact drawLine_confined (clipSegment_wellformed _ x y st.extraA st.extraB) h st.buf
  | active c =>
    rw [hclip] at h
    exact drawLine_confined (clipSegment_wellformed _ x y st.extraA st.extraB) h st.buf

theorem text_confined {x y color : UInt64} {str : List UInt8}
    (h : CallConfined s k g st (.text x y str color)) :
    Confined g (InWindow s k) st.buf
      (sysGfxText (gfxApplyClip s) g (toInt x) (toInt y) str color.toUInt32 st.buf) := by
  rw [CallConfined] at h
  obtain ⟨hx, hy⟩ := gfxClipOffset_fits (gfxApplyClip s) (toInt_fits x) (toInt_fits y)
  cases hclip : gfxApplyClip s with
  | closed => exact .refl
  | inactive =>
    rw [hclip] at h hx hy
    exact drawString_confined hx hy h
  | active c =>
    rw [hclip] at h hx hy
    exact drawString_confined hx hy h

/-- One syscall. -/
theorem gfxSyscall_confined (hk : s.apps.currentAppSlot = some k) {call : GfxCall}
    (h : CallConfined s k g st call) :
    ∃ st', gfxSyscall s g st call = some st' ∧ Confined g (InWindow s k) st.buf st'.buf := by
  cases call with
  | setExtra a b => exact ⟨_, rfl, .refl⟩
  | pixel x y color => exact ⟨_, rfl, pixel_confined hk h⟩
  | rect x y color => exact ⟨_, rfl, rect_confined hk h⟩
  | line x y color =>
    obtain ⟨buf, hrun, hconf⟩ := line_confined h
    exact ⟨{ st with buf := buf }, by rw [gfxSyscall, hrun, Option.map_some], hconf⟩
  | text x y str color => exact ⟨_, rfl, text_confined h⟩

end calls

/-- While the program of slot `k` runs, a sequence of drawing syscalls that all avoid the defects
    returns and changes no pixel outside the content rectangle of the program's window; without a
    window it changes no pixel at all. -/
theorem drawing_confined (s : System) (k : Fin appSlots) (hk : s.apps.currentAppSlot = some k)
    (g : Display) (calls : List GfxCall) (st : DrawState) (h : CallsConfined s k g calls st) :
    DrawsInside s k g calls st := by
  induction calls generalizing st with
  | nil => exact ⟨st, rfl, fun _ _ _ _ => rfl⟩
  | cons call calls ih =>
    obtain ⟨hcall, hrest⟩ := h
    obtain ⟨st₁, hrun, hconf⟩ := gfxSyscall_confined hk hcall
    obtain ⟨st₂, hrun', hsame⟩ := ih st₁ (hrest st₁ hrun)
    refine ⟨st₂, by rw [List.foldlM_cons, hrun]; exact hrun', fun px py hp hout => ?_⟩
    rw [hsame px py hp hout, hconf px py hp hout]

/-- A display of 1024 by 768 pixels with the font scale 1. -/
def bootDisplay : Display :=
  ⟨1024, 768, 1, by decide, by decide, by decide, by decide, unitScale_pos, unitScale_fits⟩

/-- The desktop after `wm_init` on this display. -/
def smallBoot : System := System.boot 1024 768 fun _ => (480, 300)

/-- A program is launched, gets a window and is resumed. -/
def resumedApp : System :=
  let s := (smallBoot.step (.launch "APP.BIN" .good (.createWindow 200 100))).getD smallBoot
  { s with apps := (resumeBegin 0 s.apps).getD s.apps }

/-- It fills a square, tries to set a pixel far away and writes a letter. -/
def squareAndLetter : List GfxCall :=
  [.setExtra 10 10, .rect 5 5 0xFF0000, .pixel 5000 5000 0xFF00, .text 20 20 [0x41] 0xFF]

theorem drawing_confined_square :
    DrawsInside resumedApp 0 bootDisplay squareAndLetter ⟨0, 0, fun _ => 0⟩ := by
  have hk : resumedApp.apps.currentAppSlot = some 0 := by decide
  have hclip : gfxApplyClip resumedApp = .active ⟨252, 268, 452, 368⟩ := by decide
  have hoffset : gfxClipOffset (.active ⟨252, 268, 452, 368⟩) (toInt 20, toInt 20) =
    (272, 288) := by
    decide
  refine drawing_confined resumedApp 0 hk bootDisplay squareAndLetter _ ⟨trivial, fun st₁ h₁ => ?_⟩
  obtain rfl := Option.some.inj h₁
  refine ⟨?_, fun st₂ h₂ => ?_⟩
  · simp only [CallConfined, hclip]
    exact ⟨⟨by decide, by decide, by decide, by decide⟩,
      by decide, by decide, by decide, by decide⟩
  · obtain rfl := Option.some.inj h₂
    refine ⟨by simp only [CallConfined, hclip], fun st₃ h₃ => ?_⟩
    obtain rfl := Option.some.inj h₃
    refine ⟨?_, fun _ _ => trivial⟩
    simp only [CallConfined, hclip, hoffset]
    refine ⟨fun row hrow col hcol _ => ⟨by decide, fun px py _ hx hy => ?_⟩, trivial⟩
    have hscale : bootDisplay.glyphScale = 1 := rfl
    rw [hscale] at hx hy
    exact inWindow_of_active hk hclip ⟨by simp only; omega, by simp only; omega⟩
      ⟨by simp only; omega, by simp only; omega⟩

/-- In its first slice a program has no window yet, and draws in the corner of the screen. -/
theorem first_slice_draws_on_screen :
    ∃ apps, launchBegin .good (some 0) Apploader.boot = some apps ∧
      apps.currentAppSlot = some 0 ∧
      ¬ DrawsInside ⟨smallBoot.desk, apps⟩ 0 bootDisplay [.pixel 0 0 0xFFFFFF]
        ⟨0, 0, fun _ => 0⟩ := by
  have hlaunch : (launchBegin .good (some 0) Apploader.boot).any (fun apps =>
      apps.currentAppSlot == some 0 && (apps.slots 0).windowId == -1) = true := by decide
  obtain ⟨apps, happs, hstate⟩ := (Option.any_eq_true _ _).mp hlaunch
  simp only [Bool.and_eq_true, beq_iff_eq] at hstate
  obtain ⟨hslot, hid⟩ := hstate
  refine ⟨apps, happs, hslot, ?_⟩
  rintro ⟨st', hrun, hsame⟩
  have hclip : gfxApplyClip ⟨smallBoot.desk, apps⟩ = .inactive := by
    simp [gfxApplyClip, currentWindowId, hslot, hid]
  have hout : ¬ InWindow ⟨smallBoot.desk, apps⟩ 0 0 0 := by
    rintro ⟨wx, wy, ww, wh, hrect, -⟩
    simp [hid, wmWindowRect] at hrect
  have hrun' : st' = ⟨0, 0, Function.update (fun _ => 0) 0 0xFFFFFF⟩ := by
    simp only [List.foldlM_cons, List.foldlM_nil, gfxSyscall, hclip] at hrun
    obtain rfl := Option.some.inj hrun
    congr 1
  have hpix := hsame 0 0 ⟨by decide, by decide⟩ hout
  rw [hrun'] at hpix
  exact absurd hpix (by decide)

end AuroraOS.Apps
