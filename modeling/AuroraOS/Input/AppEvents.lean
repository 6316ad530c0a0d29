import AuroraOS.Apps.Apploader
import AuroraOS.Input.Keyboard

/-!
# The event queues of the loaded programs

`apploader_push_event` and `apploader_syscall_poll_event` of `apploader.c`. Every slot has a ring of
its own, which is empty again when the slot is reset for another program; what was accepted and
polled since then is recorded beside the slots.

## Main definitions

- `EventQueue`, `AppEvents`
- `apploaderPushEvent`, `apploaderSyscallPollEvent`
- `AppEventsRun.step`

## Main results

- `inputQueues_inOrder` — neither kind of input queue loses or repeats an item before it is full
-/

namespace AuroraOS.Input

open AuroraOS.Lib AuroraOS.Apps

/-- `APP_EVENT_QUEUE_LEN`. -/
abbrev appEventQueueLen : ℕ := 16

/-- `WM_EVENT_NONE`. -/
def wmEventNone : ℤ := 0

/-- `struct app_event`. -/
structure AppEvent where
  type : ℤ
  key : ℤ
  x : ℤ
  y : ℤ
  delta : ℤ
deriving DecidableEq

/-- The events of `struct app_slot`. -/
structure EventQueue where
  events : ℕ → AppEvent
  eventHead : ℕ
  eventTail : ℕ
  lastPolled : AppEvent
  eventHead_lt : eventHead < appEventQueueLen
  eventTail_lt : eventTail < appEventQueueLen

/-- `app_slots` and `current_app_slot`. -/
structure AppEvents where
  slots : Fin appSlots → EventQueue
  currentAppSlot : Option (Fin appSlots)

/-- The static variables at boot. -/
def AppEvents.boot : AppEvents where
  slots := fun _ => ⟨fun _ => ⟨0, 0, 0, 0, 0⟩, 0, 0, ⟨0, 0, 0, 0, 0⟩, by decide, by decide⟩
  currentAppSlot := none

/-- Change the queue of one slot. -/
def AppEvents.modify (a : AppEvents) (k : Fin appSlots) (f : EventQueue → EventQueue) : AppEvents :=
  { a with slots := Function.update a.slots k (f (a.slots k)) }

/-- `apploader_push_event` on the slot. -/
def EventQueue.push (e : AppEvent) (s : EventQueue) : EventQueue :=
  let next := (s.eventTail + 1) % appEventQueueLen
  if next = s.eventHead then s
  else { s with
    events := Function.update s.events s.eventTail e
    eventTail := next
    eventTail_lt := Nat.mod_lt _ (by decide) }

/-- `apploader_push_event`. -/
def apploaderPushEvent (slot type key x y delta : ℤ) (a : AppEvents) : AppEvents :=
  if h : slot < 0 ∨ slot ≥ appSlots then a
  else a.modify ⟨slot.toNat, by omega⟩ (EventQueue.push ⟨type, key, x, y, delta⟩)

/-- `apploader_syscall_poll_event` on the slot: what it returns, and the slot after it. -/
def EventQueue.poll (s : EventQueue) : ℤ × EventQueue :=
  if s.eventHead = s.eventTail then
    (wmEventNone, { s with lastPolled := { s.lastPolled with type := wmEventNone } })
  else
    let lastPolled := s.events s.eventHead
    (lastPolled.type, { s with
      lastPolled := lastPolled
      eventHead := (s.eventHead + 1) % appEventQueueLen
      eventHead_lt := Nat.mod_lt _ (by decide) })

/-- `apploader_syscall_poll_event`. -/
def apploaderSyscallPollEvent (a : AppEvents) : ℤ × AppEvents :=
  match a.currentAppSlot with
  | none => (wmEventNone, a)
  | some k => ((a.slots k).poll.1, a.modify k fun s => s.poll.2)

/-- A field of the event that was polled last. -/
def AppEvents.lastField (field : AppEvent → ℤ) (a : AppEvents) : ℤ :=
  match a.currentAppSlot with
  | none => 0
  | some k => field (a.slots k).lastPolled

/-- `apploader_syscall_event_key`. -/
def apploaderSyscallEventKey : AppEvents → ℤ := AppEvents.lastField AppEvent.key

/-- `apploader_syscall_event_x`. -/
def apploaderSyscallEventX : AppEvents → ℤ := AppEvents.lastField AppEvent.x

/-- `apploader_syscall_event_y`. -/
def apploaderSyscallEventY : AppEvents → ℤ := AppEvents.lastField AppEvent.y

/-- `apploader_syscall_event_delta`. -/
def apploaderSyscallEventDelta : AppEvents → ℤ := AppEvents.lastField AppEvent.delta

/-- What a program sees of an event: the value that the poll returned, and then the fields. -/
def seenEvent (polled : ℤ × AppEvents) : AppEvent where
  type := polled.1
  key := apploaderSyscallEventKey polled.2
  x := apploaderSyscallEventX polled.2
  y := apploaderSyscallEventY polled.2
  delta := apploaderSyscallEventDelta polled.2

/-- `apploader_reset_slot`. -/
def EventQueue.reset (s : EventQueue) : EventQueue := { s with
  eventHead := 0
  eventTail := 0
  lastPolled := { s.lastPolled with type := wmEventNone }
  eventHead_lt := by decide
  eventTail_lt := by decide }

/-- The push to the slot leaves no trace. -/
def AppEvents.Drops (a : AppEvents) (k : Fin appSlots) (e : AppEvent) : Prop :=
  ((apploaderPushEvent k e.type e.key e.x e.y e.delta a).slots k).eventTail = (a.slots k).eventTail

/-- The slots, and the events that each of them accepted and returned since it was reset. -/
structure AppEventsRun where
  apps : AppEvents
  accepted : Fin appSlots → List AppEvent
  popped : Fin appSlots → List AppEvent

/-- Nothing was pushed. -/
def AppEventsRun.boot : AppEventsRun := ⟨.boot, fun _ => [], fun _ => []⟩

inductive AppEventsStep where
  /-- a key, a click or a scroll for a window -/
  | push (slot type key x y delta : ℤ)
  /-- the program that runs polls -/
  | poll
  /-- another program runs, or none -/
  | switch (slot : Option (Fin appSlots))
  /-- a slot is reset when its program ends or a new one is loaded -/
  | reset (slot : Fin appSlots)

/-- The events after a push: those of a slot whose tail moved have a new last one. -/
def AppEventsRun.acceptedBy (s : AppEventsRun) (a : AppEvents) (e : AppEvent) (k : Fin appSlots) :
    List AppEvent :=
  if (a.slots k).eventTail = (s.apps.slots k).eventTail then s.accepted k else s.accepted k ++ [e]

/-- The events after a poll: those of a slot whose head moved have a new last one, as the program
    sees it. -/
def AppEventsRun.poppedBy (s : AppEventsRun) (polled : ℤ × AppEvents) (k : Fin appSlots) :
    List AppEvent :=
  if (polled.2.slots k).eventHead = (s.apps.slots k).eventHead then s.popped k
  else s.popped k ++ [seenEvent polled]

def AppEventsRun.step (s : AppEventsRun) : AppEventsStep → AppEventsRun
  | .push slot type key x y delta =>
    let apps := apploaderPushEvent slot type key x y delta s.apps
    { s with apps := apps, accepted := s.acceptedBy apps ⟨type, key, x, y, delta⟩ }
  | .poll =>
    let polled := apploaderSyscallPollEvent s.apps
    { s with apps := polled.2, popped := s.poppedBy polled }
  | .switch slot => { s with apps := { s.apps with currentAppSlot := slot } }
  | .reset k => { s with
      apps := s.apps.modify k EventQueue.reset
      accepted := Function.update s.accepted k []
      popped := Function.update s.popped k [] }

/-- The state after some steps. -/
def AppEventsRun.run (steps : List AppEventsStep) : AppEventsRun :=
  steps.foldl AppEventsRun.step .boot

/-- The events of a slot as a ring. -/
def EventQueue.ring (s : EventQueue) : Ring AppEvent appEventQueueLen :=
  ⟨s.events, s.eventHead, s.eventTail, s.eventHead_lt, s.eventTail_lt⟩

section ring

variable {q : EventQueue}

/-- One of the places of the ring is never used, so an index that moves changes. -/
theorem next_ne {i : ℕ} (h : i < appEventQueueLen) : (i + 1) % appEventQueueLen ≠ i := by
  have hsize : appEventQueueLen = 16 := rfl
  rw [Ring.next_eq h]
  split <;> omega

theorem push_of_full (h : q.ring.Full) (e : AppEvent) : q.push e = q := if_pos h

theorem push_ring (h : ¬ q.ring.Full) (e : AppEvent) : (q.push e).ring = q.ring.put e := by
  have hnext : (q.eventTail + 1) % appEventQueueLen ≠ q.eventHead := h
  rw [EventQueue.push, if_neg hnext]
  rfl

theorem push_eventTail (e : AppEvent) : (q.push e).eventTail = q.eventTail ↔ q.ring.Full := by
  by_cases h : q.ring.Full
  · rw [push_of_full h]
    exact iff_of_true rfl h
  · refine iff_of_false (fun htail => ?_) h
    have hput : (q.push e).ring.writeIdx = (q.eventTail + 1) % appEventQueueLen := by
      rw [push_ring h]
      rfl
    exact next_ne q.eventTail_lt (hput.symm.trans htail)

theorem poll_of_empty (h : q.ring.pending = []) :
    q.poll.2.ring = q.ring ∧ q.poll.1 = wmEventNone := by
  have hempty : q.eventHead = q.eventTail := (Ring.pending_eq_nil_iff.mp h).symm
  rw [EventQueue.poll, if_pos hempty]
  exact ⟨rfl, rfl⟩

theorem poll_of_pending (h : q.ring.pending ≠ []) :
    q.poll.2.ring = q.ring.advance ∧ q.poll.1 = (q.ring.buf q.ring.readIdx).type ∧
      q.poll.2.lastPolled = q.ring.buf q.ring.readIdx ∧ q.poll.2.eventHead ≠ q.eventHead := by
  have hne : q.eventHead ≠ q.eventTail := fun heq => h (Ring.pending_eq_nil_iff.mpr heq.symm)
  rw [EventQueue.poll, if_neg hne]
  exact ⟨rfl, rfl, rfl, next_ne q.eventHead_lt⟩

theorem reset_pending : q.reset.ring.pending = [] := Ring.pending_eq_nil_iff.mpr rfl

end ring

/-- The events in every queue are those that were accepted and not polled. -/
def AppEventsRun.Inv (s : AppEventsRun) : Prop :=
  ∀ k, (s.apps.slots k).ring.Accounts (s.accepted k) (s.popped k)

section run

variable {s : AppEventsRun}

theorem modify_slots (a : AppEvents) (k : Fin appSlots) (f : EventQueue → EventQueue)
    (j : Fin appSlots) : (a.modify k f).slots j = if j = k then f (a.slots k) else a.slots j :=
  Function.update_apply _ _ _ _

theorem pushEvent_slots (slot type key x y delta : ℤ) (a : AppEvents) (j : Fin appSlots) :
    (apploaderPushEvent slot type key x y delta a).slots j =
      if slot = j.val then (a.slots j).push ⟨type, key, x, y, delta⟩ else a.slots j := by
  have hj := j.isLt
  rw [apploaderPushEvent]
  split
  · next h => rw [if_neg (by omega)]
  · next h =>
    rw [modify_slots]
    by_cases hslot : slot = j.val
    · have hk : j = ⟨slot.toNat, by omega⟩ := Fin.ext (by simp only; omega)
      rw [if_pos hslot, if_pos hk, ← hk]
    · rw [if_neg hslot, if_neg fun hk => hslot (by rw [hk]; simp only; omega)]

theorem AppEventsRun.Inv.push (h : s.Inv) (slot type key x y delta : ℤ) :
    (s.step (.push slot type key x y delta)).Inv := by
  intro j
  have haccounts := h j
  simp only [step, acceptedBy, pushEvent_slots]
  by_cases hslot : slot = j.val
  · simp only [if_pos hslot]
    by_cases hfull : (s.apps.slots j).ring.Full
    · rw [push_of_full hfull, if_pos rfl]
      exact haccounts
    · rw [if_neg (mt (push_eventTail _).mp hfull), push_ring hfull]
      exact haccounts.put hfull _
  · simp only [if_neg hslot, if_true]
    exact haccounts

/-- The program sees the event that is in its slot. -/
theorem seenEvent_eq {a : AppEvents} {k : Fin appSlots} (h : a.currentAppSlot = some k) :
    seenEvent (apploaderSyscallPollEvent a) =
      { (a.slots k).poll.2.lastPolled with type := (a.slots k).poll.1 } := by
  simp only [seenEvent, apploaderSyscallPollEvent, h, apploaderSyscallEventKey,
    apploaderSyscallEventX, apploaderSyscallEventY, apploaderSyscallEventDelta,
    AppEvents.lastField, AppEvents.modify, Function.update_self]

/-- The poll of the program in slot `k`: it takes the next event, if there is one. -/
theorem AppEventsRun.poll_popped {k : Fin appSlots} (h : s.apps.currentAppSlot = some k) :
    (s.step .poll).popped k = s.popped k ++ (s.apps.slots k).ring.pending.take 1 ∧
      ((s.step .poll).apps.slots k).ring.pending = (s.apps.slots k).ring.pending.drop 1 ∧
      (apploaderSyscallPollEvent s.apps).1 =
        (s.apps.slots k).ring.pending.head?.elim wmEventNone AppEvent.type := by
  have hslot : (apploaderSyscallPollEvent s.apps).2.slots k = (s.apps.slots k).poll.2 := by
    simp only [apploaderSyscallPollEvent, h, modify_slots, if_true]
  have hret : (apploaderSyscallPollEvent s.apps).1 = (s.apps.slots k).poll.1 := by
    simp only [apploaderSyscallPollEvent, h]
  simp only [step, poppedBy, hslot, hret]
  by_cases hempty : (s.apps.slots k).ring.pending = []
  · obtain ⟨hring, hnone⟩ := poll_of_empty hempty
    have hhead : (s.apps.slots k).poll.2.eventHead = (s.apps.slots k).eventHead :=
      congrArg Ring.readIdx hring
    rw [if_pos hhead, hring, hnone, hempty]
    exact ⟨(List.append_nil _).symm, rfl, rfl⟩
  · obtain ⟨hring, htype, hlast, hhead⟩ := poll_of_pending hempty
    rw [if_neg hhead, seenEvent_eq h, hring, htype, hlast, Ring.pending_eq_cons hempty]
    exact ⟨rfl, rfl, rfl⟩

/-- It leaves the other slots alone. -/
theorem AppEventsRun.poll_other {j : Fin appSlots} (h : s.apps.currentAppSlot ≠ some j) :
    (s.step .poll).popped j = s.popped j ∧ (s.step .poll).apps.slots j = s.apps.slots j := by
  have hslot : (apploaderSyscallPollEvent s.apps).2.slots j = s.apps.slots j := by
    rw [apploaderSyscallPollEvent]
    cases hk : s.apps.currentAppSlot with
    | none => rfl
    | some k =>
      have hne : j ≠ k := fun hj => h (by rw [hk, hj])
      exact (modify_slots s.apps k (fun s => s.poll.2) j).trans (if_neg hne)
  refine ⟨?_, hslot⟩
  simp only [step, poppedBy, hslot, if_true]

theorem AppEventsRun.Inv.poll (h : s.Inv) : (s.step .poll).Inv := by
  intro j
  have haccounts : s.accepted j = s.popped j ++ (s.apps.slots j).ring.pending := h j
  by_cases hj : s.apps.currentAppSlot = some j
  · obtain ⟨hpopped, hpending, -⟩ := AppEventsRun.poll_popped hj
    rw [Ring.Accounts, hpopped, hpending, List.append_assoc, List.take_append_drop]
    exact haccounts
  · obtain ⟨hpopped, hslot⟩ := AppEventsRun.poll_other hj
    rw [Ring.Accounts, hpopped, hslot]
    exact haccounts

theorem AppEventsRun.Inv.reset (h : s.Inv) (k : Fin appSlots) : (s.step (.reset k)).Inv := by
  intro j
  have haccounts := h j
  simp only [step, modify_slots, Function.update_apply]
  split
  · rw [Ring.Accounts, reset_pending, List.append_nil]
  · exact haccounts

theorem AppEventsRun.inv_run (steps : List AppEventsStep) : (run steps).Inv := by
  rw [run]
  induction steps using List.reverseRecOn with
  | nil =>
    intro k
    have hempty : (boot.apps.slots k).ring.pending = [] := Ring.pending_eq_nil_iff.mpr rfl
    exact hempty.symm
  | append_singleton steps e ih =>
    rw [List.foldl_append, List.foldl_cons, List.foldl_nil]
    cases e with
    | push slot type key x y delta => exact ih.push slot type key x y delta
    | poll => exact ih.poll
    | switch slot => exact ih
    | reset k => exact ih.reset k

theorem AppEventsRun.drops_iff (h : s.Inv) (k : Fin appSlots) (e : AppEvent) :
    s.apps.Drops k e ↔ (s.accepted k).length = (s.popped k).length + (appEventQueueLen - 1) := by
  rw [AppEvents.Drops, pushEvent_slots, if_pos rfl, push_eventTail, (h k).full_iff]

/-- The answer to a poll: the next of the accepted events, and `WM_EVENT_NONE` if it has polled
    all of them. -/
theorem AppEventsRun.poll_answer (h : s.Inv) {k : Fin appSlots}
    (hk : s.apps.currentAppSlot = some k) :
    (apploaderSyscallPollEvent s.apps).1 =
        (s.accepted k)[(s.popped k).length]?.elim wmEventNone AppEvent.type ∧
      (s.step .poll).popped k = (s.accepted k).take ((s.popped k).length + 1) := by
  have haccounts : s.accepted k = s.popped k ++ (s.apps.slots k).ring.pending := h k
  obtain ⟨hpopped, -, hret⟩ := AppEventsRun.poll_popped hk
  rw [haccounts, hpopped, hret]
  constructor
  · rw [List.getElem?_append_right le_rfl, Nat.sub_self, List.head?_eq_getElem?]
  · rw [List.take_append, List.take_of_length_le (Nat.le_succ _), Nat.add_sub_cancel_left]

/-- Where no event is of the type `WM_EVENT_NONE`, this answer says that no event is pending. -/
theorem AppEventsRun.poll_none_iff (h : s.Inv) {k : Fin appSlots}
    (hk : s.apps.currentAppSlot = some k) (htypes : ∀ e ∈ s.accepted k, e.type ≠ wmEventNone) :
    (apploaderSyscallPollEvent s.apps).1 = wmEventNone ↔ s.popped k = s.accepted k := by
  have haccounts : s.accepted k = s.popped k ++ (s.apps.slots k).ring.pending := h k
  obtain ⟨-, -, hret⟩ := AppEventsRun.poll_popped hk
  rw [hret, haccounts, List.self_eq_append_right]
  cases hpending : (s.apps.slots k).ring.pending with
  | nil => exact iff_of_true rfl rfl
  | cons e rest =>
    refine iff_of_false (htypes e ?_) (List.cons_ne_nil e rest)
    rw [haccounts, hpending]
    exact List.mem_append_right _ List.mem_cons_self

end run

/-- What `keyboard_getchar_blocking` returns, and what a program sees when it polls, is a beginning
    of what was accepted: a character that left the buffer is returned or in hand, and a poll takes
    the next event and returns its type, or `WM_EVENT_NONE` if there is none. A push is dropped
    exactly when all places but one hold items that were not taken out. -/
theorem inputQueues_inOrder :
    (∀ steps, (KeyboardRun.run steps).popped <+: (KeyboardRun.run steps).accepted ∧
      (KeyboardRun.run steps).popped =
        (KeyboardRun.run steps).returned ++ (KeyboardRun.run steps).inHand ∧
      (keyboardHasKey (KeyboardRun.run steps).kbd = true ↔
        (KeyboardRun.run steps).popped ≠ (KeyboardRun.run steps).accepted) ∧
      ∀ c, (KeyboardRun.run steps).kbd.Drops c ↔ (KeyboardRun.run steps).accepted.length =
        (KeyboardRun.run steps).popped.length + (kbdBufferSize - 1)) ∧
    ∀ steps k, (AppEventsRun.run steps).popped k <+: (AppEventsRun.run steps).accepted k ∧
      (∀ e, (AppEventsRun.run steps).apps.Drops k e ↔ ((AppEventsRun.run steps).accepted k).length =
        ((AppEventsRun.run steps).popped k).length + (appEventQueueLen - 1)) ∧
      ((AppEventsRun.run steps).apps.currentAppSlot = some k →
        (apploaderSyscallPollEvent (AppEventsRun.run steps).apps).1 =
            ((AppEventsRun.run steps).accepted k)[((AppEventsRun.run steps).popped k).length]?.elim
              wmEventNone AppEvent.type ∧
          ((AppEventsRun.run steps).step .poll).popped k =
            ((AppEventsRun.run steps).accepted k).take
              (((AppEventsRun.run steps).popped k).length + 1) ∧
          ((∀ e ∈ (AppEventsRun.run steps).accepted k, e.type ≠ wmEventNone) →
            ((apploaderSyscallPollEvent (AppEventsRun.run steps).apps).1 = wmEventNone ↔
              (AppEventsRun.run steps).popped k = (AppEventsRun.run steps).accepted k))) := by
  refine ⟨fun steps => ?_, fun steps k => ?_⟩
  · have h := KeyboardRun.inv_run steps
    exact ⟨h.accounts.isPrefix, h.popped_eq, KeyboardRun.hasKey_iff h, KeyboardRun.drops_iff h⟩
  · have h := AppEventsRun.inv_run steps
    refine ⟨(h k).isPrefix, AppEventsRun.drops_iff h k, fun hk => ?_⟩
    obtain ⟨hret, hpopped⟩ := AppEventsRun.poll_answer h hk
    exact ⟨hret, hpopped, fun htypes => AppEventsRun.poll_none_iff h hk htypes⟩

/-- Two keys for the window in slot 0, a poll between them and two after them. -/
def twoKeys : List AppEventsStep :=
  [.switch (some ⟨0, by decide⟩), .push 0 1 97 0 0 0, .poll, .push 0 1 98 0 0 0, .poll]

theorem inputQueues_inOrder_twoKeys :
    (AppEventsRun.run twoKeys).popped 0 = [⟨1, 97, 0, 0, 0⟩, ⟨1, 98, 0, 0, 0⟩] ∧
      (apploaderSyscallPollEvent (AppEventsRun.run twoKeys).apps).1 = wmEventNone ∧
      (AppEventsRun.run twoKeys).popped 0 <+: (AppEventsRun.run twoKeys).accepted 0 := by
  have hcurrent : (AppEventsRun.run twoKeys).apps.currentAppSlot = some 0 := rfl
  have haccepted : (AppEventsRun.run twoKeys).accepted 0 =
    [⟨1, 97, 0, 0, 0⟩, ⟨1, 98, 0, 0, 0⟩] := by
    decide
  have hpopped : (AppEventsRun.run twoKeys).popped 0 = [⟨1, 97, 0, 0, 0⟩, ⟨1, 98, 0, 0, 0⟩] := by
    decide
  obtain ⟨hbegins, -, hpoll⟩ := inputQueues_inOrder.2 twoKeys 0
  refine ⟨hpopped, ((hpoll hcurrent).2.2 ?_).mpr (hpopped.trans haccepted.symm), hbegins⟩
  rw [haccepted]
  decide

end AuroraOS.Input
