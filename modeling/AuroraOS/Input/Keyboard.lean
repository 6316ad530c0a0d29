import AuroraOS.Lib.Ring
import Mathlib.Data.List.Induction

/-!
# The keyboard's buffer

Model of the buffer of `keyboard.c`. The interrupt handler pushes a character between any two
statements of `keyboard_getchar_blocking`; it runs to its end before the statements go on. What was
accepted, taken out of the buffer and returned is recorded beside the variables.

## Main definitions

- `Keyboard`, `kbdBufferPush`, `keyboardHasKey`
- `Getchar` — where `keyboard_getchar_blocking` stands
- `KeyboardRun.step`

## Main results

- `KeyboardRun.inv_run`
-/

namespace AuroraOS.Input

open AuroraOS.Lib

/-- `KBD_BUFFER_SIZE`. -/
abbrev kbdBufferSize : ℕ := 256

/-- `kbd_buffer` with its indices. -/
structure Keyboard where
  kbdBuffer : ℕ → UInt8
  kbdHead : ℕ
  kbdTail : ℕ
  kbdHead_lt : kbdHead < kbdBufferSize
  kbdTail_lt : kbdTail < kbdBufferSize

/-- The static variables at boot. -/
def Keyboard.boot : Keyboard := ⟨fun _ => 0, 0, 0, by decide, by decide⟩

/-- `kbd_buffer_push`. -/
def kbdBufferPush (k : Keyboard) (c : UInt8) : Keyboard :=
  let next := (k.kbdHead + 1) % kbdBufferSize
  if next ≠ k.kbdTail then
    { k with
      kbdBuffer := Function.update k.kbdBuffer k.kbdHead c
      kbdHead := next
      kbdHead_lt := Nat.mod_lt _ (by decide) }
  else k

/-- The push leaves no trace. -/
def Keyboard.Drops (k : Keyboard) (c : UInt8) : Prop := (kbdBufferPush k c).kbdHead = k.kbdHead

instance (k : Keyboard) (c : UInt8) : Decidable (k.Drops c) := inferInstanceAs (Decidable (_ = _))

/-- `keyboard_has_key`. -/
def keyboardHasKey (k : Keyboard) : Bool := k.kbdHead != k.kbdTail

/-- The statement of `keyboard_getchar_blocking` that comes next. -/
inductive Getchar where
  /-- `while (kbd_head == kbd_tail)` -/
  | test
  /-- `hlt` -/
  | halt
  /-- `char c = kbd_buffer[kbd_tail]` -/
  | load
  /-- `kbd_tail = (kbd_tail + 1) % KBD_BUFFER_SIZE` -/
  | advance (c : UInt8)
  /-- `return c` -/
  | ret (c : UInt8)

/-- The keyboard, a call of `keyboard_getchar_blocking` if there is one, and the characters that
    were accepted, taken out of the buffer and returned so far. -/
structure KeyboardRun where
  kbd : Keyboard
  getchar : Option Getchar
  accepted : List UInt8
  popped : List UInt8
  returned : List UInt8

/-- Nothing was pushed. -/
def KeyboardRun.boot : KeyboardRun := ⟨.boot, none, [], [], []⟩

inductive KeyboardStep where
  /-- the keyboard's interrupt with a character to push -/
  | interrupt (c : UInt8)
  /-- `keyboard_getchar_blocking` is called -/
  | call
  /-- its next statement -/
  | statement

/-- One statement of `keyboard_getchar_blocking`. -/
def KeyboardRun.statement (s : KeyboardRun) : Getchar → KeyboardRun
  | .test =>
    { s with getchar := some (if s.kbd.kbdHead = s.kbd.kbdTail then .halt else .load) }
  | .halt => { s with getchar := some .test }
  | .load => { s with getchar := some (.advance (s.kbd.kbdBuffer s.kbd.kbdTail)) }
  | .advance c => { s with
      kbd := { s.kbd with
        kbdTail := (s.kbd.kbdTail + 1) % kbdBufferSize
        kbdTail_lt := Nat.mod_lt _ (by decide) }
      getchar := some (.ret c)
      popped := s.popped ++ [c] }
  | .ret c => { s with getchar := none, returned := s.returned ++ [c] }

/-- One step; there is one call at a time. -/
def KeyboardRun.step (s : KeyboardRun) : KeyboardStep → KeyboardRun
  | .interrupt c => { s with
      kbd := kbdBufferPush s.kbd c
      accepted := if s.kbd.Drops c then s.accepted else s.accepted ++ [c] }
  | .call => if s.getchar.isNone then { s with getchar := some .test } else s
  | .statement =>
    match s.getchar with
    | none => s
    | some g => s.statement g

/-- The state after some steps. -/
def KeyboardRun.run (steps : List KeyboardStep) : KeyboardRun :=
  steps.foldl KeyboardRun.step .boot

/-- The character that left the buffer and was not returned yet. -/
def KeyboardRun.inHand (s : KeyboardRun) : List UInt8 :=
  match s.getchar with
  | some (.ret c) => [c]
  | _ => []

/-- The buffer as a ring. -/
def Keyboard.ring (k : Keyboard) : Ring UInt8 kbdBufferSize :=
  ⟨k.kbdBuffer, k.kbdTail, k.kbdHead, k.kbdTail_lt, k.kbdHead_lt⟩

section ring

variable {k : Keyboard}

theorem drops_iff_full (c : UInt8) : k.Drops c ↔ k.ring.Full := by
  have hlt := k.kbdHead_lt
  rw [Keyboard.Drops, kbdBufferPush, Ring.Full]
  change (if _ then _ else _ : Keyboard).kbdHead = k.kbdHead ↔
    (k.kbdHead + 1) % kbdBufferSize = k.kbdTail
  split
  · next hnext =>
    -- the head moves
    refine iff_of_false (fun hhead => ?_) hnext
    have hsame : (k.kbdHead + 1) % kbdBufferSize = k.kbdHead := hhead
    have hsize : kbdBufferSize = 256 := rfl
    rw [Ring.next_eq hlt] at hsame
    split at hsame <;> omega
  · next hnext => exact iff_of_true rfl (not_not.mp hnext)

theorem ring_push_of_full (h : k.ring.Full) (c : UInt8) : kbdBufferPush k c = k :=
  if_neg (not_not.mpr h)

theorem ring_push (h : ¬ k.ring.Full) (c : UInt8) : (kbdBufferPush k c).ring = k.ring.put c := by
  have hnext : (k.kbdHead + 1) % kbdBufferSize ≠ k.kbdTail := h
  rw [kbdBufferPush, if_pos hnext]
  rfl

end ring

/-- What is known before the next statement of `keyboard_getchar_blocking`; no interrupt changes
    it. -/
def Getchar.Knows (ring : Ring UInt8 kbdBufferSize) : Getchar → Prop
  | .load => ring.pending ≠ []
  | .advance c => ∃ rest, ring.pending = c :: rest
  | _ => True

/-- The characters in the buffer are those that were accepted and not taken out. -/
structure KeyboardRun.Inv (s : KeyboardRun) : Prop where
  accounts : s.kbd.ring.Accounts s.accepted s.popped
  popped_eq : s.popped = s.returned ++ s.inHand
  knows : ∀ g, s.getchar = some g → g.Knows s.kbd.ring

section run

variable {s : KeyboardRun}

theorem KeyboardRun.inv_boot : KeyboardRun.boot.Inv :=
  ⟨rfl, rfl, fun _ hg => absurd hg (by simp [boot])⟩

theorem Getchar.Knows.put {ring : Ring UInt8 kbdBufferSize} {g : Getchar} (h : g.Knows ring)
    (hfull : ¬ ring.Full) (c : UInt8) : g.Knows (ring.put c) := by
  cases g with
  | test => trivial
  | halt => trivial
  | load =>
    rw [Knows, Ring.pending_put hfull]
    exact List.append_ne_nil_of_left_ne_nil h _
  | advance d =>
    obtain ⟨rest, hrest⟩ := h
    rw [Knows, Ring.pending_put hfull, hrest]
    exact ⟨rest ++ [c], rfl⟩
  | ret d => trivial

theorem KeyboardRun.Inv.interrupt (h : s.Inv) (c : UInt8) : (s.step (.interrupt c)).Inv := by
  by_cases hfull : s.kbd.ring.Full
  · have hstep : s.step (.interrupt c) = s := by
      rw [step, if_pos ((drops_iff_full c).mpr hfull), ring_push_of_full hfull]
    rw [hstep]
    exact h
  · have hring := ring_push hfull c
    rw [step, if_neg (mt (drops_iff_full c).mp hfull)]
    refine ⟨?_, h.popped_eq, fun g hg => ?_⟩
    · show (kbdBufferPush s.kbd c).ring.Accounts _ _
      rw [hring]
      exact h.accounts.put hfull c
    · show g.Knows (kbdBufferPush s.kbd c).ring
      rw [hring]
      exact (h.knows g hg).put hfull c

theorem KeyboardRun.Inv.call (h : s.Inv) : (s.step .call).Inv := by
  rw [step]
  split
  · next hnone =>
    refine ⟨h.accounts, ?_, fun g hg => ?_⟩
    · have hpopped := h.popped_eq
      rw [Option.isNone_iff_eq_none] at hnone
      rw [inHand, hnone] at hpopped
      exact hpopped
    · obtain rfl := Option.some.inj hg
      trivial
  · exact h

theorem KeyboardRun.Inv.statement (h : s.Inv) : (s.step .statement).Inv := by
  rw [step]
  cases hg : s.getchar with
  | none => exact h
  | some g =>
    obtain ⟨haccounts, hpopped, hknows⟩ := h
    have hknown := hknows g hg
    rw [inHand, hg] at hpopped
    cases g with
    | test =>
      by_cases hempty : s.kbd.kbdHead = s.kbd.kbdTail
      · simp only [KeyboardRun.statement, if_pos hempty]
        refine ⟨haccounts, hpopped, fun g' hg' => ?_⟩
        obtain rfl := Option.some.inj hg'
        trivial
      · simp only [KeyboardRun.statement, if_neg hempty]
        refine ⟨haccounts, hpopped, fun g' hg' => ?_⟩
        obtain rfl := Option.some.inj hg'
        rw [Getchar.Knows, Ne, Ring.pending_eq_nil_iff]
        exact hempty
    | halt =>
      refine ⟨haccounts, hpopped, fun g' hg' => ?_⟩
      obtain rfl := Option.some.inj hg'
      trivial
    | load =>
      refine ⟨haccounts, hpopped, fun g' hg' => ?_⟩
      obtain rfl := Option.some.inj hg'
      exact ⟨_, Ring.pending_eq_cons hknown⟩
    | advance c =>
      obtain ⟨rest, hrest⟩ := hknown
      have hne : s.kbd.ring.pending ≠ [] := by
        rw [hrest]
        exact List.cons_ne_nil c rest
      have hhead : s.kbd.ring.buf s.kbd.ring.readIdx = c := by
        rw [Ring.pending_eq_cons hne] at hrest
        exact (List.cons.inj hrest).1
      refine ⟨?_, ?_, fun g' hg' => ?_⟩
      · have hadvance := haccounts.advance hne
        rw [hhead] at hadvance
        exact hadvance
      · simp only [KeyboardRun.statement, inHand, hpopped, List.append_nil]
      · obtain rfl := Option.some.inj hg'
        trivial
    | ret c =>
      refine ⟨haccounts, ?_, fun g' hg' => absurd hg' (by simp [KeyboardRun.statement])⟩
      simp only [KeyboardRun.statement, inHand, hpopped, List.append_nil]

theorem KeyboardRun.inv_run (steps : List KeyboardStep) : (run steps).Inv := by
  rw [run]
  induction steps using List.reverseRecOn with
  | nil => exact inv_boot
  | append_singleton steps e ih =>
    rw [List.foldl_append, List.foldl_cons, List.foldl_nil]
    cases e with
    | interrupt c => exact ih.interrupt c
    | call => exact ih.call
    | statement => exact ih.statement

theorem KeyboardRun.hasKey_iff (h : s.Inv) :
    keyboardHasKey s.kbd = true ↔ s.popped ≠ s.accepted := by
  rw [h.accounts.ne_iff, keyboardHasKey, bne_iff_ne]
  rfl

theorem KeyboardRun.drops_iff (h : s.Inv) (c : UInt8) :
    s.kbd.Drops c ↔ s.accepted.length = s.popped.length + (kbdBufferSize - 1) := by
  rw [drops_iff_full, h.accounts.full_iff]

end run

end AuroraOS.Input
