import Mathlib.Tactic.TypeStar

/-!
# Computations that may fail and keep a log

The log of a computation lists its events in order; a failure keeps the events up to it. A
computation ensures `G` of its events, and `Q` of its value, under the assumption that `A` holds of
its events.

## Main definitions

- `Logged` — a value, unless the computation failed, and a log
- `Logged.Ensures` — from an assumption about the log to a guarantee about log and value
- `Logged.LocalTo` — a computation over a memory that depends on nothing but what it logs
- `Logged.Restricts` — a computation that succeeds where another one does within given events
- `Logged.Settles` — what holds of the value, and what holds if there is none

## Main results

- `Logged.Ensures.bind`
- `Logged.Ensures.attempt`
- `Logged.LocalTo.bind`
- `Logged.Restricts.bind`
- `Logged.Settles.bind`
-/

namespace AuroraOS.Lib

variable {ε α β : Type*}

/-- The outcome of a computation. -/
structure Logged (ε α : Type*) where
  value : Option α
  log : List ε

namespace Logged

/-- Log an event. -/
def tell (e : ε) : Logged ε Unit := ⟨some (), [e]⟩

/-- Log several events. -/
def tellAll (es : List ε) : Logged ε Unit := ⟨some (), es⟩

def fail : Logged ε α := ⟨none, []⟩

/-- Go on only if `c` holds. -/
def require (c : Prop) [Decidable c] : Logged ε Unit := if c then ⟨some (), []⟩ else fail

/-- A failure as a value. -/
def attempt (p : Logged ε α) : Logged ε (Option α) := ⟨some p.value, p.log⟩

/-- The same computation under other names of the events. -/
def mapLog {ε' : Type*} (f : ε → ε') (p : Logged ε α) : Logged ε' α := ⟨p.value, p.log.map f⟩

instance : Monad (Logged ε) where
  pure a := ⟨some a, []⟩
  bind p f :=
    match p.value with
    | none => ⟨none, p.log⟩
    | some a => ⟨(f a).value, p.log ++ (f a).log⟩

@[simp] theorem value_pure (a : α) : (pure a : Logged ε α).value = some a := rfl

@[simp] theorem log_pure (a : α) : (pure a : Logged ε α).log = [] := rfl

@[simp] theorem value_tell (e : ε) : (tell e).value = some () := rfl

@[simp] theorem log_tell (e : ε) : (tell e).log = [e] := rfl

@[simp] theorem value_tellAll (es : List ε) : (tellAll es).value = some () := rfl

@[simp] theorem log_tellAll (es : List ε) : (tellAll es).log = es := rfl

@[simp] theorem value_fail : (fail : Logged ε α).value = none := rfl

@[simp] theorem log_fail : (fail : Logged ε α).log = [] := rfl

@[simp] theorem value_attempt (p : Logged ε α) : p.attempt.value = some p.value := rfl

@[simp] theorem log_attempt (p : Logged ε α) : p.attempt.log = p.log := rfl

@[simp] theorem value_require (c : Prop) [Decidable c] :
    (require c : Logged ε Unit).value = if c then some () else none := by
  unfold require
  split <;> rfl

@[simp] theorem log_require (c : Prop) [Decidable c] : (require c : Logged ε Unit).log = [] := by
  unfold require
  split <;> rfl

universe u v

variable {α β : Type u} {ε : Type v}

@[simp] theorem value_bind (p : Logged ε α) (f : α → Logged ε β) :
    (p >>= f).value = p.value.bind fun a => (f a).value := by
  change (match p.value with
    | none => (⟨none, p.log⟩ : Logged ε β)
    | some a => ⟨(f a).value, p.log ++ (f a).log⟩).value = _
  cases p.value <;> rfl

@[simp] theorem log_bind (p : Logged ε α) (f : α → Logged ε β) :
    (p >>= f).log = p.log ++ (p.value.map fun a => (f a).log).getD [] := by
  change (match p.value with
    | none => (⟨none, p.log⟩ : Logged ε β)
    | some a => ⟨(f a).value, p.log ++ (f a).log⟩).log = _
  cases p.value with
  | none => exact (List.append_nil _).symm
  | some a => rfl

theorem mem_log_bind {p : Logged ε α} {f : α → Logged ε β} {e : ε} :
    e ∈ (p >>= f).log ↔ e ∈ p.log ∨ ∃ a, p.value = some a ∧ e ∈ (f a).log := by
  rw [log_bind, List.mem_append]
  cases p.value <;> simp

theorem value_bind_eq_some {p : Logged ε α} {f : α → Logged ε β} {b : β} :
    (p >>= f).value = some b ↔ ∃ a, p.value = some a ∧ (f a).value = some b := by
  rw [value_bind, Option.bind_eq_some_iff]

/-- If all events of the computation meet `A`, they meet `G`, and its value meets `Q`. -/
def Ensures (A G : ε → Prop) (p : Logged ε α) (Q : α → Prop) : Prop :=
  (∀ e ∈ p.log, A e) → (∀ e ∈ p.log, G e) ∧ ∀ a, p.value = some a → Q a

section

variable {A G : ε → Prop} {Q : α → Prop} {R : β → Prop}

theorem Ensures.pure {a : α} (h : Q a) : Ensures A G (Pure.pure a) Q := by
  refine fun _ => ⟨fun e he => absurd he List.not_mem_nil, fun b hb => ?_⟩
  obtain rfl := Option.some.inj hb
  exact h

theorem Ensures.fail : Ensures A G (fail : Logged ε α) Q :=
  fun _ => ⟨fun _ he => absurd he List.not_mem_nil, fun _ hb => absurd hb (by simp)⟩

/-- An event that meets the guarantee whenever it meets the assumption. -/
theorem Ensures.tell {e : ε} (h : A e → G e) : Ensures A G (tell e) fun _ => A e := by
  intro hA
  have he : A e := hA e (List.mem_singleton_self e)
  refine ⟨fun e' he' => ?_, fun _ _ => he⟩
  rw [List.mem_singleton.mp he']
  exact h he

theorem Ensures.tellAll {es : List ε} (h : ∀ e ∈ es, G e) :
    Ensures A G (tellAll es) fun _ => True :=
  fun _ => ⟨h, fun _ _ => trivial⟩

theorem Ensures.require {c : Prop} [Decidable c] : Ensures A G (require c) fun _ => c := by
  refine fun _ => ⟨fun e he => ?_, fun _ hb => ?_⟩
  · rw [log_require] at he
    exact absurd he List.not_mem_nil
  · rw [value_require] at hb
    split at hb
    · assumption
    · exact absurd hb (by simp)

/-- What the first part ensures of its value, the second may assume. -/
theorem Ensures.bind {p : Logged ε α} {f : α → Logged ε β} (hp : Ensures A G p Q)
    (hf : ∀ a, Q a → Ensures A G (f a) R) : Ensures A G (p >>= f) R := by
  intro hA
  rw [log_bind] at hA ⊢
  obtain ⟨hlog, hvalue⟩ := hp fun e he => hA e (List.mem_append_left _ he)
  rw [value_bind]
  cases ha : p.value with
  | none => exact ⟨by simpa using hlog, fun b hb => absurd hb (by simp)⟩
  | some a =>
    rw [ha] at hA
    obtain ⟨hlog', hvalue'⟩ := hf a (hvalue a ha) fun e he => hA e (List.mem_append_right _ he)
    exact ⟨fun e he => (List.mem_append.mp he).elim (hlog e) (hlog' e), hvalue'⟩

/-- What is guaranteed may be assumed for more. -/
theorem Ensures.chain {G' : ε → Prop} {Q' : α → Prop} {p : Logged ε α} (hp : Ensures A G p Q)
    (hp' : Ensures G G' p Q') : Ensures A G p fun a => Q a ∧ Q' a :=
  fun hA => ⟨(hp hA).1, fun a ha => ⟨(hp hA).2 a ha, (hp' (hp hA).1).2 a ha⟩⟩

theorem Ensures.weaken {p : Logged ε α} {Q' : α → Prop} (hp : Ensures A G p Q)
    (h : ∀ a, Q a → Q' a) : Ensures A G p Q' :=
  fun hA => ⟨(hp hA).1, fun a ha => h a ((hp hA).2 a ha)⟩

theorem Ensures.of_value {p : Logged ε α} {a : α} (hlog : ∀ e ∈ p.log, G e)
    (hvalue : p.value = some a) : Ensures A G p fun b => b = a :=
  fun _ => ⟨hlog, fun _ hb => Option.some.inj (hb.symm.trans hvalue)⟩

/-- The value may be named afterwards. -/
theorem Ensures.value {p : Logged ε α} (hp : Ensures A G p Q) :
    Ensures A G p fun a => Q a ∧ p.value = some a :=
  fun hA => ⟨(hp hA).1, fun a ha => ⟨(hp hA).2 a ha, ha⟩⟩

theorem Ensures.mapLog {ε' : Type*} {A' G' : ε' → Prop} {f : ε → ε'} {p : Logged ε α}
    (hA : ∀ e, A' (f e) → A e) (hG : ∀ e, G e → G' (f e)) (hp : Ensures A G p Q) :
    Ensures A' G' (p.mapLog f) Q := by
  intro h
  obtain ⟨hlog, hvalue⟩ := hp fun e he => hA e (h _ (List.mem_map_of_mem he))
  refine ⟨fun e he => ?_, hvalue⟩
  obtain ⟨e', he', rfl⟩ := List.mem_map.mp he
  exact hG e' (hlog e' he')

theorem Ensures.attempt {p : Logged ε α} (hp : Ensures A G p Q) :
    Ensures A G p.attempt fun r => ∀ a, r = some a → Q a := by
  refine fun hA => ⟨(hp hA).1, fun r hr a ha => (hp hA).2 a ?_⟩
  rw [← ha]
  exact Option.some.inj hr

end

section Local

variable {ι κ : Type*} {address : ε → Option ι} {p : (ι → κ) → Logged ε α}

/-- In a memory that agrees at the addresses in the log, the outcome is the same. -/
def LocalTo (address : ε → Option ι) (p : (ι → κ) → Logged ε α) : Prop :=
  ∀ mem mem', (∀ e ∈ (p mem).log, ∀ i, address e = some i → mem i = mem' i) → p mem' = p mem

theorem LocalTo.const (q : Logged ε α) : LocalTo address fun _ : ι → κ => q :=
  fun _ _ _ => rfl

theorem LocalTo.bind {f : (ι → κ) → α → Logged ε β} (hp : LocalTo address p)
    (hf : ∀ a, LocalTo address fun mem => f mem a) : LocalTo address fun mem =>
      p mem >>= f mem := by
  intro mem mem' h
  simp only [log_bind] at h
  have hfirst := hp mem mem' fun e he => h e (List.mem_append_left _ he)
  change (match (p mem').value with
    | none => (⟨none, (p mem').log⟩ : Logged ε β)
    | some a => ⟨(f mem' a).value, (p mem').log ++ (f mem' a).log⟩) = _
  rw [hfirst]
  change _ = (match (p mem).value with
    | none => (⟨none, (p mem).log⟩ : Logged ε β)
    | some a => ⟨(f mem a).value, (p mem).log ++ (f mem a).log⟩)
  cases ha : (p mem).value with
  | none => rfl
  | some a =>
    rw [ha] at h
    simp only [hf a mem mem' fun e he => h e (List.mem_append_right _ he)]

theorem LocalTo.attempt (hp : LocalTo address p) : LocalTo address fun mem => (p mem).attempt := by
  intro mem mem' h
  simp only [Logged.attempt, hp mem mem' h]

theorem LocalTo.ite {c : Prop} [Decidable c] {q : (ι → κ) → Logged ε α} (hp : LocalTo address p)
    (hq : LocalTo address q) : LocalTo address fun mem => if c then p mem else q mem := by
  split
  · exact hp
  · exact hq

end Local

section Restricts

variable {α β : Type u} {ε : Type v} {I : ε → Prop} {p q : Logged ε α}

/-- `p` succeeds where `q` does and logs nothing but events of `I`, with the same value. -/
def Restricts (I : ε → Prop) (p q : Logged ε α) : Prop :=
  ∀ a, p.value = some a ↔ q.value = some a ∧ ∀ e ∈ q.log, I e

theorem Restricts.refl (h : ∀ e ∈ p.log, I e) : Restricts I p p :=
  fun _ => (and_iff_left h).symm

theorem Restricts.pure (a : α) : Restricts I (Pure.pure a) (Pure.pure a) :=
  .refl fun _ he => absurd he List.not_mem_nil

theorem Restricts.fail : Restricts I (fail : Logged ε α) fail :=
  .refl fun _ he => absurd he List.not_mem_nil

theorem Restricts.tell {e : ε} (h : I e) : Restricts I (tell e) (tell e) :=
  .refl fun e' he' => by rwa [List.mem_singleton.mp he']

theorem Restricts.tellAll {es : List ε} (h : ∀ e ∈ es, I e) :
    Restricts I (tellAll es) (tellAll es) :=
  .refl h

theorem Restricts.bind {f g : α → Logged ε β} (hp : Restricts I p q)
    (hf : ∀ a, p.value = some a → Restricts I (f a) (g a)) :
    Restricts I (p >>= f) (q >>= g) := by
  intro b
  rw [value_bind_eq_some, value_bind_eq_some]
  constructor
  · rintro ⟨a, ha, hb⟩
    obtain ⟨hqa, hI⟩ := (hp a).mp ha
    obtain ⟨hgb, hI'⟩ := (hf a ha b).mp hb
    refine ⟨⟨a, hqa, hgb⟩, fun e he => ?_⟩
    obtain he | ⟨a', ha', he⟩ := mem_log_bind.mp he
    · exact hI e he
    · obtain rfl := Option.some.inj (hqa.symm.trans ha')
      exact hI' e he
  · rintro ⟨⟨a, hqa, hgb⟩, hI⟩
    have ha := (hp a).mpr ⟨hqa, fun e he => hI e (mem_log_bind.mpr (Or.inl he))⟩
    refine ⟨a, ha, (hf a ha b).mpr ⟨hgb, fun e he => ?_⟩⟩
    exact hI e (mem_log_bind.mpr (Or.inr ⟨a, hqa, he⟩))

end Restricts

section Settles

variable {α β : Type u} {ε : Type v} {A : ε → Prop} {p : Logged ε α} {Q : α → Prop} {R : β → Prop}
  {E : Prop}

/-- If all events of the computation meet `A`, its value meets `Q`; if it failed, `E` holds. -/
def Settles (A : ε → Prop) (p : Logged ε α) (Q : α → Prop) (E : Prop) : Prop :=
  (∀ e ∈ p.log, A e) → (∀ a, p.value = some a → Q a) ∧ (p.value = none → E)

theorem Settles.of_value {a : α} (ha : p.value = some a) (h : Q a) : Settles A p Q E := by
  refine fun _ => ⟨fun b hb => ?_, fun hnone => absurd (ha.symm.trans hnone) (by simp)⟩
  obtain rfl := Option.some.inj (ha.symm.trans hb)
  exact h

theorem Settles.pure {a : α} (h : Q a) : Settles A (Pure.pure a) Q E := .of_value rfl h

theorem Settles.fail (h : E) : Settles A (fail : Logged ε α) Q E :=
  fun _ => ⟨fun _ ha => absurd ha (by simp), fun _ => h⟩

/-- What holds of the value of the first part, the second may assume. -/
theorem Settles.bind {f : α → Logged ε β} (hp : Settles A p Q E)
    (hf : ∀ a, Q a → Settles A (f a) R E) : Settles A (p >>= f) R E := by
  intro hA
  rw [log_bind] at hA
  obtain ⟨hvalue, hnone⟩ := hp fun e he => hA e (List.mem_append_left _ he)
  rw [value_bind]
  cases ha : p.value with
  | none => exact ⟨fun b hb => absurd hb (by simp), fun _ => hnone ha⟩
  | some a =>
    rw [ha] at hA
    exact hf a (hvalue a ha) fun e he => hA e (List.mem_append_right _ he)

/-- A part that does not fail. -/
theorem Settles.after {f : α → Logged ε β} (hp : Settles A p Q False)
    (hf : ∀ a, Q a → Settles A (f a) R E) : Settles A (p >>= f) R E :=
  Settles.bind (fun hA => ⟨(hp hA).1, fun hnone => ((hp hA).2 hnone).elim⟩) hf

/-- A part whose value is known. -/
theorem Settles.step {f : α → Logged ε β} {a : α} (ha : p.value = some a)
    (hf : Settles A (f a) R E) : Settles A (p >>= f) R E :=
  Settles.after (Q := (· = a)) (.of_value ha rfl) fun b hb => by
    rw [hb]
    exact hf

theorem Settles.ensured {G : ε → Prop} {Q' : α → Prop} (hp : Settles A p Q E)
    (h : Ensures A G p Q') : Settles A p (fun a => Q a ∧ Q' a) E :=
  fun hA => ⟨fun a ha => ⟨(hp hA).1 a ha, (h hA).2 a ha⟩, (hp hA).2⟩

/-- A failure may be described more weakly. -/
theorem Settles.or_fail {E' : Prop} (hp : Settles A p Q E) (hE : E → E') : Settles A p Q E' :=
  fun hA => ⟨(hp hA).1, fun hnone => hE ((hp hA).2 hnone)⟩

theorem Settles.require {c : Prop} [Decidable c] {β : Type} {R : β → Prop} {f : Unit → Logged ε β}
    (hf : c → Settles A (f ()) R E) (hE : ¬ c → E) : Settles A (require c >>= f) R E := by
  by_cases hc : c
  · exact .step (by rw [value_require, if_pos hc]) (hf hc)
  · have hnone : Settles A (Logged.require c : Logged ε Unit) (fun _ => False) E := by
      refine fun _ => ⟨fun _ hu => ?_, fun _ => hE hc⟩
      rw [value_require, if_neg hc] at hu
      exact absurd hu (by simp)
    exact hnone.bind fun _ => False.elim

end Settles

end Logged

end AuroraOS.Lib
