import AuroraOS.Asm.Machine
import Mathlib.Logic.Relation

/-!
# Leaving a program by SYS_EXIT

`asm_run` enters a program through `asm_run_trampoline` of `boot.s`, which saves registers and calls
the program. `SYS_EXIT` lets the interrupt return to a single `ret` instead of to the program. That
takes the word on top of the stack for the way back, whatever the program has left there.

## Main definitions

- `enter`, `leave` — the two halves of `asm_run_trampoline`
- `exitStubRet` — the exit syscall and the `ret` it returns to
- `Unwinds` — control is back in `asm_run`, with everything restored
- `FrameIntact` — the stack above the program is as it was when the program was entered

## Main results

- `sysExit_unwinds_iff`
-/

namespace AuroraOS.Asm

/-- The registers that `asm_run_trampoline` saves, in the order in which it pushes them. -/
def calleeSaved : List Reg := [rbx, rbp, r12, r13, r14, r15]

/-- `asm_run` up to the first instruction of the program. `afterCall` is the address behind
    `call *%rdi`. -/
def enter (afterCall execBuf : Word) (m : Machine) : Machine :=
  { (calleeSaved.foldl Machine.pushReg m).pushWord afterCall with
    rip := execBuf
    lastExitCode := 0 }

/-- `asm_run_trampoline` from `afterCall` on. -/
def leave (m : Machine) : Machine := (calleeSaved.reverse.foldl Machine.popReg m).ret

/-- The case SYS_EXIT of `syscall_dispatch`, and `exit_stub`. -/
def exitStubRet (m : Machine) : Machine := { m with lastExitCode := m.regs rdi }.ret

section Run

variable (fetch : Machine → Option (Instr Word × Word)) (os : Machine → Word × Memory)

/-- The program is about to make the syscall SYS_EXIT. -/
def Exits (m : Machine) : Prop := ∃ next, fetch m = some (.int80, next) ∧ m.regs rax = 0

/-- Any other step of the program. -/
def Step (m m' : Machine) : Prop :=
  ∃ i next, fetch m = some (i, next) ∧ ¬ (i = .int80 ∧ m.regs rax = 0) ∧ m' = m.exec (os m) next i

end Run

section Frame

variable (afterCall : Word) (m₀ : Machine)

/-- After an exit in the state `m`, control is back in `asm_run`, which called the trampoline in the
    state `m₀`, and `asm_run` returns what was in `rdi`. -/
structure Unwinds (m : Machine) : Prop where
  trampoline : (exitStubRet m).rip = afterCall
  rip : (leave (exitStubRet m)).rip = readWord m₀.mem (m₀.regs rsp)
  stack : (leave (exitStubRet m)).regs rsp = m₀.regs rsp + 8
  saved : ∀ r ∈ calleeSaved, (leave (exitStubRet m)).regs r = m₀.regs r
  exitCode : (leave (exitStubRet m)).lastExitCode = m.regs rdi

/-- The words from `a` on. -/
def WordsAt (mem : Memory) : Word → List Word → Prop
  | _, [] => True
  | a, w :: ws => readWord mem a = w ∧ WordsAt mem (a + 8) ws

/-- What the program finds on the stack: the way back to the trampoline, the saved registers, and
    the way back to `asm_run`. -/
def frame : List Word :=
  afterCall :: (calleeSaved.reverse.map m₀.regs ++ [readWord m₀.mem (m₀.regs rsp)])

/-- Where the program finds it. -/
def frameBase : Word := m₀.regs rsp - 56

instance decidableWordsAt (mem : Memory) : ∀ (a : Word) (ws : List Word),
    Decidable (WordsAt mem a ws)
  | _, [] => isTrue trivial
  | a, w :: ws =>
    have := decidableWordsAt mem (a + 8) ws
    inferInstanceAs (Decidable (readWord mem a = w ∧ WordsAt mem (a + 8) ws))

def FrameIntact (m : Machine) : Prop := WordsAt m.mem (frameBase m₀) (frame afterCall m₀)

instance (m : Machine) : Decidable (FrameIntact afterCall m₀ m) :=
  inferInstanceAs (Decidable (WordsAt m.mem _ _))

/-- Where an instruction writes a word. -/
def writesAt (m : Machine) : Instr Word → Option Word
  | .push _ => some (m.regs rsp - 8)
  | .store base disp _ => some (m.address base disp)
  | _ => none

/-- The next step of the program writes nothing into the eight words of the frame, and neither does
    the kernel if it is a syscall. -/
def SparesFrame (fetch : Machine → Option (Instr Word × Word)) (os : Machine → Word × Memory)
    (m : Machine) : Prop :=
  ∀ i next, fetch m = some (i, next) →
    (∀ a, writesAt m i = some a → ∀ b : Word, (b - a).toNat < 8 → 64 ≤ (b - frameBase m₀).toNat) ∧
    (i = .int80 → ∀ b, (b - frameBase m₀).toNat < 64 → (os m).2 b = m.mem b)

end Frame

variable {afterCall execBuf : Word} {m₀ m m' : Machine}
variable {fetch : Machine → Option (Instr Word × Word)} {os : Machine → Word × Memory}

/-- What `leave` takes from the stack. -/
theorem leave_eq (m : Machine) :
    (leave m).regs rsp = m.regs rsp + 56 ∧ (leave m).rip = readWord m.mem (m.regs rsp + 48) ∧
      (leave m).regs r15 = readWord m.mem (m.regs rsp) ∧
      (leave m).regs r14 = readWord m.mem (m.regs rsp + 8) ∧
      (leave m).regs r13 = readWord m.mem (m.regs rsp + 16) ∧
      (leave m).regs r12 = readWord m.mem (m.regs rsp + 24) ∧
      (leave m).regs rbp = readWord m.mem (m.regs rsp + 32) ∧
      (leave m).regs rbx = readWord m.mem (m.regs rsp + 40) ∧
      (leave m).lastExitCode = m.lastExitCode := by
  simp [leave, calleeSaved, Machine.popReg, Machine.ret, Machine.set, rbx, rbp, r12, r13, r14, r15,
    rsp, BitVec.add_assoc]

/-- An exit needs the frame as it was, right where the stack pointer is. -/
theorem unwinds_iff :
    Unwinds afterCall m₀ m ↔ m.regs rsp = frameBase m₀ ∧ FrameIntact afterCall m₀ m := by
  obtain ⟨hrsp, hrip, h15, h14, h13, h12, hbp, hbx, hcode⟩ := leave_eq (exitStubRet m)
  have hstub : (exitStubRet m).regs rsp = m.regs rsp + 8 := by
    simp [exitStubRet, Machine.ret, Machine.set]
  have hmem : (exitStubRet m).mem = m.mem := rfl
  simp only [hstub, hmem, BitVec.add_assoc] at hrsp hrip h15 h14 h13 h12 hbp hbx
  have hframe : WordsAt m.mem (m.regs rsp) (frame afterCall m₀) ↔
      (exitStubRet m).rip = afterCall ∧
        (∀ r ∈ calleeSaved, (leave (exitStubRet m)).regs r = m₀.regs r) ∧
        (leave (exitStubRet m)).rip = readWord m₀.mem (m₀.regs rsp) := by
    have hstubRip : (exitStubRet m).rip = readWord m.mem (m.regs rsp) := rfl
    simp only [frame, calleeSaved, WordsAt, List.reverse_cons, List.reverse_nil, List.nil_append,
      List.cons_append, List.map_cons, List.map_nil, List.forall_mem_cons,
        BitVec.add_assoc, hstubRip,
      hrip, h15, h14, h13, h12, hbp, hbx, and_true]
    constructor
    · rintro ⟨ht, h₁, h₂, h₃, h₄, h₅, h₆, h₇⟩
      exact ⟨ht, ⟨h₆, h₅, h₄, h₃, h₂, h₁, fun r hr => absurd hr List.not_mem_nil⟩, h₇⟩
    · rintro ⟨ht, ⟨h₆, h₅, h₄, h₃, h₂, h₁, -⟩, h₇⟩
      exact ⟨ht, h₁, h₂, h₃, h₄, h₅, h₆, h₇⟩
  have hbase : m.regs rsp = frameBase m₀ ↔ (leave (exitStubRet m)).regs rsp = m₀.regs rsp + 8 := by
    rw [hrsp, frameBase]
    constructor <;> intro h <;> bv_omega
  constructor
  · rintro ⟨htrampoline, hrip', hstack, hsaved, -⟩
    refine ⟨hbase.mpr hstack, ?_⟩
    rw [FrameIntact, ← hbase.mpr hstack]
    exact hframe.mpr ⟨htrampoline, hsaved, hrip'⟩
  · rintro ⟨hsp, hintact⟩
    rw [FrameIntact, ← hsp] at hintact
    obtain ⟨htrampoline, hsaved, hrip'⟩ := hframe.mp hintact
    exact ⟨htrampoline, hrip', hbase.mp hsp, hsaved, hcode⟩

theorem enter_rsp (afterCall execBuf : Word) (m₀ : Machine) :
    (enter afterCall execBuf m₀).regs rsp = frameBase m₀ := by
  simp [enter, frameBase, calleeSaved, Machine.pushReg, Machine.pushWord, Machine.set,
    BitVec.sub_eq_add_neg, BitVec.add_assoc]

theorem WordsAt.congr {mem mem' : Memory} {a : Word} {ws : List Word} (hlen : ws.length < 2 ^ 32)
    (hmem : ∀ b : Word, (b - a).toNat < 8 * ws.length → mem' b = mem b) (h : WordsAt mem a ws) :
    WordsAt mem' a ws := by
  induction ws generalizing a with
  | nil => exact trivial
  | cons w ws ih =>
    rw [List.length_cons] at hlen hmem
    obtain ⟨hw, hws⟩ := h
    refine ⟨?_, ih (by omega) (fun b hb => hmem b ?_) hws⟩
    · rw [readWord_congr fun b hb => hmem b (by omega), hw]
    · bv_omega

/-- Pushing a word puts it before those that are there. -/
theorem WordsAt.pushWord {ws : List Word} (hlen : ws.length < 2 ^ 32)
    (h : WordsAt m.mem (m.regs rsp) ws) (v : Word) :
    WordsAt (m.pushWord v).mem ((m.pushWord v).regs rsp) (v :: ws) := by
  have hsp : (m.pushWord v).regs rsp = m.regs rsp - 8 := by simp [Machine.pushWord, Machine.set]
  rw [hsp]
  refine ⟨readWord_writeWord _ _ _, ?_⟩
  rw [BitVec.sub_add_cancel]
  exact h.congr hlen fun b hb => writeWord_of_le (by bv_omega)

theorem pushWord_regs {r : Reg} (hr : r ≠ rsp) (v : Word) : (m.pushWord v).regs r = m.regs r :=
  Function.update_of_ne hr ..

/-- Pushing registers, the last one of them on top. -/
theorem WordsAt.pushRegs {rs : List Reg} (hrs : rsp ∉ rs) {ws : List Word}
    (hlen : rs.length + ws.length < 2 ^ 32) (h : WordsAt m.mem (m.regs rsp) ws) :
    WordsAt (rs.foldl Machine.pushReg m).mem ((rs.foldl Machine.pushReg m).regs rsp)
      (rs.reverse.map m.regs ++ ws) := by
  induction rs generalizing m ws with
  | nil => exact h
  | cons r rs ih =>
    obtain ⟨hr, hrs⟩ := not_or.mp (mt List.mem_cons.mpr hrs)
    rw [List.length_cons] at hlen
    have hpushed := ih (m := m.pushReg r) hrs (by rw [List.length_cons]; omega)
      (h.pushWord (by omega) (m.regs r))
    have hregs : rs.reverse.map (m.pushReg r).regs = rs.reverse.map m.regs :=
      List.map_congr_left fun r' hr' => pushWord_regs
        (fun h => hrs (h ▸ List.mem_reverse.mp hr')) _
    rw [hregs] at hpushed
    rwa [List.foldl_cons, List.reverse_cons, List.map_append, List.map_singleton, List.append_assoc]

theorem enter_frameIntact : FrameIntact afterCall m₀ (enter afterCall execBuf m₀) := by
  have hreturn : WordsAt m₀.mem (m₀.regs rsp) [readWord m₀.mem (m₀.regs rsp)] := ⟨rfl, trivial⟩
  have hsaved : WordsAt (calleeSaved.foldl Machine.pushReg m₀).mem
      ((calleeSaved.foldl Machine.pushReg m₀).regs rsp)
      (calleeSaved.reverse.map m₀.regs ++ [readWord m₀.mem (m₀.regs rsp)]) :=
    hreturn.pushRegs (by decide) (by simp [calleeSaved])
  rw [FrameIntact, ← enter_rsp afterCall execBuf]
  exact hsaved.pushWord (by simp [calleeSaved]) afterCall

/-- A step that spares the frame leaves it as it is. -/
theorem Step.frameIntact (hstep : Step fetch os m m') (hspares : SparesFrame m₀ fetch os m)
    (h : FrameIntact afterCall m₀ m) : FrameIntact afterCall m₀ m' := by
  obtain ⟨i, next, hfetch, -, rfl⟩ := hstep
  obtain ⟨hwrites, hos⟩ := hspares i next hfetch
  refine WordsAt.congr (by simp [frame, calleeSaved]) (fun b hb => ?_) h
  replace hb : (b - frameBase m₀).toNat < 64 := hb
  have hwrite : ∀ a v, writesAt m i = some a → writeWord m.mem a v b = m.mem b := by
    intro a v ha
    refine writeWord_of_le (Nat.le_of_not_lt fun hlt => ?_)
    have := hwrites a ha b hlt
    omega
  cases i with
  | store base disp src => exact hwrite _ _ rfl
  | push r => exact hwrite _ _ rfl
  | int80 => exact hos rfl b hb
  | aluReg op dst src => cases op <;> rfl
  | aluImm op dst imm => cases op <;> rfl
  | _ => rfl

theorem frameIntact_of_run
    (hrun : Relation.ReflTransGen (fun m m' => SparesFrame m₀ fetch os m ∧ Step fetch os m m')
      (enter afterCall execBuf m₀) m) : FrameIntact afterCall m₀ m := by
  induction hrun with
  | refl => exact enter_frameIntact
  | tail _ hstep ih => exact hstep.2.frameIntact hstep.1 ih

/-- The exit syscall unwinds exactly if the stack pointer is back where it was when the program was
    entered, and what lies above it is still there, as it is if the program has not written
    there. -/
theorem sysExit_unwinds_iff (fetch : Machine → Option (Instr Word × Word))
    (os : Machine → Word × Memory) (afterCall execBuf : Word) (m₀ m : Machine) :
    (Unwinds afterCall m₀ m ↔
      m.regs rsp = (enter afterCall execBuf m₀).regs rsp ∧ FrameIntact afterCall m₀ m) ∧
    (Relation.ReflTransGen (fun m m' => SparesFrame m₀ fetch os m ∧ Step fetch os m m')
        (enter afterCall execBuf m₀) m →
      (Unwinds afterCall m₀ m ↔ m.regs rsp = (enter afterCall execBuf m₀).regs rsp)) := by
  rw [enter_rsp]
  refine ⟨unwinds_iff, fun hrun => ?_⟩
  rw [unwinds_iff, and_iff_left (frameIntact_of_run hrun)]

section Runs

/-- `mov rdi, 7`, `mov rax, 0` and `int80`, with the addresses they have in the buffer. -/
def exitProgram : List (Word × Instr Word × Word) :=
  [(0x1000, .movImm rdi 7, 0x100A), (0x100A, .movImm rax 0, 0x1014), (0x1014, .int80, 0x1016)]

/-- The same behind `push rax`. -/
def pushExitProgram : List (Word × Instr Word × Word) :=
  [(0x1000, .push rax, 0x1001), (0x1001, .movImm rdi 7, 0x100B), (0x100B, .movImm rax 0, 0x1015),
    (0x1015, .int80, 0x1017)]

def fetchFrom (program : List (Word × Instr Word × Word)) (m : Machine) :
    Option (Instr Word × Word) := program.lookup m.rip

/-- `asm_run` calls the trampoline. -/
def caller : Machine where
  regs r := if r = rsp then 0x9000 else if r = rdi then 0x1000 else 0
  rip := 0
  flags := ⟨false, false, false⟩
  mem _ := 0
  lastExitCode := 0

def noKernel (m : Machine) : Word × Memory := (0, m.mem)

/-- The state behind the instructions of a list. -/
def runInstrs (m : Machine) (is : List (Instr Word × Word)) : Machine :=
  is.foldl (fun m i => m.exec (noKernel m) i.2 i.1) m

theorem sysExit_unwinds_exitProgram :
    Unwinds 0x500 caller (runInstrs (enter 0x500 0x1000 caller)
      [(.movImm rdi 7, 0x100A), (.movImm rax 0, 0x1014)]) :=
  (sysExit_unwinds_iff (fetchFrom exitProgram) noKernel 0x500 0x1000 caller _).1.mpr
    ⟨by decide, by decide⟩

/-- The pushed word is taken for the way back. -/
theorem pushExitProgram_lost :
    ¬ ∀ (fetch : Machine → Option (Instr Word × Word)) (os : Machine → Word × Memory)
      (afterCall execBuf : Word) (m₀ m : Machine),
      Relation.ReflTransGen (Step fetch os) (enter afterCall execBuf m₀) m → Exits fetch m →
        Unwinds afterCall m₀ m := by
  intro h
  have hpush : Step (fetchFrom pushExitProgram) noKernel (enter 0x500 0x1000 caller)
      (runInstrs (enter 0x500 0x1000 caller) [(.push rax, 0x1001)]) :=
    ⟨.push rax, 0x1001, rfl, fun hi => (nomatch hi.1), rfl⟩
  have hrdi : Step (fetchFrom pushExitProgram) noKernel
      (runInstrs (enter 0x500 0x1000 caller) [(.push rax, 0x1001)])
      (runInstrs (enter 0x500 0x1000 caller) [(.push rax, 0x1001), (.movImm rdi 7, 0x100B)]) :=
    ⟨.movImm rdi 7, 0x100B, rfl, fun hi => (nomatch hi.1), rfl⟩
  have hrax : Step (fetchFrom pushExitProgram) noKernel
      (runInstrs (enter 0x500 0x1000 caller) [(.push rax, 0x1001), (.movImm rdi 7, 0x100B)])
      (runInstrs (enter 0x500 0x1000 caller)
        [(.push rax, 0x1001), (.movImm rdi 7, 0x100B), (.movImm rax 0, 0x1015)]) :=
    ⟨.movImm rax 0, 0x1015, rfl, fun hi => (nomatch hi.1), rfl⟩
  have hrun := ((Relation.ReflTransGen.single hpush).tail hrdi).tail hrax
  have hlost := (h _ _ _ _ _ _ hrun ⟨0x1017, rfl, rfl⟩).trampoline
  exact absurd hlost (by decide)

end Runs

end AuroraOS.Asm
