import AuroraOS.Asm.Encode
import AuroraOS.Lib.Ascii
import Mathlib.Data.List.DropRight
import Mathlib.Data.List.FinRange

/-!
# Reading a line of assembly

The tokenizer and the operand parsers of `asm.c`. A string is the list of the characters in front of
its terminator.

## Main definitions

- `tokenizeLine` — the operation and the operands of a line
- `readInstr` — the instruction that the tokens of a line are dispatched to
- `readTokens` — what the tokens of a line stand for

## Main results

- `tokenizeLine_arg1_le` — a first operand fits into its field
-/

namespace AuroraOS.Asm

open Lib

/-- The length of a line buffer, `MAX_LINE_LEN`. -/
def maxLineLen : ℕ := 96

section Operands

/-- The value of a hexadecimal digit. -/
def hexDigit (c : UInt8) : Option ℕ :=
  if ascii '0' ≤ c ∧ c ≤ ascii '9' then some (c.toNat - (ascii '0').toNat)
  else if ascii 'a' ≤ c ∧ c ≤ ascii 'f' then some (c.toNat - (ascii 'a').toNat + 10)
  else if ascii 'A' ≤ c ∧ c ≤ ascii 'F' then some (c.toNat - (ascii 'A').toNat + 10)
  else none

/-- The value of a decimal digit. -/
def decDigit (c : UInt8) : Option ℕ :=
  if ascii '0' ≤ c ∧ c ≤ ascii '9' then some (c.toNat - (ascii '0').toNat) else none

/-- The loops of `local_parse_int`, which stop at the first character that is no digit. -/
def parseDigits (digit : UInt8 → Option ℕ) (radix : ℕ) (val : BitVec 32) : List UInt8 → BitVec 32
  | [] => val
  | c :: s =>
    match digit c with
    | none => val
    | some d => parseDigits digit radix (val * BitVec.ofNat 32 radix + BitVec.ofNat 32 d) s

/-- The number behind the sign. -/
def parseUnsigned (s : List UInt8) : BitVec 32 :=
  if s.take 2 = chars "0x" ∨ s.take 2 = chars "0X" then parseDigits hexDigit 16 0 (s.drop 2)
  else parseDigits decDigit 10 0 s

/-- `local_parse_int`, in wrapping arithmetic. -/
def localParseInt (s : List UInt8) : BitVec 32 :=
  if s.head? = some (ascii '-') then -parseUnsigned s.tail else parseUnsigned s

/-- A blank or a tab. -/
def isBlank (c : UInt8) : Bool := c == ascii ' ' || c == ascii '\t'

/-- `trim`. -/
def trim (s : List UInt8) : List UInt8 :=
  (s.dropWhile isBlank).rdropWhile fun c => isBlank c || c == ascii '\r' || c == ascii '\n'

/-- `names` of `reg_number`. -/
def regNames : List (List UInt8) :=
  [chars "rax", chars "rcx", chars "rdx", chars "rbx", chars "rsp", chars "rbp", chars "rsi",
    chars "rdi", chars "r8", chars "r9", chars "r10", chars "r11", chars "r12", chars "r13",
    chars "r14", chars "r15"]

/-- `reg_number`. -/
def regNumber (name : List UInt8) : Option Reg :=
  (List.finRange 16).find? fun r => regNames.getD r.val [] = name

/-- `parse_mem_operand`, with a buffer `inner` of 32 bytes. -/
def parseMemOperand (arg : List UInt8) : Option (Reg × BitVec 32) :=
  if arg.head? ≠ some (ascii '[') then none
  else if arg.length < 3 ∨ arg.getLast? ≠ some (ascii ']') then none
  else if 32 ≤ arg.length - 2 then none
  else
    let inner := arg.tail.take (arg.length - 2)
    let reg := inner.takeWhile (· ≠ ascii '+')
    match inner.dropWhile (· ≠ ascii '+') with
    | [] => (regNumber reg).map (·, 0)
    | _ :: disp => (regNumber reg).map (·, localParseInt disp)

end Operands

section Tokens

/-- `struct line_tokens`. -/
structure LineTokens where
  op : List UInt8
  arg1 : List UInt8
  arg2 : List UInt8
  argCount : ℕ
  deriving DecidableEq

/-- What `tokenize_line` finds: nothing, tokens, or a label that leaves `arg1`. -/
inductive Tokenized
  | blank
  | tokens (t : LineTokens)
  | overrun
  deriving DecidableEq

/-- The operands behind the operation. -/
def tokenizeArgs (op rest : List UInt8) : LineTokens :=
  let rest := trim rest
  if rest = [] then ⟨op, [], [], 0⟩
  else
    match rest.dropWhile (· ≠ ascii ',') with
    | [] => ⟨op, trim (rest.take 31), [], 1⟩
    | _ :: arg2 =>
      ⟨op, trim ((rest.takeWhile (· ≠ ascii ',')).take 31), (trim arg2).take 31, 2⟩

/-- `tokenize_line`. -/
def tokenizeLine (line : List UInt8) : Tokenized :=
  let buf := trim ((line.take (maxLineLen - 1)).takeWhile fun c => c ≠ ascii ';' ∧ c ≠ ascii '#')
  if buf = [] then .blank
  else if buf.getLast? = some (ascii ':') then
    -- `strcpy` into `arg1[32]`
    if buf.dropLast.length < 32 then .tokens ⟨chars ":", buf.dropLast, [], 1⟩ else .overrun
  else
    let start := buf.dropWhile (· = ascii ' ')
    if start = [] then .blank
    else
      .tokens (tokenizeArgs ((start.takeWhile (· ≠ ascii ' ')).take 15)
        (start.dropWhile (· ≠ ascii ' ')).tail)

theorem length_trim_le (s : List UInt8) : (trim s).length ≤ s.length :=
  (List.rdropWhile_prefix _ _).length_le.trans (List.length_dropWhile_le _ _)

/-- A first operand fits into its field. -/
theorem tokenizeLine_arg1_le {line : List UInt8} {t : LineTokens}
    (h : tokenizeLine line = .tokens t) : t.arg1.length ≤ 31 := by
  have hargs : ∀ op rest : List UInt8, (tokenizeArgs op rest).arg1.length ≤ 31 := by
    intro op rest
    rw [tokenizeArgs]
    split
    · exact Nat.zero_le _
    · split
      · exact (length_trim_le _).trans (List.length_take_le _ _)
      · exact (length_trim_le _).trans (List.length_take_le _ _)
  rw [tokenizeLine] at h
  split at h
  · exact absurd h (by simp)
  · split at h
    · split at h
      · next hlen =>
        obtain rfl := Tokenized.tokens.inj h
        exact Nat.le_of_lt_succ hlen
      · exact absurd h (by simp)
    · simp only at h
      split at h
      · exact absurd h (by simp)
      · obtain rfl := Tokenized.tokens.inj h
        exact hargs _ _

end Tokens

section Instructions

/-- The messages of `asm_assemble`. -/
inductive AsmError
  | duplicateLabel
  | tooManyLabels
  | jumpNeedsLabel
  | movNeedsTwo
  | movMemSource
  | movMemDestination
  | unknownDestination
  | expectedTwo
  | unknownRegister
  | unknownInstruction
  | undefinedLabel
  | jumpTooFar
  | programTooLarge
  deriving DecidableEq

def AsmError.text : AsmError → String
  | .duplicateLabel => "duplicate label"
  | .tooManyLabels => "too many labels"
  | .jumpNeedsLabel => "jump needs one label argument"
  | .movNeedsTwo => "mov needs two arguments"
  | .movMemSource => "mov [mem], X needs a register source"
  | .movMemDestination => "mov X, [mem] needs a register destination"
  | .unknownDestination => "unknown destination register"
  | .expectedTwo => "expected two arguments"
  | .unknownRegister => "unknown register"
  | .unknownInstruction => "unknown instruction"
  | .undefinedLabel => "undefined label"
  | .jumpTooFar => "jump target too far (short jumps only, max +-127 bytes)"
  | .programTooLarge => "program too large"

/-- The text tells which error it was. -/
theorem AsmError.text_injective : Function.Injective AsmError.text := by
  intro e e' h
  cases e <;> cases e' <;> first | rfl | exact absurd h (by decide)

/-- `jump_opcode_for`. -/
def jumpOpcodeFor (mnemonic : List UInt8) : Option Cond :=
  if mnemonic = chars "jmp" then some .always
  else if mnemonic = chars "je" then some .e
  else if mnemonic = chars "jne" then some .ne
  else if mnemonic = chars "jl" then some .l
  else if mnemonic = chars "jge" then some .ge
  else if mnemonic = chars "jg" then some .g
  else if mnemonic = chars "jle" then some .le
  else none

/-- The branch of `asm_assemble` for `mov`. -/
def readMov (t : LineTokens) : Except AsmError (Instr (List UInt8)) :=
  if t.argCount ≠ 2 then .error .movNeedsTwo
  else
    match parseMemOperand t.arg1 with
    | some (base, disp) =>
      match regNumber t.arg2 with
      | none => .error .movMemSource
      | some src => .ok (.store base disp src)
    | none =>
      match parseMemOperand t.arg2 with
      | some (base, disp) =>
        match regNumber t.arg1 with
        | none => .error .movMemDestination
        | some dst => .ok (.load dst base disp)
      | none =>
        match regNumber t.arg1 with
        | none => .error .unknownDestination
        | some dst =>
          match regNumber t.arg2 with
          | some src => .ok (.movReg dst src)
          | none => .ok (.movImm dst ((localParseInt t.arg2).signExtend 64))

/-- The branch for `add`, `sub` and `cmp`. -/
def readAlu (op : AluOp) (t : LineTokens) : Except AsmError (Instr (List UInt8)) :=
  if t.argCount ≠ 2 then .error .expectedTwo
  else
    match regNumber t.arg1 with
    | none => .error .unknownDestination
    | some dst =>
      match regNumber t.arg2 with
      | some src => .ok (.aluReg op dst src)
      | none => .ok (.aluImm op dst (localParseInt t.arg2))

/-- The branches for `push` and `pop`. -/
def readPushPop (instr : Reg → Instr (List UInt8)) (t : LineTokens) :
    Except AsmError (Instr (List UInt8)) :=
  match regNumber t.arg1 with
  | none => .error .unknownRegister
  | some reg => .ok (instr reg)

/-- The instruction that the tokens of a line are dispatched to. -/
def readInstr (t : LineTokens) : Except AsmError (Instr (List UInt8)) :=
  match jumpOpcodeFor t.op with
  | some c => if t.argCount ≠ 1 then .error .jumpNeedsLabel else .ok (.jump c t.arg1)
  | none =>
    if t.op = chars "mov" then readMov t
    else if t.op = chars "add" then readAlu .add t
    else if t.op = chars "sub" then readAlu .sub t
    else if t.op = chars "cmp" then readAlu .cmp t
    else if t.op = chars "push" then readPushPop .push t
    else if t.op = chars "pop" then readPushPop .pop t
    else if t.op = chars "int80" ∨ t.op = chars "syscall" then .ok .int80
    else if t.op = chars "ret" then .ok .ret
    else .error .unknownInstruction

/-- A line of a program. -/
abbrev AsmItem := TwoPass.Item (List UInt8) (Instr (List UInt8))

/-- What the tokens of a line stand for. -/
def readTokens (t : LineTokens) : Except AsmError AsmItem :=
  if t.op = chars ":" then .ok (.label t.arg1) else (readInstr t).map .code

/-- A jump refers to the first operand. -/
theorem readInstr_jump {t : LineTokens} {c : Cond} {name : List UInt8}
    (h : readInstr t = .ok (.jump c name)) : name = t.arg1 := by
  rw [readInstr] at h
  split at h
  · split at h
    · exact absurd h (by simp)
    · simp only [Except.ok.injEq, Instr.jump.injEq] at h
      exact h.2.symm
  · have hpushPop : ∀ instr : Reg → Instr (List UInt8), (∀ r, instr r ≠ .jump c name) →
        readPushPop instr t ≠ .ok (.jump c name) := by
      intro instr hinstr
      rw [readPushPop]
      split
      · simp
      · simpa using hinstr _
    have halu : ∀ op, readAlu op t ≠ .ok (.jump c name) := by
      intro op
      rw [readAlu]
      split
      · simp
      · split
        · simp
        · split <;> simp
    have hmov : readMov t ≠ .ok (.jump c name) := by
      rw [readMov]
      split
      · simp
      · split
        · split <;> simp
        · split
          · split <;> simp
          · split
            · simp
            · split <;> simp
    split at h
    · exact absurd h hmov
    · split at h
      · exact absurd h (halu _)
      · split at h
        · exact absurd h (halu _)
        · split at h
          · exact absurd h (halu _)
          · split at h
            · exact absurd h (hpushPop _ (by simp))
            · split at h
              · exact absurd h (hpushPop _ (by simp))
              · split at h
                · exact absurd h (by simp)
                · split at h <;> exact absurd h (by simp)

end Instructions

end AuroraOS.Asm
