import AuroraOS.Asm.Machine
import AuroraOS.Lib.TwoPass

/-!
# Encoding instructions

The encoders of `asm.c`, and a decoder for the forms that they produce, read off the layout of
x86-64 instructions: a REX prefix, an opcode, a ModRM byte, a SIB byte, and a displacement or an
immediate.

## Main definitions

- `encode` — the bytes of an instruction, with a placeholder for the displacement of a jump
- `decode` — the first instruction of a text, with what follows it
- `format` — the encoding as one of an assembler with two passes

## Main results

- `decode_final` — decoding undoes encoding
-/

namespace AuroraOS.Asm

open Lib

/-- The same instruction with other targets. -/
def Instr.map {τ σ : Type} (f : τ → σ) : Instr τ → Instr σ
  | .movImm dst imm => .movImm dst imm
  | .movReg dst src => .movReg dst src
  | .load dst base disp => .load dst base disp
  | .store base disp src => .store base disp src
  | .aluReg op dst src => .aluReg op dst src
  | .aluImm op dst imm => .aluImm op dst imm
  | .push reg => .push reg
  | .pop reg => .pop reg
  | .jump cond target => .jump cond (f target)
  | .int80 => .int80
  | .ret => .ret

/-- The target of a jump. -/
def Instr.target? {τ : Type} : Instr τ → Option τ
  | .jump _ target => some target
  | _ => none

section Encoders

/-- `(uint8_t)((v >> (i * 8)) & 0xFF)`. -/
def byteAt {w : ℕ} (v : BitVec w) (i : ℕ) : UInt8 := ⟨v.extractLsb' (8 * i) 8⟩

/-- `emit_imm32`. -/
def emitImm32 (v : BitVec 32) : List UInt8 := [byteAt v 0, byteAt v 1, byteAt v 2, byteAt v 3]

/-- `emit_imm64`. -/
def emitImm64 (v : Word) : List UInt8 := (List.range 8).map (byteAt v)

/-- `reg & 7`. -/
def Reg.low (r : Reg) : UInt8 := UInt8.ofNat r.val &&& 7

/-- `reg >= 8 ? bit : 0x00`. -/
def Reg.high (r : Reg) (bit : UInt8) : UInt8 := if 8 ≤ r.val then bit else 0x00

/-- `(uint8_t)(mod | (reg << 3) | rm)`. -/
def modRM (mod reg rm : UInt8) : UInt8 := mod ||| reg <<< (3 : UInt8) ||| rm

/-- `enc_mov_reg_imm64`. -/
def encMovRegImm64 (dst : Reg) (imm : Word) : List UInt8 :=
  (0x48 ||| dst.high 0x01) :: (0xB8 + dst.low) :: emitImm64 imm

/-- `enc_mov_reg_reg`. -/
def encMovRegReg (dst src : Reg) : List UInt8 :=
  [0x48 ||| src.high 0x04 ||| dst.high 0x01, 0x89, modRM 0xC0 src.low dst.low]

/-- `enc_alu_reg_reg`. -/
def encAluRegReg (opcode : UInt8) (dst src : Reg) : List UInt8 :=
  [0x48 ||| src.high 0x04 ||| dst.high 0x01, opcode, modRM 0xC0 src.low dst.low]

/-- `enc_alu_reg_imm32`. -/
def encAluRegImm32 (ext : UInt8) (dst : Reg) (imm : BitVec 32) : List UInt8 :=
  (0x48 ||| dst.high 0x01) :: 0x81 :: modRM 0xC0 ext dst.low :: emitImm32 imm

/-- `enc_push_pop`. -/
def encPushPop (baseOpcode : UInt8) (reg : Reg) : List UInt8 :=
  (if 8 ≤ reg.val then [0x41] else []) ++ [baseOpcode + reg.low]

/-- `enc_mov_mem`. -/
def encMovMem (load : Bool) (regOperand memReg : Reg) (disp : BitVec 32) : List UInt8 :=
  (0x48 ||| regOperand.high 0x04 ||| memReg.high 0x01) :: (if load then 0x8B else 0x89) ::
    modRM 0x80 regOperand.low memReg.low ::
    ((if memReg.low = 4 then [0x24] else []) ++ emitImm32 disp)

/-- The opcodes of `add`, `sub` and `cmp` for two registers. -/
def AluOp.opcode : AluOp → UInt8
  | .add => 0x01
  | .sub => 0x29
  | .cmp => 0x39

/-- What selects `add`, `sub` and `cmp` for an immediate. -/
def AluOp.ext : AluOp → UInt8
  | .add => 0
  | .sub => 5
  | .cmp => 7

/-- The opcodes in the table of `jump_opcode_for`. -/
def Cond.opcode : Cond → UInt8
  | .always => 0xEB
  | .e => 0x74
  | .ne => 0x75
  | .l => 0x7C
  | .ge => 0x7D
  | .g => 0x7F
  | .le => 0x7E

/-- What `asm_assemble` emits for an instruction; the displacement of a jump is a placeholder. -/
def encode {τ : Type} : Instr τ → List UInt8
  | .movImm dst imm => encMovRegImm64 dst imm
  | .movReg dst src => encMovRegReg dst src
  | .load dst base disp => encMovMem true dst base disp
  | .store base disp src => encMovMem false src base disp
  | .aluReg op dst src => encAluRegReg op.opcode dst src
  | .aluImm op dst imm => encAluRegImm32 op.ext dst imm
  | .push reg => encPushPop 0x50 reg
  | .pop reg => encPushPop 0x58 reg
  | .jump cond _ => [cond.opcode, 0x00]
  | .int80 => [0xCD, 0x80]
  | .ret => [0xC3]

/-- The encoding of instructions whose targets are names. -/
def format {τ : Type} : TwoPass.Format τ (Instr τ) UInt8 where
  bytes := encode
  ref := Instr.target?
  bytes_ne_nil := by
    intro i h
    cases i with
    | jump cond target => exact List.cons_ne_nil _ _
    | _ => exact absurd h (by simp [Instr.target?])

end Encoders

section Decoder

/-- The bits of a REX prefix. -/
structure Rex where
  w : Bool
  r : Bool
  x : Bool
  b : Bool

def Rex.ofByte (b : UInt8) : Rex := ⟨b &&& 8 != 0, b &&& 4 != 0, b &&& 2 != 0, b &&& 1 != 0⟩

def Rex.none : Rex := ⟨false, false, false, false⟩

/-- The register whose number has the bit `high` in front of the three lowest bits of `low`. -/
def regOf (high : Bool) (low : UInt8) : Reg :=
  ⟨(if high then 8 else 0) + low.toNat % 8, by split <;> omega⟩

/-- What a ModRM byte, with the bytes behind it, names beside a register. -/
inductive Operand
  | reg (r : Reg)
  | mem (base : Reg) (disp : BitVec 32)

def readImm32 : List UInt8 → Option (BitVec 32 × List UInt8)
  | a :: b :: c :: d :: rest =>
    some (d.toBitVec ++ c.toBitVec ++ b.toBitVec ++ a.toBitVec, rest)
  | _ => none

def readImm64 (text : List UInt8) : Option (Word × List UInt8) := do
  let low ← readImm32 text
  let high ← readImm32 low.2
  some (high.1 ++ low.1, high.2)

/-- The base register of an operand in memory: that of a SIB byte without an index if the ModRM byte
    calls for one. -/
def readBase (rex : Rex) (modRM : UInt8) (text : List UInt8) : Option (Reg × List UInt8) :=
  if modRM &&& 7 = 4 then
    match text with
    | [] => none
    | sib :: text =>
      if (sib >>> 3) &&& 7 = 4 ∧ rex.x = false then some (regOf rex.b sib, text) else none
  else some (regOf rex.b modRM, text)

/-- The operand of a ModRM byte. Of the forms in memory there is the one with a 32-bit
    displacement. -/
def readOperand (rex : Rex) (modRM : UInt8) (text : List UInt8) : Option (Operand × List UInt8) :=
  if modRM >>> 6 = 3 then some (.reg (regOf rex.b modRM), text)
  else if modRM >>> 6 = 2 then do
    let base ← readBase rex modRM text
    let disp ← readImm32 base.2
    some (.mem base.1 disp.1, disp.2)
  else none

def AluOp.ofOpcode (opcode : UInt8) : Option AluOp :=
  [AluOp.add, .sub, .cmp].find? fun op => op.opcode = opcode

def AluOp.ofExt (ext : UInt8) : Option AluOp := [AluOp.add, .sub, .cmp].find? fun op => op.ext = ext

def Cond.ofOpcode (opcode : UInt8) : Option Cond :=
  [Cond.always, .e, .ne, .l, .ge, .g, .le].find? fun c => c.opcode = opcode

/-- An instruction with a ModRM byte: its opcode, the byte, and what follows. -/
def decodeModRM (rex : Rex) (opcode modRM : UInt8) (text : List UInt8) :
    Option (Instr UInt8 × List UInt8) := do
  let operand ← readOperand rex modRM text
  let r := regOf rex.r (modRM >>> 3)
  match operand.1 with
  | .reg rm =>
    if opcode = 0x89 then some (.movReg rm r, operand.2)
    else if opcode = 0x81 then do
      let op ← AluOp.ofExt ((modRM >>> 3) &&& 7)
      let imm ← readImm32 operand.2
      some (.aluImm op rm imm.1, imm.2)
    else (AluOp.ofOpcode opcode).map fun op => (.aluReg op rm r, operand.2)
  | .mem base disp =>
    if opcode = 0x89 then some (.store base disp r, operand.2)
    else if opcode = 0x8B then some (.load r base disp, operand.2)
    else none

/-- An instruction behind its prefix. -/
def decodeOpcode (rex : Rex) : List UInt8 → Option (Instr UInt8 × List UInt8)
  | [] => none
  | opcode :: text =>
    if opcode &&& 0xF8 = 0x50 then some (.push (regOf rex.b opcode), text)
    else if opcode &&& 0xF8 = 0x58 then some (.pop (regOf rex.b opcode), text)
    else if opcode &&& 0xF8 = 0xB8 then
      if rex.w then (readImm64 text).map fun v => (.movImm (regOf rex.b opcode) v.1, v.2) else none
    else if opcode = 0xC3 then some (.ret, text)
    else
      match text with
      | [] => none
      | second :: rest =>
        if opcode = 0xCD then if second = 0x80 then some (.int80, rest) else none
        else
          match Cond.ofOpcode opcode with
          | some c => some (.jump c second, rest)
          | none => if rex.w then decodeModRM rex opcode second rest else none

/-- The first instruction of a text. -/
def decode : List UInt8 → Option (Instr UInt8 × List UInt8)
  | [] => none
  | b :: text =>
    if b &&& 0xF0 = 0x40 then decodeOpcode (Rex.ofByte b) text else decodeOpcode .none (b :: text)

end Decoder

section RoundTrip

theorem readImm32_emitImm32 (v : BitVec 32) (rest : List UInt8) :
    readImm32 (emitImm32 v ++ rest) = some (v, rest) := by
  have join : ∀ {s t w : ℕ}, t = s + 8 →
      v.extractLsb' t w ++ v.extractLsb' s 8 = v.extractLsb' s (w + 8) :=
    fun h => BitVec.extractLsb'_append_extractLsb'_eq_extractLsb' h
  have hv : (v.extractLsb' 24 8 ++ v.extractLsb' 16 8 ++ v.extractLsb' 8 8 ++ v.extractLsb' 0 8 :
      BitVec 32) = v := by
    rw [join (show 24 = 16 + 8 from rfl), join (show 16 = 8 + 8 from rfl),
      join (show 8 = 0 + 8 from rfl)]
    exact BitVec.extractLsb'_eq_self
  exact congrArg (fun w => some (w, rest)) hv

theorem emitImm64_eq (v : Word) :
    emitImm64 v = emitImm32 (v.extractLsb' 0 32) ++ emitImm32 (v.extractLsb' 32 32) := by
  have hbyte : ∀ s i : ℕ, i < 4 → byteAt (v.extractLsb' (8 * s) 32) i = byteAt v (s + i) := by
    intro s i hi
    refine congrArg UInt8.ofBitVec ?_
    ext j hj
    have hlt : 8 * i + j < 32 := by omega
    rw [BitVec.getElem_extractLsb', BitVec.getLsbD_extractLsb', BitVec.getElem_extractLsb',
      decide_eq_true hlt, Bool.true_and, Nat.mul_add, Nat.add_assoc]
  have h := hbyte 0
  have h' := hbyte 4
  rw [emitImm32, emitImm32, h 0 (by decide), h 1 (by decide), h 2 (by decide), h 3 (by decide),
    h' 0 (by decide), h' 1 (by decide), h' 2 (by decide), h' 3 (by decide)]
  rfl

theorem readImm64_emitImm64 (v : Word) (rest : List UInt8) :
    readImm64 (emitImm64 v ++ rest) = some (v, rest) := by
  have hv : (v.extractLsb' 32 32 ++ v.extractLsb' 0 32 : Word) = v :=
    (BitVec.extractLsb'_append_extractLsb'_eq_extractLsb' (show 32 = 0 + 32 from rfl)).trans
      BitVec.extractLsb'_eq_self
  rw [readImm64, emitImm64_eq, List.append_assoc, readImm32_emitImm32, Option.bind_eq_bind,
    Option.bind_some, readImm32_emitImm32, Option.bind_some, hv]

/-- A register from its high bit and its low bits. -/
theorem regOf_eq {r : Reg} {low : UInt8} (h : low.toNat % 8 = r.val % 8) :
    regOf (decide (8 ≤ r.val)) low = r := by
  have hr := r.isLt
  refine Fin.ext ?_
  change (if decide (8 ≤ r.val) then 8 else 0) + low.toNat % 8 = r.val
  rw [h]
  by_cases h8 : 8 ≤ r.val
  · rw [if_pos (decide_eq_true h8)]
    omega
  · rw [if_neg (by simpa using h8)]
    omega

theorem rex_single (dst : Reg) :
    (0x48 ||| dst.high 0x01) &&& 0xF0 = 0x40 ∧
      Rex.ofByte (0x48 ||| dst.high 0x01) = ⟨true, false, false, decide (8 ≤ dst.val)⟩ := by
  rw [Reg.high]
  by_cases h : 8 ≤ dst.val
  · rw [if_pos h, decide_eq_true h]
    exact ⟨rfl, rfl⟩
  · rw [if_neg h, decide_eq_false h]
    exact ⟨rfl, rfl⟩

theorem rex_pair (r b : Reg) :
    (0x48 ||| r.high 0x04 ||| b.high 0x01) &&& 0xF0 = 0x40 ∧
      Rex.ofByte (0x48 ||| r.high 0x04 ||| b.high 0x01) =
        ⟨true, decide (8 ≤ r.val), false, decide (8 ≤ b.val)⟩ := by
  rw [Reg.high, Reg.high]
  by_cases h : 8 ≤ r.val <;> by_cases h' : 8 ≤ b.val
  · rw [if_pos h, if_pos h', decide_eq_true h, decide_eq_true h']
    exact ⟨rfl, rfl⟩
  · rw [if_pos h, if_neg h', decide_eq_true h, decide_eq_false h']
    exact ⟨rfl, rfl⟩
  · rw [if_neg h, if_pos h', decide_eq_false h, decide_eq_true h']
    exact ⟨rfl, rfl⟩
  · rw [if_neg h, if_neg h', decide_eq_false h, decide_eq_false h']
    exact ⟨rfl, rfl⟩

/-- The low bits of a register are one of eight bytes. -/
theorem low_eq (r : Reg) : ∃ a : Fin 8, r.low = UInt8.ofNat a.val ∧ a.val = r.val % 8 := by
  refine ⟨⟨r.val % 8, Nat.mod_lt _ (by decide)⟩, ?_, rfl⟩
  revert r
  decide

theorem toNat_low (r : Reg) : r.low.toNat = r.val % 8 := by
  revert r
  decide

theorem modRM_fields (a b : Fin 8) :
    modRM 0xC0 (UInt8.ofNat a.val) (UInt8.ofNat b.val) >>> 6 = 3 ∧
    modRM 0x80 (UInt8.ofNat a.val) (UInt8.ofNat b.val) >>> 6 = 2 ∧
    ∀ mod ∈ [(0xC0 : UInt8), 0x80],
      (modRM mod (UInt8.ofNat a.val) (UInt8.ofNat b.val) >>> 3) &&& 7 = UInt8.ofNat a.val ∧
      (modRM mod (UInt8.ofNat a.val) (UInt8.ofNat b.val) >>> 3).toNat % 8 = a.val ∧
      modRM mod (UInt8.ofNat a.val) (UInt8.ofNat b.val) &&& 7 = UInt8.ofNat b.val ∧
      (modRM mod (UInt8.ofNat a.val) (UInt8.ofNat b.val)).toNat % 8 = b.val := by
  refine ⟨by revert a b; decide, by revert a b; decide, ?_⟩
  intro mod hmod
  simp only [List.mem_cons, List.not_mem_nil, or_false] at hmod
  obtain rfl | rfl := hmod
  · revert a b
    decide
  · revert a b
    decide

theorem readOperand_reg (rex : Rex) (r rm : Reg) (hb : rex.b = decide (8 ≤ rm.val))
    (text : List UInt8) :
    readOperand rex (modRM 0xC0 r.low rm.low) text = some (.reg rm, text) := by
  obtain ⟨a, ha, -⟩ := low_eq r
  obtain ⟨b, hb', hval⟩ := low_eq rm
  obtain ⟨hmod, -, hfields⟩ := modRM_fields a b
  obtain ⟨-, -, -, hlow⟩ := hfields 0xC0 (by decide)
  rw [ha, hb', readOperand, if_pos hmod, hb, regOf_eq (hlow.trans hval)]

theorem readOperand_mem (rex : Rex) (r base : Reg) (disp : BitVec 32) (hx : rex.x = false)
    (hb : rex.b = decide (8 ≤ base.val)) (text : List UInt8) :
    readOperand rex (modRM 0x80 r.low base.low)
        ((if base.low = 4 then [0x24] else []) ++ (emitImm32 disp ++ text)) =
      some (.mem base disp, text) := by
  obtain ⟨a, ha, -⟩ := low_eq r
  obtain ⟨b, hb', hval⟩ := low_eq base
  obtain ⟨-, hmod, hfields⟩ := modRM_fields a b
  obtain ⟨-, -, hrm, hlow⟩ := hfields 0x80 (by decide)
  have hne : ¬ modRM 0x80 r.low base.low >>> 6 = 3 := by
    rw [ha, hb', hmod]
    decide
  rw [← ha, ← hb'] at hmod hrm hlow
  have hbase : readBase rex (modRM 0x80 r.low base.low)
      ((if base.low = 4 then [0x24] else []) ++ (emitImm32 disp ++ text)) =
      some (base, emitImm32 disp ++ text) := by
    unfold readBase
    rw [hrm, hb]
    by_cases h4 : base.low = 4
    · -- the SIB byte repeats the low bits of `rsp` and `r12`
      have hsib : (0x24 : UInt8).toNat % 8 = base.val % 8 := by
        rw [← toNat_low, h4]
        rfl
      rw [if_pos h4, if_pos h4, List.singleton_append]
      change (if ((0x24 : UInt8) >>> 3) &&& 7 = 4 ∧ rex.x = false then
        some (regOf (decide (8 ≤ base.val)) 0x24, emitImm32 disp ++ text) else none) = _
      rw [if_pos ⟨by decide, hx⟩, regOf_eq hsib]
    · rw [if_neg h4, if_neg h4, List.nil_append, regOf_eq (hlow.trans hval)]
  rw [readOperand, if_neg hne, if_pos hmod, hbase, Option.bind_eq_bind, Option.bind_some,
    readImm32_emitImm32, Option.bind_eq_bind, Option.bind_some]

theorem ofOpcode_opcode (op : AluOp) : AluOp.ofOpcode op.opcode = some op := by
  cases op <;> rfl

theorem ofExt_ext (op : AluOp) : AluOp.ofExt op.ext = some op := by
  cases op <;> rfl

/-- The bytes that hold an opcode and a register. -/
theorem opcode_fields (a : Fin 8) : ∀ base ∈ [(0x50 : UInt8), 0x58, 0xB8],
    (base + UInt8.ofNat a.val) &&& 0xF8 = base ∧ (base + UInt8.ofNat a.val).toNat % 8 = a.val ∧
      (base + UInt8.ofNat a.val) &&& 0xF0 ≠ 0x40 := by
  intro base hbase
  simp only [List.mem_cons, List.not_mem_nil, or_false] at hbase
  obtain rfl | rfl | rfl := hbase <;> revert a <;> decide

theorem opcode_reg (r : Reg) {base : UInt8} (hbase : base ∈ [(0x50 : UInt8), 0x58, 0xB8]) :
    (base + r.low) &&& 0xF8 = base ∧ regOf (decide (8 ≤ r.val)) (base + r.low) = r ∧
      (base + r.low) &&& 0xF0 ≠ 0x40 := by
  obtain ⟨a, ha, hval⟩ := low_eq r
  obtain ⟨h₁, h₂, h₃⟩ := opcode_fields a base hbase
  rw [ha]
  exact ⟨h₁, regOf_eq (h₂.trans hval), h₃⟩

theorem decodeOpcode_modRM {rex : Rex} (hw : rex.w = true) {opcode : UInt8}
    (h : opcode ∈ [(0x89 : UInt8), 0x8B, 0x81, 0x01, 0x29, 0x39]) (b : UInt8) (text : List UInt8) :
    decodeOpcode rex (opcode :: b :: text) = decodeModRM rex opcode b text := by
  have hop : opcode &&& 0xF8 ≠ 0x50 ∧ opcode &&& 0xF8 ≠ 0x58 ∧ opcode &&& 0xF8 ≠ 0xB8 ∧
      opcode ≠ 0xC3 ∧ opcode ≠ 0xCD ∧ Cond.ofOpcode opcode = none := by
    simp only [List.mem_cons, List.not_mem_nil, or_false] at h
    obtain rfl | rfl | rfl | rfl | rfl | rfl := h <;> decide
  unfold decodeOpcode
  simp only [if_neg hop.1, if_neg hop.2.1, if_neg hop.2.2.1, if_neg hop.2.2.2.1,
    if_neg hop.2.2.2.2.1, hop.2.2.2.2.2, if_pos hw]

/-- The register field of a ModRM byte. -/
theorem regOf_field {mod : UInt8} (hmod : mod ∈ [(0xC0 : UInt8), 0x80]) (r rm : Reg) :
    regOf (decide (8 ≤ r.val)) (modRM mod r.low rm.low >>> 3) = r := by
  obtain ⟨a, ha, hval⟩ := low_eq r
  obtain ⟨b, hb, -⟩ := low_eq rm
  obtain ⟨-, -, hfields⟩ := modRM_fields a b
  rw [ha, hb]
  exact regOf_eq ((hfields mod hmod).2.1.trans hval)

theorem decode_rex {b : UInt8} (h : b &&& 0xF0 = 0x40) (text : List UInt8) :
    decode (b :: text) = decodeOpcode (Rex.ofByte b) text := if_pos h

theorem decode_encMovRegReg (dst src : Reg) (text : List UInt8) :
    decode (encMovRegReg dst src ++ text) = some (.movReg dst src, text) := by
  obtain ⟨hrex, hbits⟩ := rex_pair src dst
  rw [encMovRegReg, List.cons_append, decode_rex hrex, hbits, List.cons_append, List.cons_append,
    decodeOpcode_modRM rfl (by decide), decodeModRM, List.nil_append, readOperand_reg _ _ _ rfl,
    Option.bind_eq_bind, Option.bind_some]
  simp only [@regOf_field 0xC0 (by decide), if_true]

theorem decode_encAluRegReg (op : AluOp) (dst src : Reg) (text : List UInt8) :
    decode (encAluRegReg op.opcode dst src ++ text) = some (.aluReg op dst src, text) := by
  obtain ⟨hrex, hbits⟩ := rex_pair src dst
  have hop : op.opcode ∈ [(0x89 : UInt8), 0x8B, 0x81, 0x01, 0x29, 0x39] ∧ op.opcode ≠ 0x89 ∧
      op.opcode ≠ 0x81 := by
    cases op <;> decide
  rw [encAluRegReg, List.cons_append, decode_rex hrex, hbits, List.cons_append, List.cons_append,
    decodeOpcode_modRM rfl hop.1, decodeModRM, List.nil_append, readOperand_reg _ _ _ rfl,
    Option.bind_eq_bind, Option.bind_some]
  simp only [@regOf_field 0xC0 (by decide), if_neg hop.2.1, if_neg hop.2.2, ofOpcode_opcode,
    Option.map_some]

theorem decode_encAluRegImm32 (op : AluOp) (dst : Reg) (imm : BitVec 32) (text : List UInt8) :
    decode (encAluRegImm32 op.ext dst imm ++ text) = some (.aluImm op dst imm, text) := by
  obtain ⟨hrex, hbits⟩ := rex_single dst
  -- what selects the operation stands where another instruction has a register
  obtain ⟨r, hr, hlow⟩ : ∃ r : Reg, op.ext = r.low ∧
    (modRM 0xC0 r.low dst.low >>> 3) &&& 7 = r.low := by
    obtain ⟨r, hr⟩ : ∃ r : Reg, op.ext = r.low := by
      cases op
      · exact ⟨⟨0, by decide⟩, rfl⟩
      · exact ⟨⟨5, by decide⟩, rfl⟩
      · exact ⟨⟨7, by decide⟩, rfl⟩
    obtain ⟨a, ha, -⟩ := low_eq r
    obtain ⟨b, hb, -⟩ := low_eq dst
    refine ⟨r, hr, ?_⟩
    rw [ha, hb]
    exact ((modRM_fields a b).2.2 0xC0 (by decide)).1
  rw [encAluRegImm32, List.cons_append, decode_rex hrex, hbits, List.cons_append, List.cons_append,
    decodeOpcode_modRM rfl (by decide), decodeModRM, hr, readOperand_reg _ _ _ rfl,
    Option.bind_eq_bind, Option.bind_some, hlow, ← hr, ofExt_ext]
  change ((some op).bind fun op => (readImm32 (emitImm32 imm ++ text)).bind fun imm =>
    some (Instr.aluImm op dst imm.1, imm.2)) = _
  rw [Option.bind_some, readImm32_emitImm32, Option.bind_some]

theorem decode_encMovMem (load : Bool) (reg base : Reg) (disp : BitVec 32) (text : List UInt8) :
    decode (encMovMem load reg base disp ++ text) =
      some (if load then .load reg base disp else .store base disp reg, text) := by
  obtain ⟨hrex, hbits⟩ := rex_pair reg base
  have hop : (if load then (0x8B : UInt8) else 0x89) ∈
    [(0x89 : UInt8), 0x8B, 0x81, 0x01, 0x29, 0x39] := by
    cases load <;> decide
  rw [encMovMem, List.cons_append, decode_rex hrex, hbits, List.cons_append, List.cons_append,
    decodeOpcode_modRM rfl hop, decodeModRM, List.append_assoc,
    readOperand_mem _ _ _ _ rfl rfl, Option.bind_eq_bind, Option.bind_some]
  simp only [@regOf_field 0x80 (by decide)]
  cases load <;> rfl

theorem decode_encMovRegImm64 (dst : Reg) (imm : Word) (text : List UInt8) :
    decode (encMovRegImm64 dst imm ++ text) = some (.movImm dst imm, text) := by
  obtain ⟨hrex, hbits⟩ := rex_single dst
  obtain ⟨hop, hreg, -⟩ := @opcode_reg dst 0xB8 (by decide)
  rw [encMovRegImm64, List.cons_append, decode_rex hrex, hbits, List.cons_append]
  unfold decodeOpcode
  simp only [hop, readImm64_emitImm64, Option.map_some, hreg, if_true]
  rfl

/-- A register whose number has the high bit brings a prefix with it. -/
theorem decode_encPushPop {baseOpcode : UInt8} (h : baseOpcode ∈ [(0x50 : UInt8), 0x58]) (r : Reg)
    (text : List UInt8) :
    decode (encPushPop baseOpcode r ++ text) =
      some (if baseOpcode = 0x50 then .push r else .pop r, text) := by
  have hbase : baseOpcode ∈ [(0x50 : UInt8), 0x58, 0xB8] := by
    simp only [List.mem_cons, List.not_mem_nil, or_false] at h ⊢
    exact h.imp_right .inl
  obtain ⟨hop, hreg, hprefix⟩ := opcode_reg r hbase
  have hdec : ∀ rex : Rex, rex.b = decide (8 ≤ r.val) →
      decodeOpcode rex ((baseOpcode + r.low) :: text) =
        some (if baseOpcode = 0x50 then .push r else .pop r, text) := by
    intro rex hb
    unfold decodeOpcode
    simp only [hop, hb, hreg]
    simp only [List.mem_cons, List.not_mem_nil, or_false] at h
    obtain rfl | rfl := h
    · rfl
    · rfl
  rw [encPushPop]
  by_cases h8 : 8 ≤ r.val
  · rw [if_pos h8, List.append_assoc, List.singleton_append, List.singleton_append,
      decode_rex (by decide)]
    exact hdec _ (decide_eq_true h8).symm
  · rw [if_neg h8, List.nil_append, List.singleton_append]
    exact (if_neg hprefix).trans (hdec _ (decide_eq_false h8).symm)

theorem decode_jump (c : Cond) (d : UInt8) (text : List UInt8) :
    decode (c.opcode :: d :: text) = some (.jump c d, text) := by
  cases c <;> rfl

/-- Decoding an instruction, with its displacement in place, gives it back, whatever follows. -/
theorem decode_final {τ : Type} (disp : ℕ → τ → UInt8) (next : ℕ) (i : Instr τ)
    (text : List UInt8) :
    decode (TwoPass.final format disp next i ++ text) = some (i.map (disp next), text) := by
  cases i with
  | movImm dst imm => exact decode_encMovRegImm64 dst imm text
  | movReg dst src => exact decode_encMovRegReg dst src text
  | load dst base d => exact decode_encMovMem true dst base d text
  | store base d src => exact decode_encMovMem false src base d text
  | aluReg op dst src => exact decode_encAluRegReg op dst src text
  | aluImm op dst imm => exact decode_encAluRegImm32 op dst imm text
  | push r => exact decode_encPushPop (by decide) r text
  | pop r => exact decode_encPushPop (by decide) r text
  | jump c target => exact decode_jump c (disp next target) text
  | int80 => rfl
  | ret => rfl

/-- A linked program is decoded into its instructions, each with the displacement that it refers to
    its label by. -/
theorem decodes_link_format {τ : Type} (disp : ℕ → τ → UInt8) (off : ℕ)
    (items : List (TwoPass.Item τ (Instr τ))) :
    TwoPass.Decodes decode (TwoPass.link format disp off items)
      (TwoPass.meanings format (fun next i => i.map (disp next)) off items) :=
  TwoPass.decodes_link off fun _ i _ _ rest => decode_final disp _ i rest

end RoundTrip

end AuroraOS.Asm
