import AuroraOS.Asm.Assemble
import AuroraOS.Asm.Exit

/-!
# Running an assembled program

The bytes that `asm_assemble` returns, loaded at any address and run by a processor that fetches
them from memory, do what the lines of the source say.

## Main definitions

- `fetchAt` — the instruction at an address
- `SourceStep` — one step of the source, from a line to a line
- `place` — the machine at a line of the source

## Main results

- `asmAssemble_runs` — every run of the source is a run of the code
-/

namespace AuroraOS.Asm

open Lib Relation

section Semantics

/-- The `k` bytes from `a` on. -/
def bytesAt (mem : Memory) (a : Word) (k : ℕ) : List UInt8 :=
  (List.range k).map fun j => ⟨mem (a + BitVec.ofNat 64 j)⟩

/-- The instruction at an address, which has at most fifteen bytes, with the address behind it. A
    displacement counts from there. -/
def fetchAt (mem : Memory) (a : Word) : Option (Instr Word × Word) :=
  (decode (bytesAt mem a 15)).map fun d =>
    (d.1.map fun disp => a + BitVec.ofNat 64 (15 - d.2.length) + disp.toBitVec.signExtend 64,
      a + BitVec.ofNat 64 (15 - d.2.length))

/-- The instruction that the processor is about to execute. -/
def fetch (m : Machine) : Option (Instr Word × Word) := fetchAt m.mem m.rip

variable (items : List AsmItem) (os : (Reg → Word) → Memory → Word × Memory)

/-- A step of the source from line to line, on a machine whose instruction pointer does not matter.
    Returning and exiting end the program. -/
inductive SourceStep : ℕ × Machine → ℕ × Machine → Prop
  | label {k : ℕ} {m : Machine} {name : List UInt8} (h : items[k]? = some (.label name)) :
    SourceStep (k, m) (k + 1, m)
  | jump {k t : ℕ} {m : Machine} {c : Cond} {name : List UInt8}
    (h : items[k]? = some (.code (.jump c name))) (ht : items[t]? = some (.label name)) :
    SourceStep (k, m) (if c.holds m.flags then t else k + 1, m)
  | code {k : ℕ} {m : Machine} {i : Instr (List UInt8)} (h : items[k]? = some (.code i))
    (hjump : i.target? = none) (hret : i ≠ .ret) (hexit : ¬(i = .int80 ∧ m.regs rax = 0)) :
    SourceStep (k, m) (k + 1, m.exec (os m.regs m.mem) 0 (i.map fun _ => 0))

/-- The machine at line `k` of a program that is loaded at `base`. -/
def place (base : Word) (k : ℕ) (m : Machine) : Machine :=
  { m with rip := base + BitVec.ofNat 64 (TwoPass.draft format (items.take k)).length }

end Semantics

section Memory

theorem bytesAt_add (mem : Memory) (a : Word) (j k : ℕ) :
    bytesAt mem a (j + k) = bytesAt mem a j ++ bytesAt mem (a + BitVec.ofNat 64 j) k := by
  rw [bytesAt, List.range_add, List.map_append, List.map_map]
  refine congrArg _ (List.map_congr_left ?_)
  intro i _
  change UInt8.ofBitVec (mem (a + BitVec.ofNat 64 (j + i))) = _
  rw [BitVec.ofNat_add, BitVec.add_assoc]

@[simp]
theorem length_bytesAt (mem : Memory) (a : Word) (k : ℕ) : (bytesAt mem a k).length = k := by
  rw [bytesAt, List.length_map, List.length_range]

/-- What stands in the middle of a text is found behind what stands before. -/
theorem bytesAt_middle {mem : Memory} {a : Word} {pre text post : List UInt8}
    (h : bytesAt mem a (pre ++ (text ++ post)).length = pre ++ (text ++ post)) :
    bytesAt mem (a + BitVec.ofNat 64 pre.length) text.length = text := by
  rw [List.length_append, bytesAt_add] at h
  obtain ⟨-, htail⟩ := List.append_inj h (length_bytesAt _ _ _)
  rw [List.length_append, bytesAt_add] at htail
  exact (List.append_inj htail (length_bytesAt _ _ _)).1

theorem length_encode_le {τ : Type} (i : Instr τ) : (encode i).length ≤ 15 := by
  have hmem : ∀ load reg base disp, (encMovMem load reg base disp).length ≤ 15 := by
    intro load reg base disp
    have hsib : (if base.low = 4 then [(0x24 : UInt8)] else []).length ≤ 1 := by
      split
      · exact Nat.le_refl 1
      · exact Nat.zero_le 1
    rw [encMovMem, List.length_cons, List.length_cons, List.length_cons, List.length_append]
    change _ + 4 + 1 + 1 + 1 ≤ 15
    omega
  have hstack : ∀ op reg, (encPushPop op reg).length ≤ 15 := by
    intro op reg
    rw [encPushPop]
    split <;> exact Nat.le_of_ble_eq_true rfl
  cases i with
  | load dst base disp => exact hmem _ _ _ _
  | store base disp src => exact hmem _ _ _ _
  | push r => exact hstack _ _
  | pop r => exact hstack _ _
  | _ => exact Nat.le_of_ble_eq_true rfl

/-- The processor fetches an instruction that is in memory. -/
theorem fetchAt_final {τ : Type} {mem : Memory} {a : Word} {disp : ℕ → τ → UInt8} {next : ℕ}
    {i : Instr τ}
    (h : bytesAt mem a (TwoPass.final format disp next i).length =
      TwoPass.final format disp next i) :
    fetchAt mem a = some (i.map fun t => a + BitVec.ofNat 64 (encode i).length +
      (disp next t).toBitVec.signExtend 64, a + BitVec.ofNat 64 (encode i).length) := by
  have hlen : (TwoPass.final format disp next i).length = (encode i).length :=
    TwoPass.length_final _ _
  have hle := length_encode_le i
  have hsplit : bytesAt mem a 15 = TwoPass.final format disp next i ++
      bytesAt mem (a + BitVec.ofNat 64 (encode i).length) (15 - (encode i).length) := by
    calc bytesAt mem a 15
      _ = bytesAt mem a ((encode i).length + (15 - (encode i).length)) := by
        rw [Nat.add_sub_cancel' hle]
      _ = _ := by
        rw [bytesAt_add, ← hlen, h]
  have hlast : 15 - (15 - (encode i).length) = (encode i).length := by omega
  rw [fetchAt, hsplit, decode_final, Option.map_some, length_bytesAt, hlast]
  cases i <;> rfl

end Memory

section Simulation

variable {items : List AsmItem} {code : List UInt8} {base : Word}
variable {os : (Reg → Word) → Memory → Word × Memory}

/-- The code is in memory at `base`. -/
def LoadedAt (code : List UInt8) (base : Word) (m : Machine) : Prop :=
  bytesAt m.mem base code.length = code

/-- The size of the lines in front of line `k`. -/
theorem draft_take_succ {k : ℕ} {item : AsmItem} (h : items[k]? = some item) :
    TwoPass.draft format (items.take (k + 1)) =
      TwoPass.draft format (items.take k) ++ item.bytes format := by
  obtain ⟨hk, rfl⟩ := List.getElem?_eq_some_iff.mp h
  rw [List.take_succ_eq_append_getElem hk, TwoPass.draft_append, TwoPass.draft_cons]
  exact congrArg _ (List.append_nil _)

theorem split_at {k : ℕ} {item : AsmItem} (h : items[k]? = some item) :
    items = items.take k ++ item :: items.drop (k + 1) := by
  obtain ⟨hlt, rfl⟩ := List.getElem?_eq_some_iff.mp h
  rw [List.getElem_cons_drop, List.take_append_drop]

/-- A label stands at one place. -/
theorem Linked.label_unique (h : Linked items code) {k : ℕ} {name : List UInt8}
    (hk : items[k]? = some (.label name)) {xs ys : List AsmItem}
    (hxs : items = xs ++ .label name :: ys) :
    (TwoPass.draft format xs).length = (TwoPass.draft format (items.take k)).length := by
  have h₁ : (name, (TwoPass.draft format xs).length) ∈ TwoPass.labels format 0 items :=
    TwoPass.mem_labels_iff.mpr ⟨xs, ys, hxs, (Nat.zero_add _).symm⟩
  have h₂ : (name, (TwoPass.draft format (items.take k)).length) ∈ TwoPass.labels format 0 items :=
    TwoPass.mem_labels_iff.mpr ⟨_, _, split_at hk, (Nat.zero_add _).symm⟩
  exact congrArg Prod.snd (List.inj_on_of_nodup_map h.labels_nodup h₁ h₂ rfl)

/-- The address behind a jump and the displacement add up to the address of the label. -/
theorem add_signExtend {next target : ℕ} {d : UInt8} (h : next + d.toBitVec.toInt = (target : ℤ))
    (base : Word) : base + BitVec.ofNat 64 next + d.toBitVec.signExtend 64 =
      base + BitVec.ofNat 64 target := by
  rw [BitVec.add_assoc]
  refine congrArg _ ?_
  rw [BitVec.signExtend, ← BitVec.ofInt_natCast, ← BitVec.ofInt_add, h, BitVec.ofInt_natCast]

/-- The displacement of a jump leads to its label. -/
theorem Linked.jump_target (h : Linked items code) {k t : ℕ} {c : Cond} {name : List UInt8}
    (hk : items[k]? = some (.code (.jump c name))) (ht : items[t]? = some (.label name))
    (base : Word) : base + BitVec.ofNat 64 (TwoPass.draft format (items.take (k + 1))).length +
        (displacement (TwoPass.labels format 0 items)
          (TwoPass.draft format (items.take (k + 1))).length name).toBitVec.signExtend 64 =
      base + BitVec.ofNat 64 (TwoPass.draft format (items.take t)).length := by
  have hmem : (name, (TwoPass.draft format (items.take (k + 1))).length) ∈
      TwoPass.refs format 0 items := by
    have hmem := @TwoPass.mem_refs _ _ _ format 0 name (items.take k) (items.drop (k + 1))
      (.jump c name) rfl
    rw [← split_at hk, Nat.zero_add] at hmem
    rw [draft_take_succ hk, List.length_append]
    exact hmem
  obtain ⟨xs, ys, hxs, hdisp⟩ := h.target _ _ hmem
  rw [h.label_unique ht hxs] at hdisp
  exact add_signExtend hdisp base

/-- What the processor fetches at a line. -/
theorem Linked.fetch_place (h : Linked items code) {k : ℕ} {m : Machine}
    {i : Instr (List UInt8)} (hk : items[k]? = some (.code i)) (hload : LoadedAt code base m) :
    fetch (place items base k m) = some (i.map fun name =>
        base + BitVec.ofNat 64 (TwoPass.draft format (items.take (k + 1))).length +
          (displacement (TwoPass.labels format 0 items)
            (TwoPass.draft format (items.take (k + 1))).length name).toBitVec.signExtend 64,
      base + BitVec.ofNat 64 (TwoPass.draft format (items.take (k + 1))).length) := by
  have hsplit := split_at hk
  have hsize : (TwoPass.draft format (items.take (k + 1))).length =
      (TwoPass.draft format (items.take k)).length + (encode i).length := by
    rw [draft_take_succ hk, List.length_append]
    rfl
  -- the code is what comes before, the instruction, and what comes behind
  have htext := h.text
  rw [hsplit, TwoPass.link_append, TwoPass.link, ← hsplit, Nat.zero_add] at htext
  have hmem := hload
  rw [LoadedAt, htext] at hmem
  have hfinal := bytesAt_middle hmem
  rw [TwoPass.length_link] at hfinal
  rw [fetch, place]
  simp only
  rw [fetchAt_final hfinal, hsize, BitVec.ofNat_add, ← BitVec.add_assoc]
  rfl

/-- An instruction that goes on behind itself does the same wherever it stands. -/
theorem exec_place (os : Word × Memory) (m : Machine) (rip next : Word) (f : List UInt8 → Word)
    {i : Instr (List UInt8)} (hjump : i.target? = none) (hret : i ≠ .ret) :
    ({ m with rip := rip } : Machine).exec os next (i.map f) =
      { m.exec os 0 (i.map fun _ => 0) with rip := next } := by
  cases i with
  | jump c name => exact absurd hjump (Option.some_ne_none _)
  | ret => exact absurd rfl hret
  | aluReg op dst src => cases op <;> rfl
  | aluImm op dst imm => cases op <;> rfl
  | _ => rfl

theorem map_eq_int80 {τ σ : Type} {f : τ → σ} {i : Instr τ} (h : i.map f = .int80) :
    i = .int80 := by
  cases i with
  | int80 => rfl
  | _ => exact absurd h (by simp [Instr.map])

/-- A step of the source is a step of the code, or none if the line is a label. -/
theorem Linked.simulates (h : Linked items code) {s s' : ℕ × Machine}
    (hload : LoadedAt code base s.2) (hstep : SourceStep items os s s') :
    ReflTransGen (Step fetch fun m => os m.regs m.mem) (place items base s.1 s.2)
      (place items base s'.1 s'.2) := by
  cases hstep with
  | label hk =>
    rw [place, place, draft_take_succ hk, TwoPass.Item.bytes, List.append_nil]
  | @jump k t m c name hk ht =>
    have hfetch := h.fetch_place hk hload
    refine ReflTransGen.single ⟨_, _, hfetch, ?_, ?_⟩
    · rintro ⟨hint, -⟩
      exact absurd hint (by simp [Instr.map])
    · rw [Instr.map, h.jump_target hk ht]
      change place items base (if c.holds m.flags then t else k + 1) m = { m with
        rip := if c.holds m.flags then _ else _ }
      by_cases hc : c.holds m.flags = true
      · rw [if_pos hc, if_pos hc]
        rfl
      · rw [if_neg hc, if_neg hc]
        rfl
  | @code k m i hk hjump hret hexit =>
    have hfetch := h.fetch_place hk hload
    refine ReflTransGen.single ⟨_, _, hfetch, ?_, ?_⟩
    · rintro ⟨hint, hrax⟩
      exact hexit ⟨map_eq_int80 hint, hrax⟩
    · exact (exec_place _ m _ _ _ hjump hret).symm

/-- A run of the source in which the program does not write into its own code is a run of the
    code. -/
theorem Linked.runs (h : Linked items code) {s s' : ℕ × Machine} (hload : LoadedAt code base s.2)
    (hrun : ReflTransGen (fun s s' => SourceStep items os s s' ∧ LoadedAt code base s'.2) s s') :
    ReflTransGen (Step fetch fun m => os m.regs m.mem) (place items base s.1 s.2)
      (place items base s'.1 s'.2) ∧ LoadedAt code base s'.2 := by
  induction hrun with
  | refl => exact ⟨.refl, hload⟩
  | tail _ hstep ih => exact ⟨ih.1.trans (h.simulates ih.2 hstep.1), hstep.2⟩

end Simulation

/-- What `asm_assemble` makes of a source whose code and jumps fit into the arrays does, wherever it
    is loaded, what the lines say: every run of the source in which the program leaves its own code
    alone is a run of the code. -/
theorem asmAssemble_runs {source : List UInt8} {outCapacity : ℕ} {code : List UInt8}
    (h : asmAssemble source outCapacity = .assembled code)
    (os : (Reg → Word) → Memory → Word × Memory) (base : Word) :
    ∃ items, sourceItems source = some items ∧ (Fits items → ∀ s s' : ℕ × Machine,
      LoadedAt code base s.2 →
      ReflTransGen (fun s s' => SourceStep items os s s' ∧ LoadedAt code base s'.2) s s' →
      ReflTransGen (Step fetch fun m => os m.regs m.mem) (place items base s.1 s.2)
        (place items base s'.1 s'.2)) := by
  obtain ⟨-, items, hitems, hlinked⟩ := asmAssemble_linked h
  exact ⟨items, hitems, fun hfits s s' hload hrun => ((hlinked hfits).runs hload hrun).1⟩

theorem asmAssemble_runs_loop :
    sourceItems (chars "a:\nint80\njmp a") = some loopItems ∧
      ∀ s s' : ℕ × Machine, LoadedAt [0xCD, 0x80, 0xEB, 0xFC] 0x1000 s.2 →
        ReflTransGen (fun s s' => SourceStep loopItems (fun _ mem => (1, mem)) s s' ∧
          LoadedAt [0xCD, 0x80, 0xEB, 0xFC] 0x1000 s'.2) s s' →
        ReflTransGen (Step fetch fun m => (1, m.mem)) (place loopItems 0x1000 s.1 s.2)
          (place loopItems 0x1000 s'.1 s'.2) := by
  obtain ⟨items, hitems, h⟩ := @asmAssemble_runs (chars "a:\nint80\njmp a") 16 _ rfl
    (fun _ mem => (1, mem)) 0x1000
  have hsource : sourceItems (chars "a:\nint80\njmp a") = some loopItems := rfl
  obtain rfl := Option.some.inj (hitems.symm.trans hsource)
  exact ⟨hsource, h loopItems_fits⟩

end AuroraOS.Asm
