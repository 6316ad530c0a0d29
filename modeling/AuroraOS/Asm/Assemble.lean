import AuroraOS.Asm.Tokens

/-!
# The assembler

`asm_assemble` of `asm.c`: a pass over the lines of the source, and one over the jumps that it has
noted.

## Main definitions

- `AssemblerState` — the code, the labels and the jumps so far, within their arrays
- `asmAssemble` — the whole
- `sourceItems` — what the lines of a source stand for
- `Linked` — the code is decoded into the instructions of the source, and every jump reaches its
  label

## Main results

- `asmAssemble_decodes` — the code is decoded into the source, as long as the arrays are large
enough
-/

namespace AuroraOS.Asm

open Lib

/-- `MAX_LINES`, the room for jumps. -/
def maxLines : ℕ := 512

/-- `MAX_LABELS`. -/
def maxLabels : ℕ := 128

/-- `CODE_BUF_SIZE`. -/
def codeBufSize : ℕ := 65536

section State

/-- `struct jump_fixup`. -/
structure JumpFixup where
  patchOffset : ℕ
  label : List UInt8
  nextInstrOffset : ℕ
  lineNumber : ℕ

/-- `struct assembler_state`, with the first `code_len` bytes of `code`. -/
structure AssemblerState where
  code : List UInt8
  labels : List (List UInt8 × ℕ)
  fixups : List JumpFixup
  failure : Option (ℕ × AsmError)
  code_le : code.length ≤ codeBufSize
  labels_le : labels.length ≤ maxLabels
  fixups_le : fixups.length ≤ maxLines

/-- The state that `memset` leaves. -/
def AssemblerState.empty : AssemblerState :=
  ⟨[], [], [], none, Nat.zero_le _, Nat.zero_le _, Nat.zero_le _⟩

/-- `emit_byte`. -/
def AssemblerState.emitByte (st : AssemblerState) (b : UInt8) : AssemblerState :=
  if h : st.code.length < codeBufSize then
    { st with
      code := st.code ++ [b]
      code_le := by
        rw [List.length_append, List.length_singleton]
        exact h }
  else st

/-- The bytes of an encoder, one after the other. -/
def AssemblerState.emit (st : AssemblerState) (bytes : List UInt8) : AssemblerState :=
  bytes.foldl AssemblerState.emitByte st

/-- `fail`, which keeps the first error. -/
def AssemblerState.fail (st : AssemblerState) (lineNumber : ℕ) (e : AsmError) : AssemblerState :=
  if st.failure.isSome then st else { st with failure := some (lineNumber, e) }

/-- `find_label`, with the offset of the label. -/
def findLabel (labels : List (List UInt8 × ℕ)) (name : List UInt8) : Option ℕ :=
  (labels.find? fun l => l.1 = name).map Prod.snd

/-- `add_label`, at the end of the code. -/
def AssemblerState.addLabel (st : AssemblerState) (name : List UInt8) (lineNumber : ℕ) :
    AssemblerState :=
  if (findLabel st.labels name).isSome then st.fail lineNumber .duplicateLabel
  else if h : st.labels.length < maxLabels then
    { st with
      labels := st.labels ++ [(name.take 31, st.code.length)]
      labels_le := by
        rw [List.length_append, List.length_singleton]
        exact h }
  else st.fail lineNumber .tooManyLabels

/-- A jump with a placeholder, which is noted if there is room. -/
def AssemblerState.emitJump (st : AssemblerState) (opcode : UInt8) (name : List UInt8)
    (lineNumber : ℕ) : AssemblerState :=
  let st₁ := st.emitByte opcode
  let st₂ := st₁.emitByte 0x00
  if h : st₂.fixups.length < maxLines then
    { st₂ with
      fixups := st₂.fixups ++ [⟨st₁.code.length, name.take 31, st₂.code.length, lineNumber⟩]
      fixups_le := by
        rw [List.length_append, List.length_singleton]
        exact h }
  else st₂

end State

section Passes

/-- What an item does to the state. -/
def AssemblerState.put (st : AssemblerState) (lineNumber : ℕ) : AsmItem → AssemblerState
  | .label name => st.addLabel name lineNumber
  | .code (.jump c name) => st.emitJump c.opcode name lineNumber
  | .code i => st.emit (encode i)

/-- The loop of `asm_assemble` for one line; `none` if a label leaves its field. -/
def assembleLine (st : AssemblerState) (lineNumber : ℕ) (line : List UInt8) :
    Option AssemblerState :=
  match tokenizeLine line with
  | .blank => some st
  | .overrun => none
  | .tokens t =>
    match readTokens t with
    | .error e => some (st.fail lineNumber e)
    | .ok item => some (st.put lineNumber item)

/-- The lines from number `n` on. -/
def assembleLines (st : AssemblerState) (n : ℕ) : List (List UInt8) → Option AssemblerState
  | [] => some st
  | line :: lines => (assembleLine st n line).bind fun st => assembleLines st (n + 1) lines

/-- The line that a source starts with, or as much of it as the buffer takes. -/
def firstLine (source : List UInt8) : List UInt8 :=
  (source.takeWhile (· ≠ ascii '\n')).take (maxLineLen - 1)

/-- What is left behind the first line. -/
def afterLine (source : List UInt8) : List UInt8 :=
  let rest := source.drop (firstLine source).length
  if rest.head? = some (ascii '\n') then rest.tail else rest

/-- The turns of the loop of `asm_assemble`, at most `fuel`. -/
def cutLines : ℕ → List UInt8 → List (List UInt8)
  | 0, _ => []
  | fuel + 1, source =>
    if source = [] then [] else firstLine source :: cutLines fuel (afterLine source)

/-- The lines of a source. -/
def sourceLines (source : List UInt8) : List (List UInt8) := cutLines source.length source

/-- What `asm_assemble` comes to; `overrun` if it writes behind `code` or a field. -/
inductive AsmResult
  | assembled (code : List UInt8)
  | failed (e : AsmError) (lineNumber : ℕ)
  | overrun

/-- The second pass. -/
def patchJumps (labels : List (List UInt8 × ℕ)) : List JumpFixup → List UInt8 → AsmResult
  | [], code => .assembled code
  | fx :: fixups, code =>
    match findLabel labels fx.label with
    | none => .failed .undefinedLabel fx.lineNumber
    | some offset =>
      let rel : ℤ := offset - fx.nextInstrOffset
      if rel < -128 ∨ 127 < rel then .failed .jumpTooFar fx.lineNumber
      else if fx.patchOffset < codeBufSize then
        patchJumps labels fixups (code.set fx.patchOffset ⟨BitVec.ofInt 8 rel⟩)
      else .overrun

/-- `asm_assemble` behind the first pass. -/
def AssemblerState.finish (st : AssemblerState) (outCapacity : ℕ) : AsmResult :=
  match st.failure with
  | some (lineNumber, e) => .failed e lineNumber
  | none =>
    match patchJumps st.labels st.fixups st.code with
    | .assembled code =>
      if outCapacity < code.length then .failed .programTooLarge 0 else .assembled code
    | result => result

/-- `asm_assemble`. -/
def asmAssemble (source : List UInt8) (outCapacity : ℕ) : AsmResult :=
  match assembleLines .empty 1 (sourceLines source) with
  | none => .overrun
  | some st => st.finish outCapacity

end Passes

section Items

/-- What the lines stand for, if none of them is malformed. -/
def itemsOf : List (List UInt8) → Option (List AsmItem)
  | [] => some []
  | line :: lines =>
    match tokenizeLine line with
    | .blank => itemsOf lines
    | .overrun => none
    | .tokens t =>
      match readTokens t with
      | .error _ => none
      | .ok item => (itemsOf lines).map (item :: ·)

/-- What the lines of a source stand for. -/
def sourceItems (source : List UInt8) : Option (List AsmItem) := itemsOf (sourceLines source)

/-- The arrays have room for the code and for the jumps. -/
structure Fits (items : List AsmItem) : Prop where
  code_le : (TwoPass.draft format items).length ≤ codeBufSize
  jumps_le : (TwoPass.refs format 0 items).length ≤ maxLines

/-- The displacement of a jump to `name` with `next` behind it. -/
def displacement (labels : List (List UInt8 × ℕ)) (next : ℕ) (name : List UInt8) : UInt8 :=
  ⟨BitVec.ofInt 8 ((findLabel labels name).getD 0 - next)⟩

/-- The code is decoded into the instructions of the source and nothing else, and the displacement
    of every jump leads to where the instruction behind its label starts. -/
structure Linked (items : List AsmItem) (code : List UInt8) : Prop where
  text : code = TwoPass.link format (displacement (TwoPass.labels format 0 items)) 0 items
  decodes : ∀ ds, TwoPass.Decodes decode code ds ↔
    ds = TwoPass.meanings format
      (fun next i => i.map (displacement (TwoPass.labels format 0 items) next)) 0 items
  target : ∀ name next, (name, next) ∈ TwoPass.refs format 0 items →
    ∃ xs ys, items = xs ++ .label name :: ys ∧
      next + (displacement (TwoPass.labels format 0 items) next name).toBitVec.toInt =
        (TwoPass.draft format xs).length
  labels_nodup : ((TwoPass.labels format 0 items).map Prod.fst).Nodup

end Items

section Emission

variable {st st' : AssemblerState} {n : ℕ} {bytes : List UInt8}

@[simp]
theorem emitByte_labels (st : AssemblerState) (b : UInt8) : (st.emitByte b).labels = st.labels := by
  rw [AssemblerState.emitByte]
  split <;> rfl

@[simp]
theorem emitByte_fixups (st : AssemblerState) (b : UInt8) : (st.emitByte b).fixups = st.fixups := by
  rw [AssemblerState.emitByte]
  split <;> rfl

@[simp]
theorem emitByte_failure (st : AssemblerState) (b : UInt8) :
    (st.emitByte b).failure = st.failure := by
  rw [AssemblerState.emitByte]
  split <;> rfl

theorem emitByte_code (h : st.code.length < codeBufSize) (b : UInt8) :
    (st.emitByte b).code = st.code ++ [b] := by
  rw [AssemblerState.emitByte, dif_pos h]

theorem length_emitByte (h : st.code.length < codeBufSize) (b : UInt8) :
    (st.emitByte b).code.length = st.code.length + 1 := by
  rw [emitByte_code h, List.length_append, List.length_singleton]

theorem emit_fields (st : AssemblerState) (bytes : List UInt8) :
    (st.emit bytes).labels = st.labels ∧ (st.emit bytes).fixups = st.fixups ∧
      (st.emit bytes).failure = st.failure := by
  induction bytes generalizing st with
  | nil => exact ⟨rfl, rfl, rfl⟩
  | cons b bytes ih =>
    obtain ⟨h₁, h₂, h₃⟩ := ih (st.emitByte b)
    rw [emitByte_labels] at h₁
    rw [emitByte_fixups] at h₂
    rw [emitByte_failure] at h₃
    exact ⟨h₁, h₂, h₃⟩

/-- As long as there is room, every byte is written. -/
theorem emit_code (h : st.code.length + bytes.length ≤ codeBufSize) :
    (st.emit bytes).code = st.code ++ bytes := by
  induction bytes generalizing st with
  | nil => exact (List.append_nil _).symm
  | cons b bytes ih =>
    rw [List.length_cons] at h
    have hroom : st.code.length < codeBufSize := by omega
    have hrest : (st.emitByte b).code.length + bytes.length ≤ codeBufSize := by
      rw [length_emitByte hroom]
      omega
    have hih := ih hrest
    rw [emitByte_code hroom, List.append_assoc, List.singleton_append] at hih
    exact hih

theorem fail_failure (st : AssemblerState) (n : ℕ) (e : AsmError) :
    (st.fail n e).failure ≠ none := by
  rw [AssemblerState.fail]
  split
  · next h => exact Option.isSome_iff_ne_none.mp h
  · exact Option.some_ne_none _

/-- What succeeds has not failed before. -/
theorem failure_of_put {item : AsmItem} (h : (st.put n item).failure = none) :
    st.failure = none := by
  cases item with
  | label name =>
    rw [AssemblerState.put, AssemblerState.addLabel] at h
    split at h
    · exact absurd h (fail_failure _ _ _)
    · split at h
      · exact h
      · exact absurd h (fail_failure _ _ _)
  | code i =>
    have hemit : (st.emit (encode i)).failure = st.failure := (emit_fields st _).2.2
    cases i with
    | jump c name =>
      rw [AssemblerState.put, AssemblerState.emitJump] at h
      split at h
      · simpa using h
      · simpa using h
    | _ => exact hemit.symm.trans h

end Emission

section FirstPass

/-- The name that an item defines or refers to. -/
def itemName : AsmItem → List UInt8
  | .label name => name
  | .code i => i.target?.getD []

/-- The state is what the first pass makes of the items. -/
structure Tracks (st : AssemblerState) (items : List AsmItem) : Prop where
  code : st.code = TwoPass.draft format items
  labels : st.labels = TwoPass.labels format 0 items
  fixups : st.fixups.map (fun fx => (fx.label, fx.nextInstrOffset)) = TwoPass.refs format 0 items
  patches : ∀ fx ∈ st.fixups, fx.patchOffset + 1 = fx.nextInstrOffset
  labels_nodup : (st.labels.map Prod.fst).Nodup

theorem tracks_empty : Tracks .empty [] :=
  ⟨rfl, rfl, rfl, fun _ h => absurd h List.not_mem_nil, List.nodup_nil⟩

variable {st st' : AssemblerState} {n : ℕ} {items : List AsmItem} {item : AsmItem}

theorem Fits.left {items' : List AsmItem} (h : Fits (items ++ items')) : Fits items := by
  obtain ⟨hcode, hjumps⟩ := h
  rw [TwoPass.draft_append, List.length_append] at hcode
  rw [TwoPass.refs_append, List.length_append] at hjumps
  exact ⟨(Nat.le_add_right _ _).trans hcode, (Nat.le_add_right _ _).trans hjumps⟩

/-- A name that is not found is not among the labels. -/
theorem notMem_of_findLabel {labels : List (List UInt8 × ℕ)} {name : List UInt8}
    (h : findLabel labels name = none) : name ∉ labels.map Prod.fst := by
  rw [findLabel, Option.map_eq_none_iff, List.find?_eq_none] at h
  intro hmem
  obtain ⟨l, hl, rfl⟩ := List.mem_map.mp hmem
  exact absurd (h l hl) (by simp)

theorem draft_concat_code (items : List AsmItem) (i : Instr (List UInt8)) :
    TwoPass.draft format (items ++ [.code i]) = TwoPass.draft format items ++ encode i := by
  rw [TwoPass.draft_append]
  exact congrArg _ (List.append_nil _)

theorem labels_concat_code (items : List AsmItem) (i : Instr (List UInt8)) :
    TwoPass.labels format 0 (items ++ [.code i]) = TwoPass.labels format 0 items := by
  rw [TwoPass.labels_append]
  exact List.append_nil _

/-- What fits with an instruction at its end has room for it. -/
theorem Tracks.room (h : Tracks st items) {i : Instr (List UInt8)}
    (hfits : Fits (items ++ [.code i])) : st.code.length + (encode i).length ≤ codeBufSize := by
  rw [h.code, ← List.length_append, ← draft_concat_code]
  exact hfits.code_le

theorem Tracks.addLabel (h : Tracks st items) {name : List UInt8} (hname : name.length ≤ 31)
    (hok : (st.addLabel name n).failure = none) :
      Tracks (st.addLabel name n) (items ++ [.label name]) := by
  have htake : name.take 31 = name := List.take_of_length_le hname
  rw [AssemblerState.addLabel] at hok ⊢
  split at hok
  · exact absurd hok (fail_failure _ _ _)
  · next hnew =>
    rw [if_neg hnew]
    split at hok
    · next hroom =>
      rw [dif_pos hroom]
      refine ⟨?_, ?_, ?_, h.patches, ?_⟩
      · simpa [TwoPass.draft, TwoPass.Item.bytes] using h.code
      · rw [TwoPass.labels_append, ← h.labels, Nat.zero_add, ← h.code]
        simp only [htake]
        rfl
      · rw [TwoPass.refs_append]
        simpa [TwoPass.refs] using h.fixups
      · simp only [htake, List.map_append, List.map_cons, List.map_nil]
        refine h.labels_nodup.append (List.nodup_singleton _) ?_
        rw [List.disjoint_singleton]
        exact notMem_of_findLabel (Option.not_isSome_iff_eq_none.mp hnew)
    · exact absurd hok (fail_failure _ _ _)

theorem Tracks.emit (h : Tracks st items) {i : Instr (List UInt8)} (hi : i.target? = none)
    (hfits : Fits (items ++ [.code i])) : Tracks (st.emit (encode i)) (items ++ [.code i]) := by
  obtain ⟨hlabels, hfixups, -⟩ := emit_fields st (encode i)
  refine ⟨?_, ?_, ?_, ?_, ?_⟩
  · rw [emit_code (h.room hfits), h.code, draft_concat_code]
  · rw [hlabels, h.labels, labels_concat_code]
  · rw [hfixups, h.fixups, TwoPass.refs_append]
    have hnone : (format.ref i : Option (List UInt8)) = none := hi
    simp [TwoPass.refs, hnone]
  · rw [hfixups]
    exact h.patches
  · rw [hlabels]
    exact h.labels_nodup

theorem Tracks.emitJump (h : Tracks st items) {c : Cond} {name : List UInt8}
    (hname : name.length ≤ 31) (hfits : Fits (items ++ [.code (.jump c name)])) :
    Tracks (st.emitJump c.opcode name n) (items ++ [.code (.jump c name)]) := by
  have htake : name.take 31 = name := List.take_of_length_le hname
  have hroom : st.code.length + 2 ≤ codeBufSize := h.room hfits
  have hrefs : TwoPass.refs format 0 (items ++ [.code (.jump c name)]) =
      TwoPass.refs format 0 items ++ [(name, st.code.length + 2)] := by
    rw [TwoPass.refs_append, Nat.zero_add, ← h.code]
    rfl
  have hroom₁ : st.code.length < codeBufSize := by omega
  have hlen₁ := length_emitByte hroom₁ c.opcode
  have hroom₂ : (st.emitByte c.opcode).code.length < codeBufSize := by omega
  have hlen₂ := length_emitByte hroom₂ 0x00
  have hplace : ((st.emitByte c.opcode).emitByte 0x00).fixups.length < maxLines := by
    have hmap := congrArg List.length h.fixups
    have hjumps := hfits.jumps_le
    rw [hrefs, List.length_append, List.length_singleton, ← hmap, List.length_map] at hjumps
    rw [emitByte_fixups, emitByte_fixups]
    exact hjumps
  rw [AssemblerState.emitJump, dif_pos hplace]
  refine ⟨?_, ?_, ?_, ?_, ?_⟩
  · simp only
    rw [emitByte_code hroom₂, emitByte_code hroom₁, h.code, draft_concat_code, List.append_assoc]
    rfl
  · simp only [emitByte_labels]
    rw [h.labels, labels_concat_code]
  · simp only [emitByte_fixups, List.map_append, List.map_cons, List.map_nil]
    rw [h.fixups, hrefs, hlen₂, hlen₁, htake]
  · intro fx hfx
    simp only [emitByte_fixups, List.mem_append, List.mem_singleton] at hfx
    obtain hfx | rfl := hfx
    · exact h.patches fx hfx
    · exact hlen₂.symm
  · simp only [emitByte_labels]
    exact h.labels_nodup

theorem Tracks.put (h : Tracks st items) (hname : (itemName item).length ≤ 31)
    (hfits : Fits (items ++ [item])) (hok : (st.put n item).failure = none) :
    Tracks (st.put n item) (items ++ [item]) := by
  cases item with
  | label name => exact h.addLabel hname hok
  | code i =>
    cases i with
    | jump c name => exact h.emitJump hname hfits
    | _ => exact h.emit rfl hfits

/-- The name of an item that is read from tokens fits into its field. -/
theorem itemName_le {t : LineTokens} (h : readTokens t = .ok item) (ht : t.arg1.length ≤ 31) :
    (itemName item).length ≤ 31 := by
  rw [readTokens] at h
  split at h
  · obtain rfl := Except.ok.inj h
    exact ht
  · cases hi : readInstr t with
    | error e =>
      rw [hi] at h
      exact absurd h (by simp [Except.map])
    | ok i =>
      rw [hi] at h
      obtain rfl := Except.ok.inj h
      cases i with
      | jump c name =>
        obtain rfl := readInstr_jump hi
        exact ht
      | _ => exact Nat.zero_le _

/-- The first pass over the lines: if it succeeds, every line stands for something, and the state
    has grown by that. -/
theorem assembleLines_tracks {lines : List (List UInt8)} (h : assembleLines st n lines = some st')
    (hok : st'.failure = none) : st.failure = none ∧ ∃ ys, itemsOf lines = some ys ∧
      ∀ xs, Tracks st xs → Fits (xs ++ ys) → Tracks st' (xs ++ ys) := by
  induction lines generalizing st n with
  | nil =>
    obtain rfl := Option.some.inj h
    refine ⟨hok, [], rfl, fun xs hxs _ => ?_⟩
    rw [List.append_nil]
    exact hxs
  | cons line lines ih =>
    obtain ⟨st₁, hline, hrest⟩ := Option.bind_eq_some_iff.mp h
    obtain ⟨hok₁, ys, hys, htracks⟩ := ih hrest
    rw [assembleLine] at hline
    rw [itemsOf]
    cases ht : tokenizeLine line with
    | blank =>
      rw [ht] at hline
      obtain rfl := Option.some.inj hline
      exact ⟨hok₁, ys, hys, htracks⟩
    | overrun =>
      rw [ht] at hline
      exact absurd hline.symm (Option.some_ne_none _)
    | tokens t =>
      rw [ht] at hline
      simp only at hline ⊢
      cases hread : readTokens t with
      | error e =>
        rw [hread] at hline
        obtain rfl := Option.some.inj hline
        exact absurd hok₁ (fail_failure _ _ _)
      | ok item =>
        rw [hread] at hline
        obtain rfl := Option.some.inj hline
        refine ⟨failure_of_put hok₁, item :: ys, by simp only [hys, Option.map_some], ?_⟩
        intro xs hxs hfits
        rw [List.append_cons] at hfits ⊢
        have hname := itemName_le hread (tokenizeLine_arg1_le ht)
        exact htracks _ (hxs.put hname hfits.left hok₁) hfits

end FirstPass

section SecondPass

variable {labels : List (List UInt8 × ℕ)} {items : List AsmItem}

theorem mem_of_findLabel {name : List UInt8} {a : ℕ} (h : findLabel labels name = some a) :
    (name, a) ∈ labels := by
  obtain ⟨l, hl, rfl⟩ := Option.map_eq_some_iff.mp h
  have hname : l.1 = name := by simpa using List.find?_some hl
  rw [← hname]
  exact List.mem_of_find?_eq_some hl

/-- The second pass puts the displacement of every jump into its place, and each is in range. -/
theorem patchJumps_assembled {fixups : List JumpFixup} {text code : List UInt8}
    (hpatch : ∀ fx ∈ fixups, fx.patchOffset + 1 = fx.nextInstrOffset)
    (h : patchJumps labels fixups text = .assembled code) :
    code = TwoPass.patch (displacement labels)
        (fixups.map fun fx => (fx.label, fx.nextInstrOffset)) text ∧
      ∀ fx ∈ fixups, ∃ a, findLabel labels fx.label = some a ∧
        -128 ≤ (a : ℤ) - fx.nextInstrOffset ∧ (a : ℤ) - fx.nextInstrOffset ≤ 127 := by
  induction fixups generalizing text with
  | nil => exact ⟨(AsmResult.assembled.inj h).symm, fun _ h => absurd h List.not_mem_nil⟩
  | cons fx fixups ih =>
    rw [patchJumps] at h
    cases hfind : findLabel labels fx.label with
    | none =>
      rw [hfind] at h
      exact absurd h (by simp)
    | some a =>
      rw [hfind] at h
      simp only at h
      split at h
      · exact absurd h (by simp)
      · next hrange =>
        split at h
        · obtain ⟨hcode, hall⟩ := ih (fun fx' hfx' => hpatch fx' (List.mem_cons_of_mem _ hfx')) h
          have hnext := hpatch fx List.mem_cons_self
          refine ⟨?_, ?_⟩
          · rw [hcode, List.map_cons, TwoPass.patch, TwoPass.patch, List.foldl_cons, displacement,
              hfind, Option.getD_some, ← hnext, Nat.add_sub_cancel]
          · intro fx' hfx'
            obtain rfl | hfx' := List.mem_cons.mp hfx'
            · exact ⟨a, hfind, by omega, by omega⟩
            · exact hall fx' hfx'
        · exact absurd h (by simp)

/-- A displacement in range is the distance. -/
theorem displacement_toInt {name : List UInt8} {a next : ℕ} (h : findLabel labels name = some a)
    (hlow : -128 ≤ (a : ℤ) - next) (hhigh : (a : ℤ) - next ≤ 127) :
    (displacement labels next name).toBitVec.toInt = (a : ℤ) - next := by
  rw [displacement, h, Option.getD_some, BitVec.toInt_ofInt]
  exact Int.bmod_eq_of_le (by omega) (by omega)

/-- What the two passes leave is linked. -/
theorem Tracks.linked {st : AssemblerState} {code : List UInt8} (h : Tracks st items)
    (hcode : patchJumps st.labels st.fixups st.code = .assembled code) : Linked items code := by
  obtain ⟨heq, hrange⟩ := patchJumps_assembled h.patches hcode
  have hlink :=
    @TwoPass.patch_refs _ _ _ format (displacement (TwoPass.labels format 0 items)) [] [] items
  rw [List.length_nil, List.nil_append, List.nil_append, List.append_nil, List.append_nil] at hlink
  rw [h.labels, h.fixups, h.code, hlink] at heq
  have hdecodes := decodes_link_format (displacement (TwoPass.labels format 0 items)) 0 items
  rw [← heq] at hdecodes
  refine ⟨heq, ?_, ?_, h.labels ▸ h.labels_nodup⟩
  · intro ds
    constructor
    · intro hds
      exact hds.unique rfl hdecodes
    · rintro rfl
      exact hdecodes
  · intro name next hmem
    rw [← h.fixups] at hmem
    obtain ⟨fx, hfx, hpair⟩ := List.mem_map.mp hmem
    obtain ⟨rfl, rfl⟩ := Prod.mk.inj hpair
    obtain ⟨a, hfind, hlow, hhigh⟩ := hrange fx hfx
    rw [h.labels] at hfind
    obtain ⟨xs, ys, hitems, ha⟩ := TwoPass.mem_labels_iff.mp (mem_of_findLabel hfind)
    refine ⟨xs, ys, hitems, ?_⟩
    rw [displacement_toInt hfind hlow hhigh]
    omega

end SecondPass

/-- What the second pass gets and returns if the assembler succeeds. -/
theorem finish_eq_assembled_iff {st : AssemblerState} {outCapacity : ℕ} {code : List UInt8} :
    st.finish outCapacity = .assembled code ↔ st.failure = none ∧
      patchJumps st.labels st.fixups st.code = .assembled code ∧ code.length ≤ outCapacity := by
  rw [AssemblerState.finish]
  cases st.failure with
  | some e => simp
  | none =>
    cases patchJumps st.labels st.fixups st.code with
    | assembled text =>
      simp only [true_and, AsmResult.assembled.injEq]
      split
      · next hcap =>
        refine iff_of_false (by simp) ?_
        rintro ⟨rfl, hle⟩
        exact absurd hle (Nat.not_le_of_lt hcap)
      · next hcap =>
        rw [AsmResult.assembled.injEq]
        refine ⟨fun h => ⟨h, h ▸ Nat.le_of_not_lt hcap⟩, fun h => h.1⟩
    | failed e n => simp
    | overrun => simp

theorem exists_of_assembled {source : List UInt8} {outCapacity : ℕ} {code : List UInt8}
    (h : asmAssemble source outCapacity = .assembled code) :
    ∃ st, assembleLines .empty 1 (sourceLines source) = some st ∧
      st.finish outCapacity = .assembled code := by
  rw [asmAssemble] at h
  cases hlines : assembleLines .empty 1 (sourceLines source) with
  | none =>
    rw [hlines] at h
    exact absurd h (by simp)
  | some st =>
    rw [hlines] at h
    exact ⟨st, rfl, h⟩

/-- What is assembled from a source whose code and jumps fit into the arrays is linked. -/
theorem asmAssemble_linked {source : List UInt8} {outCapacity : ℕ} {code : List UInt8}
    (h : asmAssemble source outCapacity = .assembled code) :
    code.length ≤ outCapacity ∧
      ∃ items, sourceItems source = some items ∧ (Fits items → Linked items code) := by
  obtain ⟨st, hlines, hfinish⟩ := exists_of_assembled h
  obtain ⟨hok, hpatch, hcap⟩ := finish_eq_assembled_iff.mp hfinish
  obtain ⟨-, items, hitems, htracks⟩ := assembleLines_tracks hlines hok
  exact ⟨hcap, items, hitems, fun hfits => (htracks [] tracks_empty hfits).linked hpatch⟩

/-- What `asm_assemble` returns for a source whose code and jumps fit into the arrays is decoded
    into the instructions that the lines of the source stand for, in their order, and every jump
    leads to where the instruction behind its label starts. -/
theorem asmAssemble_decodes {source : List UInt8} {outCapacity : ℕ} {code : List UInt8}
    (h : asmAssemble source outCapacity = .assembled code) :
    ∃ items, sourceItems source = some items ∧ (Fits items →
      (∀ ds, TwoPass.Decodes decode code ds ↔ ds = TwoPass.meanings format
        (fun next i => i.map (displacement (TwoPass.labels format 0 items) next)) 0 items) ∧
      ∀ xs c name ys, items = xs ++ .code (.jump c name) :: ys →
        ∃ us vs, items = us ++ .label name :: vs ∧
          ((TwoPass.draft format xs).length + 2 : ℤ) +
            (displacement (TwoPass.labels format 0 items) ((TwoPass.draft format xs).length + 2)
              name).toBitVec.toInt = (TwoPass.draft format us).length) := by
  obtain ⟨-, items, hitems, hlinked⟩ := asmAssemble_linked h
  refine ⟨items, hitems, fun hfits => ⟨(hlinked hfits).decodes, ?_⟩⟩
  rintro xs c name ys rfl
  have hmem := @TwoPass.mem_refs _ _ _ format 0 name xs ys (.jump c name) rfl
  rw [Nat.zero_add] at hmem
  exact (hlinked hfits).target _ _ hmem

/-- A label, a system call and a jump back to the label. -/
def loopItems : List AsmItem :=
  [.label (chars "a"), .code .int80, .code (.jump .always (chars "a"))]

theorem loopItems_fits : Fits loopItems := ⟨by decide, by decide⟩

theorem asmAssemble_decodes_loop :
    sourceItems (chars "a:\nint80\njmp a") = some loopItems ∧
      (∀ ds, TwoPass.Decodes decode [0xCD, 0x80, 0xEB, 0xFC] ds ↔ ds = TwoPass.meanings format
        (fun next i => i.map (displacement (TwoPass.labels format 0 loopItems) next)) 0
          loopItems) ∧
      ∀ xs c name ys, loopItems = xs ++ .code (.jump c name) :: ys →
        ∃ us vs, loopItems = us ++ .label name :: vs ∧
          ((TwoPass.draft format xs).length + 2 : ℤ) +
            (displacement (TwoPass.labels format 0 loopItems)
              ((TwoPass.draft format xs).length + 2) name).toBitVec.toInt =
                (TwoPass.draft format us).length := by
  have hsource : sourceItems (chars "a:\nint80\njmp a") = some loopItems := rfl
  obtain ⟨items, hitems, h⟩ := @asmAssemble_decodes (chars "a:\nint80\njmp a") 16 _ rfl
  obtain rfl := Option.some.inj (hitems.symm.trans hsource)
  exact ⟨hsource, h loopItems_fits⟩

end AuroraOS.Asm
