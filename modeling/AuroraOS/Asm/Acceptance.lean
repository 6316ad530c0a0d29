import AuroraOS.Asm.Assemble

/-!
# What the assembler accepts and what it reports

## Main definitions

- `firstError` — the first line of which the first pass complains
- `Acceptable` — what a program has to keep

## Main results

- `asmAssemble_firstError`
- `asmAssemble_accepts_iff`
-/

namespace AuroraOS.Asm

open Lib

section Errors

/-- The first line of which the first pass complains, with labels of the names `names` before the
    lines; they count from `n`. -/
def firstError (names : List (List UInt8)) (n : ℕ) : List (List UInt8) → Option (ℕ × AsmError)
  | [] => none
  | line :: lines =>
    match tokenizeLine line with
    | .tokens t =>
      match readTokens t with
      | .error e => some (n, e)
      | .ok (.code _) => firstError names (n + 1) lines
      | .ok (.label name) =>
        if names.contains name then some (n, .duplicateLabel)
        else if names.length < maxLabels then firstError (names ++ [name]) (n + 1) lines
        else some (n, .tooManyLabels)
    | _ => firstError names (n + 1) lines

variable {st st' : AssemblerState} {n : ℕ} {lines : List (List UInt8)}

theorem fail_of_none (h : st.failure = none) (n : ℕ) (e : AsmError) :
    (st.fail n e).failure = some (n, e) := by
  rw [AssemblerState.fail, h]
  rfl

theorem findLabel_isSome_iff {labels : List (List UInt8 × ℕ)} {name : List UInt8} :
    (findLabel labels name).isSome ↔ name ∈ labels.map Prod.fst := by
  constructor
  · intro h
    obtain ⟨a, ha⟩ := Option.isSome_iff_exists.mp h
    exact List.mem_map_of_mem (mem_of_findLabel ha)
  · intro h
    by_contra hnone
    exact notMem_of_findLabel (Option.not_isSome_iff_eq_none.mp hnone) h

/-- Later errors do not replace the first. -/
theorem put_failure_of_some {e : ℕ × AsmError} (h : st.failure = some e) (item : AsmItem) :
    (st.put n item).failure = some e := by
  have hfail : ∀ n e', (st.fail n e').failure = some e := by
    intro n e'
    rw [AssemblerState.fail, h]
    exact h
  cases item with
  | label name =>
    rw [AssemblerState.put, AssemblerState.addLabel]
    split
    · exact hfail _ _
    · split
      · exact h
      · exact hfail _ _
  | code i =>
    have hemit : (st.emit (encode i)).failure = some e := (emit_fields st _).2.2.trans h
    cases i with
    | jump c name =>
      rw [AssemblerState.put, AssemblerState.emitJump]
      split <;> simpa using h
    | _ => exact hemit

theorem assembleLines_failure_of_some {e : ℕ × AsmError} (h : st.failure = some e)
    (hlines : assembleLines st n lines = some st') : st'.failure = some e := by
  induction lines generalizing st n with
  | nil =>
    obtain rfl := Option.some.inj hlines
    exact h
  | cons line lines ih =>
    obtain ⟨st₁, hline, hrest⟩ := Option.bind_eq_some_iff.mp hlines
    refine ih ?_ hrest
    rw [assembleLine] at hline
    split at hline
    · obtain rfl := Option.some.inj hline
      exact h
    · exact absurd hline.symm (Option.some_ne_none _)
    · split at hline
      · obtain rfl := Option.some.inj hline
        rw [AssemblerState.fail, h]
        exact h
      · obtain rfl := Option.some.inj hline
        exact put_failure_of_some h _

/-- Instructions leave the labels alone and do not fail. -/
theorem put_code_fields (st : AssemblerState) (n : ℕ) (i : Instr (List UInt8)) :
    (st.put n (.code i)).labels = st.labels ∧ (st.put n (.code i)).failure = st.failure := by
  have hemit := emit_fields st (encode i)
  cases i with
  | jump c name =>
    rw [AssemblerState.put, AssemblerState.emitJump]
    split <;> exact ⟨by simp, by simp⟩
  | _ => exact ⟨hemit.1, hemit.2.2⟩

/-- What the first pass reports is its first complaint. -/
theorem assembleLines_firstError (hok : st.failure = none)
    (h : assembleLines st n lines = some st') :
    st'.failure = firstError (st.labels.map Prod.fst) n lines := by
  induction lines generalizing st n with
  | nil =>
    obtain rfl := Option.some.inj h
    exact hok
  | cons line lines ih =>
    obtain ⟨st₁, hline, hrest⟩ := Option.bind_eq_some_iff.mp h
    rw [assembleLine] at hline
    rw [firstError]
    cases ht : tokenizeLine line with
    | blank =>
      rw [ht] at hline
      obtain rfl := Option.some.inj hline
      exact ih hok hrest
    | overrun =>
      rw [ht] at hline
      exact absurd hline.symm (Option.some_ne_none _)
    | tokens t =>
      have harg := tokenizeLine_arg1_le ht
      rw [ht] at hline
      simp only at hline ⊢
      cases hread : readTokens t with
      | error e =>
        rw [hread] at hline
        obtain rfl := Option.some.inj hline
        exact assembleLines_failure_of_some (fail_of_none hok n e) hrest
      | ok item =>
        rw [hread] at hline
        obtain rfl := Option.some.inj hline
        cases item with
        | code i =>
          obtain ⟨hlabels, hfailure⟩ := put_code_fields st n i
          have hih := ih (hfailure.trans hok) hrest
          rw [hlabels] at hih
          exact hih
        | label name =>
          have hname : name.take 31 = name :=
            List.take_of_length_le (itemName_le hread harg)
          simp only [AssemblerState.put, AssemblerState.addLabel, findLabel_isSome_iff] at hrest
          simp only
          split at hrest
          · next hdup =>
            rw [if_pos (List.contains_iff_mem.mpr hdup)]
            exact assembleLines_failure_of_some (fail_of_none hok n _) hrest
          · next hnew =>
            rw [if_neg (mt List.contains_iff_mem.mp hnew), List.length_map]
            split at hrest
            · next hroom =>
              rw [if_pos hroom]
              have hih := ih (by exact hok) hrest
              rw [List.map_append, List.map_singleton, hname] at hih
              exact hih
            · next hfull =>
              rw [if_neg hfull]
              exact assembleLines_failure_of_some (fail_of_none hok n _) hrest

/-- Without labels that are too long, the first pass comes to its end. -/
theorem exists_assembleLines (h : ∀ line ∈ lines, tokenizeLine line ≠ .overrun) :
    ∃ st', assembleLines st n lines = some st' := by
  induction lines generalizing st n with
  | nil => exact ⟨st, rfl⟩
  | cons line lines ih =>
    obtain ⟨st₁, hline⟩ : ∃ st₁, assembleLine st n line = some st₁ := by
      rw [assembleLine]
      cases ht : tokenizeLine line with
      | blank => exact ⟨_, rfl⟩
      | overrun => exact absurd ht (h line List.mem_cons_self)
      | tokens t =>
        simp only
        split
        · exact ⟨_, rfl⟩
        · exact ⟨_, rfl⟩
    obtain ⟨st', hrest⟩ := @ih st₁ (n + 1) fun l hl => h l (List.mem_cons_of_mem _ hl)
    exact ⟨st', Option.bind_eq_some_iff.mpr ⟨st₁, hline, hrest⟩⟩

/-- The second pass complains of a jump. -/
theorem patchJumps_failed {labels : List (List UInt8 × ℕ)} {fixups : List JumpFixup}
    {text : List UInt8} {e : AsmError} (h : patchJumps labels fixups text = .failed e n) :
    e = .undefinedLabel ∨ e = .jumpTooFar := by
  induction fixups generalizing text with
  | nil => exact absurd h (by simp [patchJumps])
  | cons fx fixups ih =>
    rw [patchJumps] at h
    split at h
    · exact .inl (AsmResult.failed.inj h).1.symm
    · simp only at h
      split at h
      · exact .inr (AsmResult.failed.inj h).1.symm
      · split at h
        · exact ih h
        · exact absurd h (by simp)

/-- What the second pass makes of the first pass's result is what `asm_assemble` returns. -/
theorem asmAssemble_eq_finish {source : List UInt8}
    (h : assembleLines .empty 1 (sourceLines source) = some st) (outCapacity : ℕ) :
    asmAssemble source outCapacity = st.finish outCapacity := by
  rw [asmAssemble, h]

/-- Of a source without labels that are too long for their field: the error of `asm_assemble` is the
    first line of which the first pass complains, whatever else is wrong with the source; only a
    source without such a line gets an error of the second pass. -/
theorem asmAssemble_firstError {source : List UInt8}
    (h : ∀ line ∈ sourceLines source, tokenizeLine line ≠ .overrun) (outCapacity : ℕ) :
    (∀ n e, firstError [] 1 (sourceLines source) = some (n, e) →
      asmAssemble source outCapacity = .failed e n) ∧
    (firstError [] 1 (sourceLines source) = none →
      (∃ items, sourceItems source = some items) ∧
      ∀ n e, asmAssemble source outCapacity = .failed e n →
        e = .undefinedLabel ∨ e = .jumpTooFar ∨ e = .programTooLarge) := by
  obtain ⟨st, hlines⟩ := @exists_assembleLines .empty 1 _ h
  have hfirst := assembleLines_firstError rfl hlines
  have hasm := asmAssemble_eq_finish hlines outCapacity
  rw [AssemblerState.finish] at hasm
  refine ⟨?_, ?_⟩
  · intro n e hfail
    rw [hasm, hfirst.trans hfail]
  · intro hnone
    have hok : st.failure = none := hfirst.trans hnone
    obtain ⟨-, items, hitems, -⟩ := assembleLines_tracks hlines hok
    refine ⟨⟨items, hitems⟩, ?_⟩
    intro n e hfail
    rw [hasm, hok] at hfail
    simp only at hfail
    split at hfail
    · split at hfail
      · exact .inr (.inr (AsmResult.failed.inj hfail).1.symm)
      · exact absurd hfail (by simp)
    · exact (patchJumps_failed hfail).imp_right .inl

theorem asmAssemble_firstError_mov :
    asmAssemble (chars "ret\nmov rax\nfoo") 16 = .failed .movNeedsTwo 2 :=
  (@asmAssemble_firstError (chars "ret\nmov rax\nfoo") (by decide) 16).1 2 .movNeedsTwo (by decide)

end Errors

section Success

/-- What a source has to keep for the assembler to accept it: distinct labels that fit into their
    array, jumps to labels in reach, and room for the code. -/
structure Acceptable (items : List AsmItem) (outCapacity : ℕ) : Prop where
  labels_nodup : ((TwoPass.labels format 0 items).map Prod.fst).Nodup
  labels_le : (TwoPass.labels format 0 items).length ≤ maxLabels
  inReach : ∀ name next, (name, next) ∈ TwoPass.refs format 0 items →
    ∃ a, (name, a) ∈ TwoPass.labels format 0 items ∧ -128 ≤ (a : ℤ) - next ∧ (a : ℤ) - next ≤ 127
  code_le : (TwoPass.draft format items).length ≤ outCapacity

variable {st st' : AssemblerState} {n : ℕ} {items ys : List AsmItem} {item : AsmItem}

theorem put_failure (h : Tracks st items) (hok : st.failure = none)
    (hnodup : ((TwoPass.labels format 0 (items ++ [item])).map Prod.fst).Nodup)
    (hle : (TwoPass.labels format 0 (items ++ [item])).length ≤ maxLabels) :
    (st.put n item).failure = none := by
  cases item with
  | code i => exact (put_code_fields st n i).2.trans hok
  | label name =>
    rw [TwoPass.labels_append, ← h.labels] at hnodup hle
    have hnew : name ∉ st.labels.map Prod.fst := by
      rw [List.map_append] at hnodup
      exact fun hmem => List.disjoint_of_nodup_append hnodup hmem List.mem_cons_self
    have hroom : st.labels.length < maxLabels := by
      rw [List.length_append] at hle
      exact hle
    rw [AssemblerState.put, AssemblerState.addLabel,
      if_neg fun h => hnew (findLabel_isSome_iff.mp h), dif_pos hroom]
    exact hok

/-- The first pass accepts lines whose labels are distinct and fit into their array. -/
theorem assembleLines_accepts {lines : List (List UInt8)} (hitems : itemsOf lines = some ys)
    (h : Tracks st items) (hok : st.failure = none) (hfits : Fits (items ++ ys))
    (hnodup : ((TwoPass.labels format 0 (items ++ ys)).map Prod.fst).Nodup)
    (hle : (TwoPass.labels format 0 (items ++ ys)).length ≤ maxLabels) :
    ∃ st', assembleLines st n lines = some st' ∧ st'.failure = none ∧ Tracks st' (items ++ ys) := by
  induction lines generalizing st n items ys with
  | nil =>
    obtain rfl := Option.some.inj hitems
    refine ⟨st, rfl, hok, ?_⟩
    rw [List.append_nil]
    exact h
  | cons line lines ih =>
    rw [itemsOf] at hitems
    cases ht : tokenizeLine line with
    | blank =>
      rw [ht] at hitems
      obtain ⟨st', hlines, hrest⟩ := @ih st (n + 1) items ys hitems h hok hfits hnodup hle
      refine ⟨st', ?_, hrest⟩
      rw [assembleLines, assembleLine, ht]
      exact hlines
    | overrun =>
      rw [ht] at hitems
      exact absurd hitems.symm (Option.some_ne_none _)
    | tokens t =>
      rw [ht] at hitems
      simp only at hitems
      cases hread : readTokens t with
      | error e =>
        rw [hread] at hitems
        exact absurd hitems.symm (Option.some_ne_none _)
      | ok item =>
        rw [hread] at hitems
        obtain ⟨zs, hzs, rfl⟩ := Option.map_eq_some_iff.mp hitems
        rw [List.append_cons] at hfits hnodup hle ⊢
        have hnodup' := hnodup
        have hle' := hle
        rw [TwoPass.labels_append, List.map_append] at hnodup'
        rw [TwoPass.labels_append, List.length_append] at hle'
        have hput := put_failure (n := n) h hok hnodup'.of_append_left (by omega)
        have htracks := h.put (itemName_le hread (tokenizeLine_arg1_le ht)) hfits.left hput
        obtain ⟨st', hlines, hrest⟩ :=
          @ih (st.put n item) (n + 1) (items ++ [item]) zs hzs htracks hput hfits hnodup hle
        refine ⟨st', ?_, hrest⟩
        rw [assembleLines, assembleLine, ht]
        simp only [hread]
        exact hlines

/-- With distinct labels, a label is found at its address. -/
theorem findLabel_eq_some {labels : List (List UInt8 × ℕ)} {name : List UInt8} {a : ℕ}
    (hnodup : (labels.map Prod.fst).Nodup) (h : (name, a) ∈ labels) :
    findLabel labels name = some a := by
  obtain ⟨b, hb⟩ := Option.isSome_iff_exists.mp
    (findLabel_isSome_iff.mpr (List.mem_map_of_mem h : name ∈ labels.map Prod.fst))
  have heq := List.inj_on_of_nodup_map hnodup (mem_of_findLabel hb) h rfl
  exact hb.trans (congrArg some (Prod.mk.inj heq).2)

/-- The second pass accepts jumps to labels in reach. -/
theorem patchJumps_accepts {labels : List (List UInt8 × ℕ)} {fixups : List JumpFixup}
    (h : ∀ fx ∈ fixups, fx.patchOffset < codeBufSize ∧ ∃ a, findLabel labels fx.label = some a ∧
      -128 ≤ (a : ℤ) - fx.nextInstrOffset ∧ (a : ℤ) - fx.nextInstrOffset ≤ 127)
        (text : List UInt8) :
    ∃ code, patchJumps labels fixups text = .assembled code := by
  induction fixups generalizing text with
  | nil => exact ⟨text, rfl⟩
  | cons fx fixups ih =>
    obtain ⟨hpatch, a, hfind, hlow, hhigh⟩ := h fx List.mem_cons_self
    obtain ⟨code, hcode⟩ := ih (fun fx' hfx' => h fx' (List.mem_cons_of_mem _ hfx'))
      (text.set fx.patchOffset ⟨BitVec.ofInt 8 ((a : ℤ) - fx.nextInstrOffset)⟩)
    refine ⟨code, ?_⟩
    rw [patchJumps, hfind]
    simp only
    rw [if_neg (by omega), if_pos hpatch]
    exact hcode

/-- What both passes accept has distinct labels and jumps in reach. -/
theorem Tracks.acceptable {outCapacity : ℕ} {code : List UInt8} (h : Tracks st items)
    (hpatch : patchJumps st.labels st.fixups st.code = .assembled code)
    (hcap : code.length ≤ outCapacity) : Acceptable items outCapacity := by
  have hlinked := h.linked hpatch
  obtain ⟨-, hrange⟩ := patchJumps_assembled h.patches hpatch
  refine ⟨hlinked.labels_nodup, h.labels ▸ st.labels_le, ?_, ?_⟩
  · intro name next hmem
    rw [← h.fixups] at hmem
    obtain ⟨fx, hfx, hpair⟩ := List.mem_map.mp hmem
    obtain ⟨rfl, rfl⟩ := Prod.mk.inj hpair
    obtain ⟨a, hfind, hreach⟩ := hrange fx hfx
    rw [h.labels] at hfind
    exact ⟨a, mem_of_findLabel hfind, hreach⟩
  · have hlen := congrArg List.length hlinked.text
    rw [TwoPass.length_link] at hlen
    exact hlen ▸ hcap

/-- The second pass finds the label of every jump, and the label is in reach. -/
theorem Tracks.exists_patched {outCapacity : ℕ} (h : Tracks st items) (hfits : Fits items)
    (hacc : Acceptable items outCapacity) :
    ∃ code, patchJumps st.labels st.fixups st.code = .assembled code := by
  refine patchJumps_accepts ?_ st.code
  intro fx hfx
  have hmem : (fx.label, fx.nextInstrOffset) ∈ TwoPass.refs format 0 items := by
    rw [← h.fixups]
    exact List.mem_map_of_mem hfx
  obtain ⟨a, ha, hreach⟩ := hacc.inReach _ _ hmem
  have hnext := TwoPass.le_of_mem_refs hmem
  have hpatch := h.patches fx hfx
  have hcode := hfits.code_le
  refine ⟨by omega, a, ?_, hreach⟩
  rw [h.labels]
  exact findLabel_eq_some hacc.labels_nodup ha

/-- `asm_assemble` accepts a source exactly when its labels are distinct and fit into their array,
    its jumps are to labels in reach, and its code fits into the output. -/
theorem asmAssemble_accepts_iff {source : List UInt8} (hitems : sourceItems source = some items)
    (hfits : Fits items) (outCapacity : ℕ) :
    (∃ code, asmAssemble source outCapacity = .assembled code) ↔ Acceptable items outCapacity := by
  constructor
  · rintro ⟨code, h⟩
    obtain ⟨st, hlines, hfinish⟩ := exists_of_assembled h
    obtain ⟨hok, hpatch, hcap⟩ := finish_eq_assembled_iff.mp hfinish
    obtain ⟨-, ys, hys, htracks⟩ := assembleLines_tracks hlines hok
    obtain rfl := Option.some.inj (hys.symm.trans hitems)
    exact (htracks [] tracks_empty hfits).acceptable hpatch hcap
  · intro h
    obtain ⟨st, hlines, hok, ht⟩ := @assembleLines_accepts .empty 1 [] items _ hitems tracks_empty
      rfl hfits h.labels_nodup h.labels_le
    rw [List.nil_append] at ht
    obtain ⟨code, hpatch⟩ := ht.exists_patched hfits h
    have hlen := congrArg List.length (ht.linked hpatch).text
    rw [TwoPass.length_link] at hlen
    have hcap : code.length ≤ outCapacity := hlen ▸ h.code_le
    refine ⟨code, ?_⟩
    rw [asmAssemble_eq_finish hlines]
    exact finish_eq_assembled_iff.mpr ⟨hok, hpatch, hcap⟩

theorem asmAssemble_accepts_iff_loop :
    (∃ code, asmAssemble (chars "a:\njmp a") 16 = .assembled code) ↔
      Acceptable [.label (chars "a"), .code (.jump .always (chars "a"))] 16 :=
  asmAssemble_accepts_iff rfl ⟨by decide, by decide⟩ 16

end Success

end AuroraOS.Asm
