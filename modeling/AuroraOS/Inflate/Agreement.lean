import AuroraOS.Inflate.Parse
import AuroraOS.Inflate.Sizes

/-!
# The two models of the decompressor

The model with positions of 32 bits and a log, and the model with unbounded positions: as long as no
sum wraps around, they read the same bits and come to the same output, or both to an error.

## Main definitions

- `toReader` — the bit reader with its data
- `Simulates` — a function that may fail, in both models
- `Mirrors` — a function that does not fail, in both models

## Main results

- `inflateBlockHuffman_simulates`, `inflateBlocks_simulates`
- `inflateRaw_value_eq`
-/

namespace AuroraOS.Inflate.Traced

set_option maxRecDepth 4096

open AuroraOS.Lib AuroraOS.Lib.Logged

/-- No sum wraps around. -/
def NoWrap : Event → Prop
  | .sum n => n < 2 ^ 32
  | _ => True

/-- The bit reader with its data. -/
def toReader (data : List UInt8) (br : BitPos) : BitReader :=
  ⟨data, br.bytePos, br.bitPos, br.bitPos_lt⟩

variable {α : Type} (data : List UInt8) {outMax : ℕ} {br : BitPos}

/-- Where the function of the one model returns a value, the function of the other does; where it
    fails, the other fails. -/
def Simulates (p : Logged Event (α × BitPos)) (m : Except InflateError (α × BitReader)) : Prop :=
  Settles NoWrap p (fun r => m = .ok (r.1, toReader data r.2)) (∃ e, m = .error e)

/-- A function that does not fail. -/
def Mirrors (p : Logged Event (α × BitPos)) (m : α × BitReader) : Prop :=
  Settles NoWrap p (fun r => m = (r.1, toReader data r.2)) False

theorem add_settles (m n : ℕ) : Settles NoWrap (add m n) (fun r => r.1 = m + n) False := by
  intro h
  refine ⟨fun r hr => ?_, fun hnone => absurd hnone (by rw [value_add]; simp)⟩
  obtain rfl := Option.some.inj hr
  exact Nat.mod_eq_of_lt (h _ (mem_log_bind.mpr (Or.inl (List.mem_singleton_self _))))

theorem value_peekBit_reader (br : BitPos) :
    (peekBit data data.length br).value = some (toReader data br).bit := by
  change _ = some (if br.bytePos < data.length then _ else 0)
  rw [peekBit]
  split
  · next hlt => exact value_bind_eq_some.mpr ⟨_, readByte_value_iff.mpr ⟨hlt, rfl⟩, rfl⟩
  · rfl

/-- A reader is given by its position. -/
theorem toReader_eq {br : BitPos} {r : BitReader} (hdata : r.data = data)
    (hbyte : r.bytePos = br.bytePos) (hbit : r.bitPos = br.bitPos) : r = toReader data br := by
  obtain ⟨rdata, bytePos, bitPos, hlt⟩ := r
  dsimp only at hdata hbyte hbit
  subst hdata hbyte hbit
  rfl

theorem advance_settles (br : BitPos) :
    Settles NoWrap (advance br) (fun r => (toReader data br).next = toReader data r) False := by
  by_cases hlast : br.bitPos + 1 = 8
  · have hnext : (toReader data br).next = ⟨data, br.bytePos + 1, 0, by decide⟩ := dif_pos hlast
    rw [advance, dif_pos hlast, hnext]
    exact Settles.bind (add_settles _ _) fun r hr => Settles.pure (toReader_eq data rfl hr.symm rfl)
  · have hnext : (toReader data br).next = ⟨data, br.bytePos, br.bitPos + 1, _⟩ := dif_neg hlast
    rw [advance, dif_neg hlast, hnext]
    exact Settles.pure rfl

theorem brReadBitsLoop_mirrors (n i result : ℕ) (br : BitPos) :
    Mirrors data (brReadBitsLoop data data.length n i result br)
      (Inflate.brReadBitsLoop n i result (toReader data br)) := by
  induction n generalizing i result br with
  | zero => exact Settles.pure rfl
  | succ n ih =>
    refine Settles.step rfl (Settles.step (value_peekBit_reader data br) ?_)
    refine Settles.bind (advance_settles data br) fun br' hnext => ?_
    rw [Inflate.brReadBitsLoop, hnext]
    exact ih _ _ br'

theorem brReadBits_mirrors (br : BitPos) (n : ℕ) :
    Mirrors data (brReadBits data data.length br n) (Inflate.brReadBits (toReader data br) n) :=
  brReadBitsLoop_mirrors data n 0 0 br

theorem huffmanDecodeLoop_mirrors (t : HuffmanTable) (n len code : ℕ) (br : BitPos) :
    Mirrors data (huffmanDecodeLoop data data.length t n len code br)
      (Inflate.huffmanDecodeLoop t n len code (toReader data br)) := by
  induction n generalizing len code br with
  | zero => exact Settles.pure rfl
  | succ n ih =>
    refine Settles.bind (brReadBits_mirrors data br 1) fun bit hbit => ?_
    refine Settles.step rfl ?_
    rw [Inflate.huffmanDecodeLoop, hbit]
    cases huffmanSearch t len (((code <<< 1) ||| bit.1) % 2 ^ 16) with
    | some sym => exact Settles.pure rfl
    | none => exact ih _ _ bit.2

theorem huffmanDecode_mirrors (t : HuffmanTable) (br : BitPos) :
    Mirrors data (huffmanDecode data data.length t br)
      (Inflate.huffmanDecode t (toReader data br)) :=
  huffmanDecodeLoop_mirrors data t _ _ _ br

theorem readClLengths_mirrors {n i : ℕ} (hi : i + n ≤ 19) (clLengths : List ℕ) (br : BitPos) :
    Mirrors data (readClLengths data data.length n i clLengths br)
      (Inflate.readClLengths ((codeLengthOrder.drop i).take n) clLengths (toReader data br)) := by
  induction n generalizing i clLengths br with
  | zero => exact Settles.pure rfl
  | succ n ih =>
    have horder : i < codeLengthOrder.length := by
      have hlen : codeLengthOrder.length = 19 := rfl
      omega
    rw [List.drop_eq_getElem_cons horder, List.take_succ_cons, Inflate.readClLengths]
    refine Settles.bind (brReadBits_mirrors data br 3) fun r hr => ?_
    refine Settles.step (value_access (by rw [Table.size]; omega)) ?_
    refine Settles.step (value_access (codeLengthOrder_lt (by omega))) ?_
    rw [hr, List.getD_eq_getElem _ _ horder]
    exact ih (by omega) _ r.2

theorem storeSymbol_settles {total sym : ℕ} {all : List ℕ} (hall : all.length ≤ allLengthsSize)
    (hprevious : ¬ (sym = 16 ∧ all = [])) {extra : ℕ × BitReader}
    (hextra : Inflate.brReadBits (toReader data br) (repeatOf sym all).2.2 = extra) :
    Settles NoWrap (storeSymbol data data.length total sym all br)
      (fun r => r.1 =
        storeLengths total (repeatOf sym all).1 ((repeatOf sym all).2.1 + extra.1) all ∧
        r.1.length ≤ allLengthsSize ∧ extra.2 = toReader data r.2)
      (allLengthsSize < (storeLengths total (repeatOf sym all).1
        ((repeatOf sym all).2.1 + extra.1) all).length) := by
  refine Settles.step (require_value hprevious) ?_
  refine Settles.after (brReadBits_mirrors data br _) fun v hv => ?_
  obtain rfl := hextra.symm.trans hv
  refine Settles.step (value_readPrevious hprevious hall) ?_
  have hstore : Settles NoWrap (storeLoop total (repeatOf sym all).1
      ((repeatOf sym all).2.1 + v.1) all) (fun r => r = storeLengths total (repeatOf sym all).1
        ((repeatOf sym all).2.1 + v.1) all ∧ r.length ≤ allLengthsSize)
      (allLengthsSize < (storeLengths total (repeatOf sym all).1
        ((repeatOf sym all).2.1 + v.1) all).length) := by
    refine fun _ => ⟨fun r => (storeLoop_value_iff hall).mp, fun hnone => ?_⟩
    by_contra hfits
    have hvalue := (storeLoop_value_iff hall).mpr ⟨rfl, Nat.le_of_not_lt hfits⟩
    exact absurd (hnone.symm.trans hvalue) (by simp)
  exact Settles.bind hstore fun r hr => Settles.pure ⟨hr.1, hr.2, rfl⟩

theorem readLengths_simulates (t : HuffmanTable) {total fuel : ℕ} {all : List ℕ}
    (hall : all.length ≤ allLengthsSize) (hfuel : total - all.length ≤ fuel) (br : BitPos) :
    Simulates data (readLengths data data.length t total fuel all br)
      (Inflate.readLengths t total all (toReader data br)) := by
  induction fuel generalizing all br with
  | zero =>
    rw [readLengths, if_pos (by omega), Inflate.readLengths, if_pos (by omega)]
    exact Settles.pure rfl
  | succ fuel ih =>
    rw [readLengths, Inflate.readLengths]
    split
    · exact Settles.pure rfl
    · next hroom =>
      refine Settles.after (huffmanDecode_mirrors data t br) fun s hs => ?_
      rw [hs]
      cases s with
      | mk decoded br' =>
      cases decoded with
      | none => exact Settles.fail ⟨_, rfl⟩
      | some sym =>
        dsimp only
        split
        · next hprevious =>
          refine Settles.bind (Q := fun _ => False) ?_ fun _ => False.elim
          exact Settles.require (fun h => absurd hprevious h) fun _ => ⟨_, rfl⟩
        · next hprevious =>
          have hstore := @storeSymbol_settles data br' total sym all hall hprevious _ rfl
          split
          · next hover =>
            refine Settles.bind (hstore.or_fail fun _ => ⟨_, rfl⟩) fun r hr => ?_
            exact absurd hr.2.1 (Nat.not_le_of_lt (hr.1 ▸ hover))
          · next hfits =>
            refine Settles.bind (hstore.or_fail fun hover => absurd hover hfits) fun r hr => ?_
            obtain ⟨hlengths, hle, hreader⟩ := hr
            have hgrows := @length_lt_storeLengths total (repeatOf sym all).1
              ((repeatOf sym all).2.1 + (Inflate.brReadBits (toReader data br')
                (repeatOf sym all).2.2).1) all (by omega) (by have := repeatOf_pos sym all; omega)
            rw [← hlengths] at hgrows ⊢
            rw [hreader]
            exact ih hle (by omega) r.2

theorem readDynamicHuffmanTables_settles (br : BitPos) :
    Settles NoWrap (readDynamicHuffmanTables data data.length br)
      (fun r => Inflate.readDynamicHuffmanTables (toReader data br) =
        .ok (r.1.1, r.1.2, toReader data r.2))
      (∃ e, Inflate.readDynamicHuffmanTables (toReader data br) = .error e) := by
  generalize hm : Inflate.readDynamicHuffmanTables (toReader data br) = m
  simp only [Inflate.readDynamicHuffmanTables] at hm
  have hcounts : Settles NoWrap (readCounts data data.length br) (fun r =>
      ∃ hlit hdist hclen : ℕ × BitPos,
        Inflate.brReadBits (toReader data br) 5 = (hlit.1, toReader data hlit.2) ∧
        Inflate.brReadBits (toReader data hlit.2) 5 = (hdist.1, toReader data hdist.2) ∧
        Inflate.brReadBits (toReader data hdist.2) 4 = (hclen.1, toReader data hclen.2) ∧
        hclen.1 < 2 ^ 4 ∧ r = ((hlit.1 + 257, hdist.1 + 1, hclen.1 + 4), hclen.2)) False := by
    refine Settles.bind (brReadBits_mirrors data br 5) fun hlit hhlit => ?_
    refine Settles.bind (brReadBits_mirrors data hlit.2 5) fun hdist hhdist => ?_
    have hclen : Ensures NoWrap (InTables) (brReadBits data data.length hdist.2 4)
        (ReadsBits data.length NoWrap hdist.2 4) := brReadBits_ensures (tolerates_inTables _) 4
    refine Settles.bind ((brReadBits_mirrors data hdist.2 4).ensured hclen) fun hclen hhclen => ?_
    exact Settles.pure ⟨_, _, _, hhlit, hhdist, hhclen.1, hhclen.2.lt, rfl⟩
  refine Settles.after hcounts fun counts hcounts => ?_
  obtain ⟨hlit, hdist, hclen, hhlit, hhdist, hhclen, hle, rfl⟩ := hcounts
  simp only [hhlit, hhdist, hhclen] at hm
  refine Settles.after (readClLengths_mirrors data (i := 0) (by omega) _ _) fun cl hcl => ?_
  rw [List.drop_zero] at hcl
  simp only [hcl] at hm
  refine Settles.step rfl (Settles.step rfl ?_)
  have hlengths := readLengths_simulates data (huffmanBuild cl.1)
    (show ([] : List ℕ).length ≤ allLengthsSize from Nat.zero_le _)
    (Nat.sub_le (hlit.1 + 257 + (hdist.1 + 1)) 0) cl.2
  refine Settles.bind (hlengths.or_fail ?_) fun all hall => ?_
  · rintro ⟨e, he⟩
    rw [he] at hm
    exact ⟨e, hm.symm⟩
  · rw [hall] at hm
    exact Settles.step rfl (Settles.step rfl (Settles.pure hm.symm))

theorem copyLoop_settles {n src : ℕ} {out : List UInt8} (hroom : out.length + n ≤ outMax) :
    (copyLoop outMax n src out).value = some (Inflate.copyLoop n src out) :=
  (copyLoop_value_iff (by omega)).mpr ⟨rfl, hroom⟩

/-- The source goes on behind a back-reference. -/
theorem backReference_settles {lit dist : HuffmanTable} {sym : ℕ} {out : List UInt8}
    {r : BitReader} (hdecode : Inflate.huffmanDecode lit r = (some sym, toReader data br))
    (hliteral : ¬ sym < 256) (hend : sym ≠ 256) :
    Settles NoWrap (backReference data data.length outMax dist sym out br)
      (fun s => Inflate.inflateBlockHuffman lit dist outMax out r =
          Inflate.inflateBlockHuffman lit dist outMax s.1 (toReader data s.2) ∧
        out.length < s.1.length ∧ s.1.length ≤ outMax)
      (∃ e, Inflate.inflateBlockHuffman lit dist outMax out r = .error e) := by
  generalize hm : Inflate.inflateBlockHuffman lit dist outMax out r = m
  rw [Inflate.inflateBlockHuffman, hdecode] at hm
  dsimp only at hm
  rw [if_neg hliteral, if_neg hend] at hm
  refine Settles.require (fun hsym => ?_) fun hsym => ⟨_, (hm.symm.trans (if_pos (by omega)))⟩
  rw [if_neg (by omega)] at hm
  refine Settles.after (brReadBits_mirrors data br _) fun lengthExtra hlength => ?_
  refine Settles.after (huffmanDecode_mirrors data dist lengthExtra.2) fun d hd => ?_
  rw [hlength, hd] at hm
  obtain ⟨decoded, br'⟩ := d
  cases decoded with
  | none => exact Settles.fail ⟨_, hm.symm⟩
  | some distSym =>
    refine Settles.require (fun hdist => ?_) fun hdist => ⟨_, hm.symm.trans (if_pos (by omega))⟩
    dsimp only at hm
    rw [if_neg (by omega)] at hm
    refine Settles.after (brReadBits_mirrors data br' _) fun distExtra hdistance => ?_
    rw [hdistance] at hm
    refine Settles.require (fun hback => ?_)
      fun hback => ⟨_, hm.symm.trans (if_pos (Decidable.not_not.mp hback))⟩
    dsimp only at hm
    rw [if_neg hback] at hm
    refine Settles.after (add_settles _ _) fun outEnd hout => ?_
    refine Settles.require (fun hroom => ?_) fun hroom => ⟨_, hm.symm.trans (if_pos (by omega))⟩
    rw [if_neg (by omega)] at hm
    refine Settles.step (copyLoop_settles (by omega)) (Settles.pure ⟨hm.symm, ?_⟩)
    have hpos := @lengthBase_pos (sym - 257) (by omega)
    rw [length_copyLoop]
    omega

theorem inflateBlockHuffman_simulates (lit dist : HuffmanTable) {fuel : ℕ} {out : List UInt8}
    (hout : out.length ≤ outMax) (hfuel : outMax - out.length < fuel) (br : BitPos) :
    Simulates data (inflateBlockHuffman data data.length outMax lit dist fuel out br)
      (Inflate.inflateBlockHuffman lit dist outMax out (toReader data br)) := by
  induction fuel generalizing out br with
  | zero => omega
  | succ fuel ih =>
    refine Settles.after (huffmanDecode_mirrors data lit br) fun s hs => ?_
    obtain ⟨decoded, br'⟩ := s
    cases decoded with
    | none =>
      rw [Inflate.inflateBlockHuffman, hs]
      exact Settles.fail ⟨_, rfl⟩
    | some sym =>
      by_cases hliteral : sym < 256
      · dsimp only
        rw [if_pos hliteral, Inflate.inflateBlockHuffman, hs]
        dsimp only
        rw [if_pos hliteral]
        refine Settles.require (fun hroom => ?_) fun hfull => ⟨_, if_pos (Nat.le_of_not_lt hfull)⟩
        rw [if_neg (Nat.not_le_of_lt hroom)]
        refine Settles.step (emit_value_iff.mpr ⟨rfl, hroom⟩) (ih ?_ ?_ br')
        · rw [List.length_append]
          exact hroom
        · rw [List.length_append, List.length_singleton]
          omega
      · by_cases hend : sym = 256
        · dsimp only
          rw [if_neg hliteral, if_pos hend, Inflate.inflateBlockHuffman, hs]
          dsimp only
          rw [if_neg hliteral, if_pos hend]
          exact Settles.pure rfl
        · dsimp only
          rw [if_neg hliteral, if_neg hend]
          refine Settles.bind (backReference_settles data hs hliteral hend) fun r hr => ?_
          obtain ⟨hrest, hgrows, hle⟩ := hr
          rw [hrest]
          exact ih hle (by omega) r.2

theorem brAlignToByte_settles (br : BitPos) :
    Settles NoWrap (brAlignToByte br)
      (fun r => Inflate.brAlignToByte (toReader data br) = toReader data r) False := by
  by_cases hbit : br.bitPos ≠ 0
  · have halign : Inflate.brAlignToByte (toReader data br) =
        ⟨data, br.bytePos + 1, 0, by decide⟩ := if_pos hbit
    rw [brAlignToByte, if_pos hbit, halign]
    exact Settles.bind (add_settles _ _) fun r hr => Settles.pure (toReader_eq data rfl hr.symm rfl)
  · have halign : Inflate.brAlignToByte (toReader data br) = toReader data br := if_neg hbit
    rw [brAlignToByte, if_neg hbit, halign]
    exact Settles.pure rfl

theorem value_readPair {i : ℕ} (hi : i + 2 ≤ data.length) (hwrap : i + 1 < 2 ^ 32) :
    (readPair data i).value =
      some ((data.getD i 0).toNat ||| ((data.getD (i + 1) 0).toNat <<< 8)) := by
  refine readPair_value_iff.mpr ⟨⟨by omega, by omega⟩, ?_⟩
  rw [pairAt, byteAt, byteAt, Nat.mod_eq_of_lt (by omega), Nat.mod_eq_of_lt hwrap]

theorem inflateStored_simulates {out : List UInt8} (hout : out.length ≤ outMax) (br : BitPos) :
    Simulates data (inflateStored data data.length outMax out br)
      (Inflate.inflateStored outMax out (toReader data br)) := by
  generalize hm : Inflate.inflateStored outMax out (toReader data br) = m
  simp only [Inflate.inflateStored] at hm
  refine Settles.after (brAlignToByte_settles data br) fun br' hbr' => ?_
  rw [hbr'] at hm
  refine Settles.after (add_settles _ _) fun start hstart => ?_
  have hwrap := start.2
  have hlen : (toReader data br').data.length = data.length := rfl
  have hbyte : (toReader data br').bytePos = br'.bytePos := rfl
  refine Settles.require (fun hheader => ?_) fun hheader => ⟨_, hm.symm.trans (if_pos (by omega))⟩
  rw [if_neg (by omega)] at hm
  refine Settles.step (value_readPair data (by omega) (by omega)) ?_
  refine Settles.step (value_readPair data (by omega) (by omega)) ?_
  refine Settles.require (fun hcomplement => ?_)
    fun hcomplement => ⟨_, hm.symm.trans (if_pos hcomplement)⟩
  replace hm := (if_neg (not_not_intro hcomplement)).symm.trans hm
  refine Settles.after (add_settles _ _) fun stop hstop => ?_
  rw [hstart] at hstop
  refine Settles.require (fun hinside => ?_) fun hinside => ?_
  · replace hm := (if_neg (Nat.not_lt.mpr (hstop.symm.trans_le hinside))).symm.trans hm
    refine Settles.after (add_settles _ _) fun outEnd hend => ?_
    refine Settles.require (fun hroom => ?_) fun hroom => ?_
    · replace hm := (if_neg (Nat.not_lt.mpr (hend.symm.trans_le hroom))).symm.trans hm
      have hbytes := (storedLoop_value_iff hheader hout).mpr
        ⟨(hstart ▸ hstop.symm).trans_le hinside, hend.symm.trans_le hroom, rfl⟩
      refine Settles.step hbytes (Settles.pure (hm.symm.trans ?_))
      rw [hstart]
      exact congrArg _ (Prod.ext rfl (toReader_eq data rfl hstop.symm rfl))
    · exact ⟨_, hm.symm.trans (if_pos ((Nat.lt_of_not_le hroom).trans_eq hend))⟩
  · exact ⟨_, hm.symm.trans (if_pos ((Nat.lt_of_not_le hinside).trans_eq hstop))⟩

theorem inflateBlock_simulates {fuel btype : ℕ} {out : List UInt8} (hout : out.length ≤ outMax)
    (hfuel : outMax < fuel) (br : BitPos) :
    Simulates data (inflateBlock data data.length outMax fuel btype out br)
      (Inflate.inflateBlock outMax btype out (toReader data br)) := by
  rw [inflateBlock, Inflate.inflateBlock]
  split
  · exact inflateStored_simulates data hout br
  · split
    · refine Settles.step rfl ?_
      exact inflateBlockHuffman_simulates data _ _ hout (by omega) br
    · split
      · refine Settles.bind ((readDynamicHuffmanTables_settles data br).or_fail ?_)
          fun tables htables => ?_
        · rintro ⟨e, he⟩
          rw [he]
          exact ⟨e, rfl⟩
        · rw [htables]
          exact inflateBlockHuffman_simulates data _ _ hout (by omega) tables.2
      · exact Settles.fail ⟨_, rfl⟩

theorem inflateBlockHuffman_length_le {lit dist : HuffmanTable} {out out' : List UInt8}
    {r r' : BitReader} (hout : out.length ≤ outMax)
    (h : Inflate.inflateBlockHuffman lit dist outMax out r = .ok (out', r')) :
    out'.length ≤ outMax := by
  fun_induction Inflate.inflateBlockHuffman lit dist outMax out r with
  | case3 out r sym r₁ hdec hlit hroom ih =>
    apply ih _ h
    rw [List.length_append, List.length_singleton]
    omega
  | case4 out r r₁ hdec =>
    obtain ⟨rfl, -⟩ := Prod.mk.inj (Except.ok.inj h)
    exact hout
  | case10 out r sym r₁ _ _ _ _ lengthExtra length distSym r₂ _ _ distExtra distance _ hroom ih =>
    apply ih _ h
    rw [length_copyLoop]
    omega
  | _ => exact absurd h (by simp)

theorem inflateBlock_length_le {btype : ℕ} {out out' : List UInt8} {r r' : BitReader}
    (hout : out.length ≤ outMax)
    (h : Inflate.inflateBlock outMax btype out r = .ok (out', r')) : out'.length ≤ outMax := by
  rw [Inflate.inflateBlock] at h
  split at h
  · simp only [Inflate.inflateStored] at h
    split at h
    · exact absurd h (by simp)
    · split at h
      · exact absurd h (by simp)
      · split at h
        · exact absurd h (by simp)
        · split at h
          · exact absurd h (by simp)
          · next hroom =>
            obtain ⟨rfl, -⟩ := Prod.mk.inj (Except.ok.inj h)
            rw [List.length_append]
            refine le_trans ?_ (Nat.le_of_not_lt hroom)
            exact Nat.add_le_add_left (List.length_take_le _ _) _
  · split at h
    · exact inflateBlockHuffman_length_le hout h
    · split at h
      · split at h
        · exact absurd h (by simp)
        · exact inflateBlockHuffman_length_le hout h
      · exact absurd h (by simp)

/-- Each block takes bits off the data, so the loop ends. -/
theorem inflateBlocks_simulates {fuel blocks : ℕ} {out : List UInt8} (hout : out.length ≤ outMax)
    (hfuel : outMax < fuel) (br : BitPos)
    (hblocks : 8 * data.length - (toReader data br).pos < blocks) :
    Settles NoWrap (inflateBlocks data data.length outMax fuel blocks out br)
      (fun r => Inflate.inflateBlocks outMax out (toReader data br) = .ok r)
      (∃ e, Inflate.inflateBlocks outMax out (toReader data br) = .error e) := by
  induction blocks generalizing out br with
  | zero => omega
  | succ blocks ih =>
    generalize hm : Inflate.inflateBlocks outMax out (toReader data br) = m
    rw [Inflate.inflateBlocks] at hm
    refine Settles.after (brReadBits_mirrors data br 1) fun final hfinal => ?_
    refine Settles.after (brReadBits_mirrors data final.2 2) fun btype hbtype => ?_
    have hblock := @inflateBlock_simulates data outMax fuel btype.1 out hout hfuel btype.2
    split at hm
    · next e he =>
      rw [hfinal, hbtype] at he
      refine Settles.bind (hblock.or_fail fun _ => ⟨e, hm.symm⟩) fun r hr => ?_
      exact absurd (he.symm.trans hr) (by simp)
    · next out' br' hok =>
      have hlt := inflateBlock_lt hok
      rw [hfinal, hbtype] at hok
      refine Settles.bind (hblock.or_fail ?_) fun r hr => ?_
      · rintro ⟨e, he⟩
        exact absurd (hok.symm.trans he) (by simp)
      · obtain ⟨rfl, rfl⟩ := Prod.mk.inj (Except.ok.inj (hok.symm.trans hr))
        rw [hfinal] at hm
        dsimp only at hm ⊢
        split
        · next hlast => exact Settles.pure (hm.symm.trans (if_pos hlast))
        · next hmore =>
          rw [if_neg hmore] at hm
          rw [← hm]
          have hdata : (toReader data r.2).data.length = data.length := rfl
          have hdata' : (toReader data br).data.length = data.length := rfl
          exact ih (inflateBlock_length_le hout hr) r.2 (by omega)

/-- As long as no sum wraps around, both models come to the same output, or both to an error. -/
theorem inflateRaw_value_eq {fuel : ℕ} (hfuel : 8 * data.length + outMax < fuel)
    (hsums : ∀ n, .sum n ∈ (inflateRaw data data.length outMax fuel).log → n < 2 ^ 32) :
    (inflateRaw data data.length outMax fuel).value =
    (Inflate.inflateRaw data outMax).toOption := by
  have hlog : ∀ e ∈ (inflateRaw data data.length outMax fuel).log, NoWrap e := by
    intro e he
    cases e with
    | sum n => exact hsums n he
    | _ => trivial
  have hpos : (toReader data brInit).pos = 0 := rfl
  obtain ⟨hvalue, hfail⟩ := inflateBlocks_simulates data (Nat.zero_le outMax)
    (show outMax < fuel by omega) brInit
    (show 8 * data.length - (toReader data brInit).pos < fuel by omega) hlog
  cases h : (inflateRaw data data.length outMax fuel).value with
  | none =>
    obtain ⟨e, he⟩ := hfail h
    exact (congrArg Except.toOption he).symm
  | some out => exact (congrArg Except.toOption (hvalue out h)).symm

end AuroraOS.Inflate.Traced
