import AuroraOS.Inflate.TableBounds

/-!
# Termination and bounds of the decompressor

Past the end of the data the bit reader goes on with zeros. A block cannot start there: its type
would be that of a stored block, which does not fit. Inside a block every symbol but the last one
makes the output longer. So the decompressor terminates, within its bounds, as long as no sum of
positions or lengths wraps around.

## Main definitions

- `Fits` — no sum wraps around, and no header asks for more lengths than there is room for
- `Confined` — an event inside the data, the output and the tables

## Main results

- `inflateBlockHuffman_ensures`, `inflateStored_ensures`
- `inflateRaw_ensures`
-/

namespace AuroraOS.Inflate.Traced

set_option maxRecDepth 16384

open AuroraOS.Lib AuroraOS.Lib.Logged

/-- No sum wraps around, and no header asks for more than 318 code lengths. -/
def Fits : Event → Prop
  | .sum n => n < 2 ^ 32
  | .header total => total ≤ allLengthsSize
  | _ => True

/-- What is read and written is there, and no loop is cut off. -/
def Confined (len outMax : ℕ) : Event → Prop
  | .data i | .stored i => i < len
  | .back i written => i < written
  | .write i => i < outMax
  | .array a i => i < a.size
  | .bit _ | .sum _ | .header _ => True
  | .exhausted => False

instance : DecidablePred Fits
  | .sum n => inferInstanceAs (Decidable (n < 2 ^ 32))
  | .header total => inferInstanceAs (Decidable (total ≤ allLengthsSize))
  | .bit _ | .data _ | .stored _ | .back _ _ | .write _ | .array _ _ | .exhausted => isTrue trivial

variable {data : List UInt8} {len outMax : ℕ} {br : BitPos}

theorem tolerates_confined (len outMax : ℕ) : Tolerates len (Confined len outMax) :=
  ⟨fun _ => trivial, fun _ h => h, fun _ => trivial, fun _ _ h => h⟩

theorem sumsFit_fits : SumsFit Fits := fun _ h => h

theorem emit_ensures {value : UInt8} {out : List UInt8} (h : out.length < outMax) :
    Ensures Fits (Confined len outMax) (emit outMax value out) fun r => r = out ++ [value] := by
  have hwrite : Confined len outMax (.write out.length) := h
  refine Ensures.bind (Ensures.tell fun _ => hwrite) fun _ _ => ?_
  refine Ensures.bind Ensures.require fun _ _ => ?_
  exact Ensures.pure rfl

/-- A back-reference reads bytes that are written already. -/
theorem copyLoop_ensures {n src : ℕ} {out : List UInt8} (hsrc : src < out.length)
    (hroom : out.length + n ≤ outMax) :
    Ensures Fits (Confined len outMax) (copyLoop outMax n src out) fun r =>
      r.length = out.length + n := by
  induction n generalizing src out with
  | zero => exact Ensures.pure rfl
  | succ n ih =>
    refine Ensures.bind (Ensures.tell fun _ => hsrc) fun _ _ => ?_
    refine Ensures.bind (emit_ensures (by omega)) fun r hr => ?_
    have hlen : r.length = out.length + 1 := by
      rw [hr, List.length_append, List.length_singleton]
    refine (ih (by omega) (by omega)).weaken fun s hs => ?_
    rw [hs, hlen]
    omega

theorem backReference_ensures {dist : HuffmanTable} (hdist : dist.lengths.length ≤ 288) (sym : ℕ)
    (out : List UInt8) :
    Ensures Fits (Confined len outMax) (backReference data len outMax dist sym out br)
      fun r => out.length < r.1.length ∧ r.1.length ≤ outMax ∧ br.pos ≤ r.2.pos := by
  have hG := tolerates_confined len outMax
  unfold backReference
  refine Ensures.bind (Ensures.require (c := sym - 257 < 29)) fun _ hsym => ?_
  refine Ensures.bind (brReadBits_ensures hG _) fun lengthExtra hextra => ?_
  refine Ensures.bind (huffmanDecode_ensures hdist hG) fun d hd => ?_
  obtain ⟨distSym, br'⟩ := d
  cases distSym with
  | none => exact Ensures.fail
  | some distSym =>
    refine Ensures.bind Ensures.require fun _ _ => ?_
    refine Ensures.bind (brReadBits_ensures hG _) fun distExtra hdistExtra => ?_
    refine Ensures.bind Ensures.require fun _ hdistance => ?_
    refine Ensures.bind (add_ensures hG _ _) fun outEnd hadd => ?_
    obtain ⟨hadd, hsum⟩ := hadd
    rw [Nat.mod_eq_of_lt (sumsFit_fits _ hsum)] at hadd
    refine Ensures.bind Ensures.require fun _ hroom => ?_
    rw [hadd] at hroom
    rw [not_or, not_lt] at hdistance
    refine Ensures.bind (copyLoop_ensures (by omega) hroom) fun r hr => ?_
    have hlength := lengthBase_pos (i := sym - 257) (by omega)
    refine Ensures.pure ⟨by dsimp only; omega, hr.trans_le hroom, ?_⟩
    have h₁ := hextra.pos sumsFit_fits
    have h₂ := hd.pos sumsFit_fits
    have h₃ := hdistExtra.pos sumsFit_fits
    dsimp only at h₁ h₂ h₃ ⊢
    omega

/-- Every symbol but the last one makes the output longer. -/
theorem inflateBlockHuffman_ensures {lit dist : HuffmanTable} (hlit : lit.lengths.length ≤ 288)
    (hdist : dist.lengths.length ≤ 288) {fuel : ℕ} {out : List UInt8} (hout : out.length ≤ outMax)
    (hfuel : outMax - out.length < fuel) :
    Ensures Fits (Confined len outMax)
      (inflateBlockHuffman data len outMax lit dist fuel out br)
      fun r => r.1.length ≤ outMax ∧ br.pos ≤ r.2.pos := by
  induction fuel generalizing out br with
  | zero => omega
  | succ fuel ih =>
    refine Ensures.bind (huffmanDecode_ensures hlit (tolerates_confined _ _)) fun s hs => ?_
    have hpos := hs.pos sumsFit_fits
    obtain ⟨sym, br'⟩ := s
    cases sym with
    | none => exact Ensures.fail
    | some sym =>
      dsimp only
      split
      · refine Ensures.bind Ensures.require fun _ hroom => ?_
        refine Ensures.bind (emit_ensures hroom) fun r hr => ?_
        have hlen : r.length = out.length + 1 := by
          rw [hr, List.length_append, List.length_singleton]
        exact (ih (by omega) (by omega)).weaken fun u hu => ⟨hu.1, hpos.trans hu.2⟩
      · split
        · exact Ensures.pure ⟨hout, hpos⟩
        · refine Ensures.bind (backReference_ensures hdist sym out) fun r hr => ?_
          obtain ⟨hlonger, hle, hpos'⟩ := hr
          exact (ih hle (by omega)).weaken fun u hu => ⟨hu.1, hpos.trans (hpos'.trans hu.2)⟩

theorem brAlignToByte_ensures :
    Ensures Fits (Confined len outMax) (brAlignToByte br) fun r =>
      br.pos ≤ r.pos ∧ 8 * r.bytePos = r.pos := by
  rw [brAlignToByte]
  split
  · refine Ensures.bind (add_ensures (tolerates_confined _ _) _ _) fun r hr => Ensures.pure ?_
    obtain ⟨hr, hsum⟩ := hr
    have hlt := br.bitPos_lt
    rw [Nat.mod_eq_of_lt (sumsFit_fits _ hsum)] at hr
    simp only [BitPos.pos, hr]
    omega
  · exact Ensures.pure ⟨le_rfl, by simp only [BitPos.pos]; omega⟩

theorem readPair_ensures {pos : ℕ} (h : pos + 1 < len) :
    Ensures Fits (Confined len outMax) (readPair data pos) fun _ => True := by
  have hlow : Confined len outMax (.stored (pos % 2 ^ 32)) :=
    (Nat.mod_le _ _).trans_lt (by omega : pos < len)
  have hhigh : Confined len outMax (.stored ((pos + 1) % 2 ^ 32)) := (Nat.mod_le _ _).trans_lt h
  refine Ensures.bind (readByte_ensures hlow) fun _ _ => ?_
  exact Ensures.bind (readByte_ensures hhigh) fun _ _ => Ensures.pure trivial

theorem storedLoop_ensures {n src : ℕ} {out : List UInt8} (hsrc : src + n ≤ len)
    (hroom : out.length + n ≤ outMax) :
    Ensures Fits (Confined len outMax) (storedLoop data outMax n src out) fun r =>
      r.length = out.length + n := by
  induction n generalizing src out with
  | zero => exact Ensures.pure rfl
  | succ n ih =>
    have hread : Confined len outMax (.stored src) := by change src < len; omega
    refine Ensures.bind (readByte_ensures hread) fun byte _ => ?_
    refine Ensures.bind (emit_ensures (by omega)) fun r hr => ?_
    have hlen : r.length = out.length + 1 := by
      rw [hr, List.length_append, List.length_singleton]
    refine (ih (by omega) (by omega)).weaken fun s hs => ?_
    rw [hs, hlen]
    omega

/-- A stored block lies inside the data. -/
theorem inflateStored_ensures (out : List UInt8) :
    Ensures Fits (Confined len outMax) (inflateStored data len outMax out br)
      fun r => r.1.length ≤ outMax ∧ br.pos ≤ r.2.pos ∧ br.pos < 8 * len := by
  have hG := tolerates_confined len outMax
  refine Ensures.bind brAlignToByte_ensures fun br' halign => ?_
  refine Ensures.bind (add_ensures hG _ _) fun start hstart => ?_
  obtain ⟨hstart, hsum⟩ := hstart
  rw [Nat.mod_eq_of_lt (sumsFit_fits _ hsum)] at hstart
  refine Ensures.bind Ensures.require fun _ hheader => ?_
  refine Ensures.bind (readPair_ensures (by omega)) fun blockLen _ => ?_
  refine Ensures.bind (readPair_ensures (by omega)) fun nlen _ => ?_
  refine Ensures.bind Ensures.require fun _ _ => ?_
  refine Ensures.bind (add_ensures hG _ _) fun stop hstop => ?_
  obtain ⟨hstop, hsum'⟩ := hstop
  rw [Nat.mod_eq_of_lt (sumsFit_fits _ hsum')] at hstop
  refine Ensures.bind Ensures.require fun _ hinside => ?_
  refine Ensures.bind (add_ensures hG _ _) fun outEnd hout => ?_
  obtain ⟨hout, hsum''⟩ := hout
  rw [Nat.mod_eq_of_lt (sumsFit_fits _ hsum'')] at hout
  refine Ensures.bind Ensures.require fun _ hroom => ?_
  refine Ensures.bind (storedLoop_ensures (hstop.symm.trans_le hinside) (hout.symm.trans_le hroom))
    fun r hr => ?_
  refine Ensures.pure ⟨(hr.trans hout.symm).trans_le hroom, ?_, ?_⟩
  · simp only [BitPos.pos] at halign ⊢
    omega
  · omega

theorem length_fixedLitLengths : fixedLitLengths.length = 288 := by
  simp only [fixedLitLengths, List.length_append, List.length_replicate]

theorem length_fixedDistLengths : fixedDistLengths.length = 30 := List.length_replicate

theorem fixedLitLengths_le : ∀ x ∈ fixedLitLengths, x ≤ maxHuffmanBits := by
  intro x hx
  simp only [fixedLitLengths, List.mem_append, List.mem_replicate] at hx
  rw [maxHuffmanBits]
  omega

theorem fixedDistLengths_le : ∀ x ∈ fixedDistLengths, x ≤ maxHuffmanBits := by
  intro x hx
  rw [(List.mem_replicate.mp hx).2]
  decide

theorem buildFixedHuffmanTables_ensures :
    Ensures Fits (Confined len outMax) buildFixedHuffmanTables fun r =>
      r.1.lengths.length ≤ 288 ∧ r.2.lengths.length ≤ 288 := by
  have hG := tolerates_confined len outMax
  have hlit : Ensures Fits (Confined len outMax) (build .litLengths 0 fixedLitLengths) fun t =>
      t = huffmanBuild fixedLitLengths := by
    refine build_ensures ?_ length_fixedLitLengths.le fixedLitLengths_le hG
    rw [length_fixedLitLengths]
    exact le_rfl
  have hdist : Ensures Fits (Confined len outMax) (build .distLengths 0 fixedDistLengths) fun t =>
      t = huffmanBuild fixedDistLengths := by
    refine build_ensures ?_ ?_ fixedDistLengths_le hG
    · rw [length_fixedDistLengths]
      exact le_rfl
    · rw [length_fixedDistLengths]
      decide
  refine Ensures.bind (Ensures.tellAll fun e he => ?_) fun _ _ => ?_
  · obtain ⟨i, hi, rfl⟩ := List.mem_map.mp he
    exact List.mem_range.mp hi
  refine Ensures.bind hlit fun lit hlit => ?_
  refine Ensures.bind (Ensures.tellAll fun e he => ?_) fun _ _ => ?_
  · obtain ⟨i, hi, rfl⟩ := List.mem_map.mp he
    exact List.mem_range.mp hi
  refine Ensures.bind hdist fun dist hdist => ?_
  subst hlit hdist
  exact Ensures.pure ⟨length_fixedLitLengths.le, length_fixedDistLengths.trans_le (by decide)⟩

theorem inflateBlock_ensures {fuel btype : ℕ} {out : List UInt8} (hout : out.length ≤ outMax)
    (hfuel : outMax < fuel) :
    Ensures Fits (Confined len outMax)
      (inflateBlock data len outMax fuel btype out br) fun r =>
        r.1.length ≤ outMax ∧ br.pos ≤ r.2.pos ∧ (btype = 0 → br.pos < 8 * len) := by
  have hG := tolerates_confined len outMax
  rw [inflateBlock]
  split
  · exact (inflateStored_ensures out).weaken fun r hr => ⟨hr.1, hr.2.1, fun _ => hr.2.2⟩
  · next hstored =>
    split
    · refine Ensures.bind buildFixedHuffmanTables_ensures fun tables htables => ?_
      exact (inflateBlockHuffman_ensures htables.1 htables.2 hout (by omega)).weaken
        fun r hr => ⟨hr.1, hr.2, fun h => absurd h hstored⟩
    · split
      · have hdynamic := @readDynamicHuffmanTables_ensures data len Fits _ br hG
          (fun _ _ => trivial) (Or.inl fun total htotal => htotal)
        refine Ensures.bind hdynamic fun tables htables => ?_
        obtain ⟨hlit, hdist, hpos⟩ := htables
        have hpos := hpos sumsFit_fits
        refine (inflateBlockHuffman_ensures hlit hdist hout (by omega)).weaken
          fun r hr => ⟨hr.1, ?_, fun h => absurd h hstored⟩
        have := hr.2
        omega
      · exact Ensures.fail

/-- A block takes bits off the data, so that there is an end to the blocks. -/
theorem inflateBlocks_ensures {fuel blocks : ℕ} {out : List UInt8} (hout : out.length ≤ outMax)
    (hfuel : outMax < fuel) (hblocks : 8 * len - br.pos < blocks) :
    Ensures Fits (Confined len outMax)
      (inflateBlocks data len outMax fuel blocks out br) fun r => r.length ≤ outMax := by
  have hG := tolerates_confined len outMax
  induction blocks generalizing out br with
  | zero => omega
  | succ blocks ih =>
    refine Ensures.bind (brReadBits_ensures hG 1) fun final hfinal => ?_
    refine Ensures.bind (brReadBits_ensures hG 2) fun btype hbtype => ?_
    refine Ensures.bind (inflateBlock_ensures hout hfuel) fun r hr => ?_
    obtain ⟨hle, hpos, hstored⟩ := hr
    have h₁ := hfinal.pos sumsFit_fits
    have h₂ := hbtype.pos sumsFit_fits
    have hinside : br.pos < 8 * len := by
      by_contra hend
      have := hstored (hbtype.zero sumsFit_fits (by omega))
      omega
    split
    · exact Ensures.pure hle
    · exact ih hle (by omega)

theorem inflateRaw_ensures {fuel : ℕ} (hfuel : 8 * len + outMax < fuel) :
    Ensures Fits (Confined len outMax) (inflateRaw data len outMax fuel) fun r =>
      r.length ≤ outMax :=
  inflateBlocks_ensures (Nat.zero_le _) (by omega) (by simp only [BitPos.pos, brInit]; omega)

section Runaway

/-- No header asks for more than 318 code lengths. -/
def HeaderFits : Event → Prop
  | .header total => total ≤ allLengthsSize
  | _ => True

instance : DecidablePred HeaderFits
  | .header total => inferInstanceAs (Decidable (total ≤ allLengthsSize))
  | .bit _ | .data _ | .stored _ | .back _ _ | .write _ | .array _ _ | .sum _ | .exhausted =>
    isTrue trivial

theorem tolerates_headerFits (len : ℕ) : Tolerates len HeaderFits :=
  ⟨fun _ => trivial, fun _ _ => trivial, fun _ => trivial, fun _ _ _ => trivial⟩

variable {A : Event → Prop}

theorem emit_headerFits (value : UInt8) (out : List UInt8) :
    Ensures A HeaderFits (emit outMax value out) fun _ => True := by
  have hwrite : HeaderFits (.write out.length) := trivial
  refine Ensures.bind (Ensures.tell fun _ => hwrite) fun _ _ => ?_
  refine Ensures.bind Ensures.require fun _ _ => ?_
  exact Ensures.pure trivial

theorem copyLoop_headerFits (n src : ℕ) (out : List UInt8) :
    Ensures A HeaderFits (copyLoop outMax n src out) fun _ => True := by
  induction n generalizing src out with
  | zero => exact Ensures.pure trivial
  | succ n ih =>
    have hback : HeaderFits (.back src out.length) := trivial
    refine Ensures.bind (Ensures.tell fun _ => hback) fun _ _ => ?_
    exact Ensures.bind (emit_headerFits _ _) fun r _ => ih _ r

theorem backReference_headerFits {dist : HuffmanTable} (hdist : dist.lengths.length ≤ 288) (sym : ℕ)
    (out : List UInt8) (br : BitPos) :
    Ensures A HeaderFits (backReference data len outMax dist sym out br) fun _ => True := by
  have hG := tolerates_headerFits len
  unfold backReference
  refine Ensures.bind Ensures.require fun _ _ => ?_
  refine Ensures.bind (brReadBits_ensures hG _) fun lengthExtra _ => ?_
  refine Ensures.bind (huffmanDecode_ensures hdist hG) fun d _ => ?_
  obtain ⟨distSym, br'⟩ := d
  cases distSym with
  | none => exact Ensures.fail
  | some distSym =>
    refine Ensures.bind Ensures.require fun _ _ => ?_
    refine Ensures.bind (brReadBits_ensures hG _) fun distExtra _ => ?_
    refine Ensures.bind Ensures.require fun _ _ => ?_
    refine Ensures.bind (add_ensures hG _ _) fun outEnd _ => ?_
    refine Ensures.bind Ensures.require fun _ _ => ?_
    refine Ensures.bind (copyLoop_headerFits _ _ _) fun r _ => ?_
    exact Ensures.pure trivial

theorem inflateBlockHuffman_headerFits {lit dist : HuffmanTable} (hlit : lit.lengths.length ≤ 288)
    (hdist : dist.lengths.length ≤ 288) (fuel : ℕ) (out : List UInt8) (br : BitPos) :
    Ensures A HeaderFits (inflateBlockHuffman data len outMax lit dist fuel out br) fun _ =>
      True := by
  induction fuel generalizing out br with
  | zero =>
    have hexhausted : HeaderFits .exhausted := trivial
    exact Ensures.bind (Ensures.tell fun _ => hexhausted) fun _ _ => Ensures.fail
  | succ fuel ih =>
    refine Ensures.bind (huffmanDecode_ensures hlit (tolerates_headerFits len)) fun s _ => ?_
    obtain ⟨sym, br'⟩ := s
    cases sym with
    | none => exact Ensures.fail
    | some sym =>
      dsimp only
      split
      · refine Ensures.bind Ensures.require fun _ _ => ?_
        exact Ensures.bind (emit_headerFits _ _) fun r _ => ih r br'
      · split
        · exact Ensures.pure trivial
        · exact Ensures.bind (backReference_headerFits hdist _ _ _) fun r _ => ih r.1 r.2

/-- The bytes are copied, or one is written behind the output. -/
theorem copyLoop_grows_or {n src : ℕ} {out : List UInt8} :
    (∃ r, (copyLoop outMax n src out).value = some r ∧ r.length = out.length + n) ∨
      ∃ e ∈ (copyLoop outMax n src out).log, ¬ Confined len outMax e := by
  induction n generalizing src out with
  | zero => exact Or.inl ⟨out, rfl, rfl⟩
  | succ n ih =>
    by_cases hroom : out.length < outMax
    · have hemit : (emit outMax (out.getD src 0) out).value = some (out ++ [out.getD src 0]) := by
        rw [emit, value_bind_eq_some]
        refine ⟨(), rfl, ?_⟩
        rw [value_bind_eq_some]
        exact ⟨(), by rw [value_require, if_pos hroom], rfl⟩
      obtain ⟨r, hr, hlen⟩ | ⟨e, he, hout⟩ := @ih (src + 1) (out ++ [out.getD src 0])
      · refine Or.inl ⟨r, ?_, ?_⟩
        · rw [copyLoop, value_bind_eq_some]
          refine ⟨(), rfl, ?_⟩
          rw [value_bind_eq_some]
          exact ⟨_, hemit, hr⟩
        · rw [hlen, List.length_append, List.length_singleton]
          omega
      · refine Or.inr ⟨e, ?_, hout⟩
        rw [copyLoop, mem_log_bind]
        refine Or.inr ⟨(), rfl, ?_⟩
        rw [mem_log_bind]
        exact Or.inr ⟨_, hemit, he⟩
    · refine Or.inr ⟨.write out.length, ?_, hroom⟩
      rw [copyLoop, mem_log_bind]
      refine Or.inr ⟨(), rfl, ?_⟩
      rw [mem_log_bind, emit, mem_log_bind]
      exact Or.inl (Or.inl (List.mem_singleton_self _))

theorem readByte_value {e : Event} {i : ℕ} (h : i < data.length) :
    (readByte data e i).value = some (data.getD i 0).toNat := by
  rw [readByte, value_bind_eq_some]
  refine ⟨(), rfl, value_bind_eq_some.mpr ⟨(), ?_, rfl⟩⟩
  rw [value_require, if_pos h]

theorem peekBit_exists (br : BitPos) : ∃ bit, (peekBit data data.length br).value = some bit := by
  rw [peekBit]
  split
  · next hlt =>
    exact ⟨_, value_bind_eq_some.mpr ⟨_, readByte_value hlt, rfl⟩⟩
  · exact ⟨0, rfl⟩

theorem advance_exists (br : BitPos) : ∃ r, (advance br).value = some r := by
  rw [advance]
  split
  · exact ⟨_, rfl⟩
  · exact ⟨_, rfl⟩

theorem brReadBitsLoop_exists (n i result : ℕ) (br : BitPos) :
    ∃ r, (brReadBitsLoop data data.length n i result br).value = some r := by
  induction n generalizing i result br with
  | zero => exact ⟨_, rfl⟩
  | succ n ih =>
    obtain ⟨bit, hbit⟩ := @peekBit_exists data br
    obtain ⟨br', hnext⟩ := advance_exists br
    obtain ⟨r, hr⟩ := ih (i + 1) (result ||| (bit <<< i)) br'
    refine ⟨r, value_bind_eq_some.mpr ⟨(), rfl, value_bind_eq_some.mpr ⟨bit, hbit, ?_⟩⟩⟩
    exact value_bind_eq_some.mpr ⟨br', hnext, hr⟩

/-- A table in which both bits are codes. -/
structure OneBit (t : HuffmanTable) (sym₀ sym₁ : ℕ) : Prop where
  zero : huffmanSearch t 1 0 = some sym₀
  one : huffmanSearch t 1 1 = some sym₁

theorem OneBit.decode {t : HuffmanTable} {sym₀ sym₁ : ℕ} (h : OneBit t sym₀ sym₁)
    (data : List UInt8) (br : BitPos) :
    ∃ sym br', (sym = sym₀ ∨ sym = sym₁) ∧
      (huffmanDecode data data.length t br).value = some (some sym, br') := by
  obtain ⟨⟨bit, br'⟩, hread⟩ := @brReadBitsLoop_exists data 1 0 0 br
  have hbit : bit < 2 :=
    ((brReadBits_ensures (A := fun _ => True) (tolerates_headerFits _) 1 fun _ _ =>
      trivial).2 _ hread).lt
  have hcode : ((0 <<< 1) ||| bit) % 2 ^ 16 = bit := by
    rw [Nat.zero_shiftLeft, Nat.zero_or]
    exact Nat.mod_eq_of_lt (hbit.trans (by decide))
  obtain ⟨sym, hsym, hsearch⟩ : ∃ sym, (sym = sym₀ ∨ sym = sym₁) ∧
      huffmanSearch t 1 bit = some sym := by
    obtain rfl | rfl : bit = 0 ∨ bit = 1 := by omega
    · exact ⟨sym₀, Or.inl rfl, h.zero⟩
    · exact ⟨sym₁, Or.inr rfl, h.one⟩
  refine ⟨sym, br', hsym, ?_⟩
  rw [huffmanDecode, maxHuffmanBits, huffmanDecodeLoop, value_bind_eq_some]
  refine ⟨_, hread, value_bind_eq_some.mpr ⟨(), rfl, ?_⟩⟩
  simp only [hcode, hsearch]
  rfl

variable {lit dist : HuffmanTable}

/-- In 32 bits the end of the output always passes the test against 2³² - 1. -/
theorem backReference_grows_or (hmax : 2 ^ 32 ≤ outMax + 1) (hdist : OneBit dist 0 1) {sym : ℕ}
    (hsym : sym = 258 ∨ sym = 262) {out : List UInt8} (hout : 2 ≤ out.length) (br : BitPos) :
    (∃ r, (backReference data data.length outMax dist sym out br).value = some r ∧
        2 ≤ r.1.length) ∨
      ∃ e ∈ (backReference data data.length outMax dist sym out br).log,
        ¬ Confined len outMax e := by
  obtain ⟨distSym, br', hdistSym, hdecode⟩ := hdist.decode data br
  have hextra : lengthExtraBits.getD (sym - 257) 0 = 0 := by
    obtain rfl | rfl := hsym <;> rfl
  have hdistExtra : distExtraBits.getD distSym 0 = 0 := by
    obtain rfl | rfl := hdistSym <;> rfl
  have hdistance : 0 < distBase.getD distSym 0 ∧ distBase.getD distSym 0 ≤ 2 := by
    obtain rfl | rfl := hdistSym <;> decide
  have hread : ∀ br, (brReadBits data data.length br 0).value = some (0, br) := fun br => rfl
  have hrequire : ∀ c : Prop, [Decidable c] → c → (require c : Logged Event Unit).value = some () :=
    fun c _ hc => by rw [value_require, if_pos hc]
  have hsym_lt := hrequire (sym - 257 < 29) (by omega)
  have hdist_lt := hrequire (distSym < 30) (by omega)
  have hnear := hrequire (¬ (distBase.getD distSym 0 + 0 = 0 ∨
    out.length < distBase.getD distSym 0 + 0)) (by omega)
  have hpasses := hrequire
    ((out.length + (lengthBase.getD (sym - 257) 0 + 0)) % 2 ^ 32 ≤ outMax) (by omega)
  unfold backReference
  rw [hextra]
  obtain ⟨r, hr, hlen⟩ | ⟨e, he, hconfined⟩ := @copyLoop_grows_or len outMax
    (lengthBase.getD (sym - 257) 0 + 0) (out.length - (distBase.getD distSym 0 + 0)) out
  · refine Or.inl ⟨(r, br'), ?_, by dsimp only; omega⟩
    refine value_bind_eq_some.mpr ⟨_, hsym_lt, value_bind_eq_some.mpr ⟨_, hread br, ?_⟩⟩
    refine value_bind_eq_some.mpr ⟨_, hdecode, value_bind_eq_some.mpr ⟨_, hdist_lt, ?_⟩⟩
    rw [hdistExtra]
    refine value_bind_eq_some.mpr ⟨_, hread br', value_bind_eq_some.mpr ⟨_, hnear, ?_⟩⟩
    refine value_bind_eq_some.mpr ⟨_, rfl, value_bind_eq_some.mpr ⟨_, hpasses, ?_⟩⟩
    exact value_bind_eq_some.mpr ⟨_, hr, rfl⟩
  · refine Or.inr ⟨e, ?_, hconfined⟩
    refine mem_log_bind.mpr (Or.inr ⟨_, hsym_lt, mem_log_bind.mpr (Or.inr ⟨_, hread br, ?_⟩)⟩)
    refine mem_log_bind.mpr (Or.inr ⟨_, hdecode, mem_log_bind.mpr (Or.inr ⟨_, hdist_lt, ?_⟩)⟩)
    rw [hdistExtra]
    refine mem_log_bind.mpr (Or.inr ⟨_, hread br', mem_log_bind.mpr (Or.inr ⟨_, hnear, ?_⟩)⟩)
    refine mem_log_bind.mpr (Or.inr ⟨_, rfl, mem_log_bind.mpr (Or.inr ⟨_, hpasses, ?_⟩)⟩)
    exact mem_log_bind.mpr (Or.inl he)

/-- With these tables no symbol ends the block. -/
theorem inflateBlockHuffman_runaway (hmax : 2 ^ 32 ≤ outMax + 1) (hlit : OneBit lit 258 262)
    (hdist : OneBit dist 0 1) (fuel : ℕ) {out : List UInt8} (hout : 2 ≤ out.length) (br : BitPos) :
    ∃ e ∈ (inflateBlockHuffman data data.length outMax lit dist fuel out br).log,
      ¬ Confined len outMax e := by
  induction fuel generalizing out br with
  | zero => exact ⟨.exhausted, mem_log_bind.mpr (Or.inl (List.mem_singleton_self _)), id⟩
  | succ fuel ih =>
    obtain ⟨sym, br₁, hsym, hdecode⟩ := hlit.decode data br
    have hrest : ∀ e, (e ∈ (backReference data data.length outMax dist sym out br₁).log ∨
        ∃ r, (backReference data data.length outMax dist sym out br₁).value = some r ∧
          e ∈ (inflateBlockHuffman data data.length outMax lit dist fuel r.1 r.2).log) →
        e ∈ (inflateBlockHuffman data data.length outMax lit dist (fuel + 1) out br).log := by
      intro e he
      refine mem_log_bind.mpr (Or.inr ⟨_, hdecode, ?_⟩)
      have hlit_no : ¬ sym < 256 := by omega
      have hend_no : ¬ sym = 256 := by omega
      simp only [if_neg hlit_no, if_neg hend_no]
      exact mem_log_bind.mpr he
    obtain ⟨r, hr, hlen⟩ | ⟨e, he, hconfined⟩ :=
      @backReference_grows_or data len outMax dist hmax hdist sym hsym out hout br₁
    · obtain ⟨e, he, hconfined⟩ := ih hlen r.2
      exact ⟨e, hrest e (Or.inr ⟨r, hr, he⟩), hconfined⟩
    · exact ⟨e, hrest e (Or.inl he), hconfined⟩

/-- Three bytes in a stored block, then a block whose two literal codes, of one bit, both stand for
    a length. -/
def runawayStream : List UInt8 :=
  [0, 3, 0, 252, 255, 97, 98, 99, 53, 193, 33, 1, 0, 0, 0, 0, 144, 255, 183, 5, 0]

/-- The tables of the second block. -/
def runawayTables : HuffmanTable × HuffmanTable :=
  (huffmanBuild (List.replicate 258 0 ++ [1, 0, 0, 0, 1]), huffmanBuild [1, 1])

theorem runawayStream_stored :
    (∀ e ∈ (inflateStored runawayStream 21 (2 ^ 32 - 1) [] ⟨0, 3, by decide, by decide⟩).log,
      HeaderFits e) ∧
      (inflateStored runawayStream 21 (2 ^ 32 - 1) [] ⟨0, 3, by decide, by decide⟩).value =
        some ([97, 98, 99], ⟨8, 0, by decide, by decide⟩) := by
  decide

theorem runawayStream_dynamic :
    (∀ e ∈ (readDynamicHuffmanTables runawayStream 21 ⟨8, 3, by decide, by decide⟩).log,
      HeaderFits e) ∧
      (readDynamicHuffmanTables runawayStream 21 ⟨8, 3, by decide, by decide⟩).value =
        some (runawayTables, ⟨20, 2, by decide, by decide⟩) :=
  ⟨by decide, by decide⟩

theorem runawayStream_bits :
    (brReadBits runawayStream 21 brInit 1).value = some (0, ⟨0, 1, by decide, by decide⟩) ∧
      (brReadBits runawayStream 21 ⟨0, 1, by decide, by decide⟩ 2).value =
        some (0, ⟨0, 3, by decide, by decide⟩) ∧
      (brReadBits runawayStream 21 ⟨8, 0, by decide, by decide⟩ 1).value =
        some (1, ⟨8, 1, by decide, by decide⟩) ∧
      (brReadBits runawayStream 21 ⟨8, 1, by decide, by decide⟩ 2).value =
        some (2, ⟨8, 3, by decide, by decide⟩) := by
  decide

theorem runawayTables_oneBit :
    OneBit runawayTables.1 258 262 ∧ OneBit runawayTables.2 0 1 :=
  ⟨⟨by decide, by decide⟩, ⟨by decide, by decide⟩⟩

theorem runawayTables_lengths :
    runawayTables.1.lengths.length ≤ 288 ∧ runawayTables.2.lengths.length ≤ 288 := by
  decide

theorem inflateBlock_stored (fuel : ℕ) (out : List UInt8) (br : BitPos) :
    inflateBlock data len outMax fuel 0 out br = inflateStored data len outMax out br := rfl

theorem inflateBlock_dynamic (fuel : ℕ) (out : List UInt8) (br : BitPos) {btype : ℕ}
    (h : btype = 2) : inflateBlock data len outMax fuel btype out br = (do
      let tables ← readDynamicHuffmanTables data len br
      inflateBlockHuffman data len outMax tables.1.1 tables.1.2 fuel out tables.2) := by
  rw [h]
  rfl

/-- Its headers are short. -/
theorem runawayStream_headerFits (fuel : ℕ) :
    Ensures A HeaderFits (inflateRaw runawayStream 21 (2 ^ 32 - 1) fuel) fun _ => True := by
  obtain ⟨hfinal, hbtype, hfinal', hbtype'⟩ := runawayStream_bits
  have hexhausted : HeaderFits .exhausted := trivial
  have hG := tolerates_headerFits 21
  have hbits : ∀ {br : BitPos} {count : ℕ} {r : ℕ × BitPos},
      (brReadBits runawayStream 21 br count).value = some r →
      Ensures A HeaderFits (brReadBits runawayStream 21 br count) fun s => s = r := by
    intro br count r hr
    have hens := @brReadBits_ensures runawayStream 21 (fun _ => True) HeaderFits br hG count
    exact Ensures.of_value (hens fun _ _ => trivial).1 hr
  rw [inflateRaw]
  cases fuel with
  | zero => exact Ensures.bind (Ensures.tell fun _ => hexhausted) fun _ _ => Ensures.fail
  | succ n =>
    refine Ensures.bind (hbits hfinal) fun _ h => ?_
    subst h
    refine Ensures.bind (hbits hbtype) fun _ h => ?_
    subst h
    rw [inflateBlock_stored]
    refine Ensures.bind (Ensures.of_value runawayStream_stored.1 runawayStream_stored.2)
      fun _ h => ?_
    subst h
    rw [if_neg (fun h => h rfl)]
    cases n with
    | zero => exact Ensures.bind (Ensures.tell fun _ => hexhausted) fun _ _ => Ensures.fail
    | succ n =>
      rw [inflateBlocks]
      refine Ensures.bind (hbits hfinal') fun _ h => ?_
      subst h
      refine Ensures.bind (hbits hbtype') fun _ h => ?_
      rw [inflateBlock_dynamic _ _ _ (congrArg Prod.fst h)]
      subst h
      have htables := runawayStream_dynamic
      refine Ensures.bind (Q := fun _ => True)
        (Ensures.bind (Ensures.of_value htables.1 htables.2) fun _ h => ?_) fun r _ => ?_
      · subst h
        exact inflateBlockHuffman_headerFits runawayTables_lengths.1 runawayTables_lengths.2 _ _ _
      · rw [if_pos (by decide)]
        exact Ensures.pure trivial

/-- With any fuel the run uses it up or writes behind the output. -/
theorem runawayStream_not_confined (fuel : ℕ) :
    ∃ e ∈ (inflateRaw runawayStream 21 (2 ^ 32 - 1) fuel).log, ¬ Confined 21 (2 ^ 32 - 1) e := by
  obtain ⟨hfinal, hbtype, hfinal', hbtype'⟩ := runawayStream_bits
  obtain ⟨hlit, hdist⟩ := runawayTables_oneBit
  have hmax : 2 ^ 32 ≤ (2 ^ 32 - 1) + 1 := by decide
  cases fuel with
  | zero => exact ⟨.exhausted, mem_log_bind.mpr (Or.inl (List.mem_singleton_self _)), id⟩
  | succ n =>
    have hstored := runawayStream_stored.2
    have hsecond : ∀ e, e ∈ (inflateBlocks runawayStream 21 (2 ^ 32 - 1) (n + 1) n [97, 98, 99]
          ⟨8, 0, by decide, by decide⟩).log →
        e ∈ (inflateRaw runawayStream 21 (2 ^ 32 - 1) (n + 1)).log := by
      intro e he
      refine mem_log_bind.mpr (Or.inr ⟨_, hfinal, mem_log_bind.mpr (Or.inr ⟨_, hbtype, ?_⟩)⟩)
      refine mem_log_bind.mpr (Or.inr ⟨_, hstored, ?_⟩)
      rwa [if_neg (fun h => h rfl)]
    cases n with
    | zero =>
      exact ⟨.exhausted, hsecond _ (mem_log_bind.mpr (Or.inl (List.mem_singleton_self _))), id⟩
    | succ n =>
      obtain ⟨e, he, hconfined⟩ :=
        @inflateBlockHuffman_runaway runawayStream 21 (2 ^ 32 - 1) _ _ hmax
        hlit hdist (n + 2) [97, 98, 99] (by decide) ⟨20, 2, by decide, by decide⟩
      refine ⟨e, hsecond e ?_, hconfined⟩
      rw [inflateBlocks]
      refine mem_log_bind.mpr (Or.inr ⟨_, hfinal', mem_log_bind.mpr (Or.inr ⟨_, hbtype', ?_⟩)⟩)
      refine mem_log_bind.mpr (Or.inl ?_)
      rw [inflateBlock_dynamic _ _ _ rfl]
      exact mem_log_bind.mpr (Or.inr ⟨_, runawayStream_dynamic.2, he⟩)

/-- So headers that fit do not suffice: where an output of 2³² - 1 bytes is allowed, this stream is
    decoded beyond it. -/
theorem runawayStream_unconfined :
    (∀ fuel, ∀ e ∈ (inflateRaw runawayStream 21 (2 ^ 32 - 1) fuel).log, HeaderFits e) ∧
      ∀ fuel, ∃ e ∈ (inflateRaw runawayStream 21 (2 ^ 32 - 1) fuel).log,
        ¬ Confined 21 (2 ^ 32 - 1) e :=
  ⟨fun fuel => (@runawayStream_headerFits (fun _ => True) fuel fun _ _ => trivial).1,
    runawayStream_not_confined⟩

end Runaway

end AuroraOS.Inflate.Traced
