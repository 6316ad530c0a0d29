import AuroraOS.Inflate.Confined

/-!
# Sizes for which no sum wraps around

A symbol takes at most 16 bits for each byte of the output, and a header at most a few thousand. So
the reader stays within that many bits of the end of the data, and no sum of its positions wraps
around for data and outputs of any realistic size.

## Main results

- `inflateBlockHuffman_fits`, `readDynamicHuffmanTables_fits`
- `inflateRaw_fits`
- `inflateRaw_confined`
-/

namespace AuroraOS.Inflate.Traced

open AuroraOS.Lib AuroraOS.Lib.Logged

variable {data : List UInt8} {len outMax : ℕ} {A : Event → Prop} {br : BitPos}

theorem add_fits {m n : ℕ} (h : m + n < 2 ^ 32) :
    Ensures A Fits (add m n) fun r => r.1 = m + n := by
  refine Ensures.bind (Ensures.tell fun _ => h) fun _ _ => ?_
  exact Ensures.pure (Nat.mod_eq_of_lt h)

theorem advance_fits (h : br.pos + 1 < 2 ^ 35) :
    Ensures A Fits (advance br) fun r => r.pos = br.pos + 1 := by
  rw [BitPos.pos] at h
  rw [advance]
  split
  · refine Ensures.bind (add_fits (by omega)) fun r hr => Ensures.pure ?_
    simp only [BitPos.pos, hr]
    omega
  · exact Ensures.pure (by simp only [BitPos.pos]; omega)

theorem peekBit_fits : Ensures A Fits (peekBit data len br) fun _ => True := by
  rw [peekBit]
  split
  · have hdata : Fits (.data br.bytePos) := trivial
    exact Ensures.bind (readByte_ensures hdata) fun _ _ => Ensures.pure trivial
  · exact Ensures.pure trivial

theorem brReadBitsLoop_fits (n i result : ℕ) (h : br.pos + n < 2 ^ 35) :
    Ensures A Fits (brReadBitsLoop data len n i result br) fun _ => True := by
  induction n generalizing i result br with
  | zero => exact Ensures.pure trivial
  | succ n ih =>
    have hbit : Fits (.bit br) := trivial
    refine Ensures.bind (Ensures.tell fun _ => hbit) fun _ _ => ?_
    refine Ensures.bind peekBit_fits fun bit _ => ?_
    exact Ensures.bind (advance_fits (by omega)) fun br' hbr' => ih _ _ (by omega)

theorem brReadBits_fits (count : ℕ) (h : br.pos + count < 2 ^ 35) :
    Ensures A Fits (brReadBits data len br count) (ReadsBits len Fits br count) :=
  ((brReadBitsLoop_fits count 0 0 h).chain
    (brReadBits_ensures (tolerates_inTables len) count)).weaken fun _ hr => hr.2

/-- A code has at most 15 bits. -/
theorem huffmanDecodeLoop_fits (t : HuffmanTable) (n codeLen code : ℕ) (h : br.pos + n < 2 ^ 35) :
    Ensures A Fits (huffmanDecodeLoop data len t n codeLen code br) fun r =>
      br.pos ≤ r.2.pos ∧ r.2.pos ≤ br.pos + n := by
  induction n generalizing codeLen code br with
  | zero => exact Ensures.pure ⟨le_rfl, le_rfl⟩
  | succ n ih =>
    refine Ensures.bind (brReadBits_fits 1 (by omega)) fun bit hbit => ?_
    have hpos := hbit.pos sumsFit_fits
    refine Ensures.bind (Ensures.tellAll fun e he => ?_) fun _ _ => ?_
    · obtain ⟨a, i, rfl⟩ := mem_searchAccesses he
      trivial
    · split
      · exact Ensures.pure ⟨by dsimp only; omega, by dsimp only; omega⟩
      · exact (ih _ _ (by omega)).weaken fun r hr => ⟨by omega, by omega⟩

theorem huffmanDecode_fits (t : HuffmanTable) (h : br.pos + 15 < 2 ^ 35) :
    Ensures A Fits (huffmanDecode data len t br) fun r =>
      br.pos ≤ r.2.pos ∧ r.2.pos ≤ br.pos + 15 :=
  huffmanDecodeLoop_fits t 15 1 0 h

theorem build_fits (source : Table) (base : ℕ) (lengths : List ℕ) :
    Ensures A Fits (build source base lengths) fun t => t = huffmanBuild lengths := by
  refine Ensures.bind (Ensures.tellAll fun e he => ?_) fun _ _ => Ensures.pure rfl
  obtain ⟨a, i, rfl⟩ := mem_buildAccesses he
  trivial

theorem access_fits (a : Table) (i : ℕ) : Ensures A Fits (access a i) fun _ => True := by
  have harray : Fits (.array a i) := trivial
  refine Ensures.bind (Ensures.tell fun _ => harray) fun _ _ => ?_
  exact Ensures.require.weaken fun _ _ => trivial

theorem readClLengths_fits (n i : ℕ) (clLengths : List ℕ) (h : br.pos + 3 * n < 2 ^ 35) :
    Ensures A Fits (readClLengths data len n i clLengths br) fun r => r.2.pos = br.pos + 3 * n := by
  induction n generalizing i clLengths br with
  | zero => exact Ensures.pure rfl
  | succ n ih =>
    refine Ensures.bind (brReadBits_fits 3 (by omega)) fun r hr => ?_
    have hpos := hr.pos sumsFit_fits
    refine Ensures.bind (access_fits _ _) fun _ _ => ?_
    refine Ensures.bind (access_fits _ _) fun _ _ => ?_
    exact (ih _ _ (by omega)).weaken fun s hs => by omega

theorem storeLoop_fits (total value n : ℕ) (all : List ℕ) :
    Ensures A Fits (storeLoop total value n all) fun _ => True := by
  induction n generalizing all with
  | zero => exact Ensures.pure trivial
  | succ n ih =>
    rw [storeLoop]
    split
    · exact Ensures.bind (access_fits _ _) fun _ _ => ih _
    · exact Ensures.pure trivial

theorem repeatOf_bits (sym : ℕ) (all : List ℕ) : (repeatOf sym all).2.2 ≤ 7 := by
  rw [repeatOf]
  split
  · exact Nat.zero_le _
  · split
    · exact (by decide : 2 ≤ 7)
    · split <;> decide

theorem storeSymbol_fits (total sym : ℕ) (all : List ℕ) (h : br.pos + 7 < 2 ^ 35) :
    Ensures A Fits (storeSymbol data len total sym all br) fun r =>
      br.pos ≤ r.2.pos ∧ r.2.pos ≤ br.pos + 7 := by
  have hbits := repeatOf_bits sym all
  refine Ensures.bind Ensures.require fun _ _ => ?_
  refine Ensures.bind (brReadBits_fits _ (by omega)) fun extra hextra => ?_
  have hpos := hextra.pos sumsFit_fits
  have hprevious : Ensures A Fits (readPrevious sym all) fun _ => True := by
    rw [readPrevious]
    split
    · exact access_fits _ _
    · exact Ensures.pure trivial
  refine Ensures.bind hprevious fun _ _ => ?_
  refine Ensures.bind (storeLoop_fits _ _ _ _) fun r _ => ?_
  exact Ensures.pure ⟨by dsimp only; omega, by dsimp only; omega⟩

/-- A code length has at most 15 bits for its code and 7 more. -/
theorem readLengths_fits (t : HuffmanTable) (total fuel : ℕ) (all : List ℕ)
    (h : br.pos + 22 * fuel < 2 ^ 35) :
    Ensures A Fits (readLengths data len t total fuel all br) fun r =>
      br.pos ≤ r.2.pos ∧ r.2.pos ≤ br.pos + 22 * fuel := by
  induction fuel generalizing all br with
  | zero =>
    rw [readLengths]
    split
    · exact Ensures.pure ⟨le_rfl, le_rfl⟩
    · have hexhausted : Fits .exhausted := trivial
      exact Ensures.bind (Ensures.tell fun _ => hexhausted) fun _ _ => Ensures.fail
  | succ fuel ih =>
    rw [readLengths]
    split
    · exact Ensures.pure ⟨le_rfl, Nat.le_add_right _ _⟩
    · refine Ensures.bind (huffmanDecode_fits t (by omega)) fun s hs => ?_
      obtain ⟨sym, br'⟩ := s
      dsimp only at hs
      cases sym with
      | none => exact Ensures.fail
      | some sym =>
        dsimp only
        refine Ensures.bind (storeSymbol_fits _ _ _ (by omega)) fun r hr => ?_
        exact (ih _ (by omega)).weaken fun u hu => ⟨by omega, by omega⟩

/-- The three counts take 14 bits, the lengths of the code length codes 3 bits each. -/
theorem readDynamicHuffmanTables_fits (h : br.pos + 7067 < 2 ^ 35) :
    Ensures HeaderFits Fits (readDynamicHuffmanTables data len br) fun r =>
      r.2.pos ≤ br.pos + 7067 := by
  have hcounts : Ensures HeaderFits Fits (readCounts data len br) fun r =>
      r.2.pos = br.pos + 14 ∧ r.1.2.2 ≤ 19 := by
    refine Ensures.bind (brReadBits_fits 5 (by omega)) fun hlit h₁ => ?_
    have hpos₁ := h₁.pos sumsFit_fits
    refine Ensures.bind (brReadBits_fits 5 (by omega)) fun hdist h₂ => ?_
    have hpos₂ := h₂.pos sumsFit_fits
    refine Ensures.bind (brReadBits_fits 4 (by omega)) fun hclen h₃ => ?_
    have hpos₃ := h₃.pos sumsFit_fits
    have hlt := h₃.lt
    exact Ensures.pure ⟨by dsimp only; omega, by dsimp only; omega⟩
  refine Ensures.bind hcounts fun counts hc => ?_
  obtain ⟨⟨hlit, hdist, hclen⟩, br₁⟩ := counts
  obtain ⟨hpos₁, hclen_le⟩ := hc
  dsimp only at hpos₁ hclen_le ⊢
  refine Ensures.bind (readClLengths_fits _ _ _ (by omega)) fun cl hcl => ?_
  refine Ensures.bind (build_fits _ _ _) fun clTable _ => ?_
  have hheader : HeaderFits (.header (hlit + hdist)) → Fits (.header (hlit + hdist)) := id
  refine Ensures.bind (Ensures.tell hheader) fun _ htotal => ?_
  have htotal : hlit + hdist ≤ 318 := htotal
  refine Ensures.bind (readLengths_fits _ _ _ _ (by omega)) fun all hall => ?_
  refine Ensures.bind (build_fits _ _ _) fun lit _ => ?_
  refine Ensures.bind (build_fits _ _ _) fun dist _ => ?_
  exact Ensures.pure (by dsimp only; omega)

theorem emit_fits (value : UInt8) (out : List UInt8) :
    Ensures A Fits (emit outMax value out) fun r => r.length = out.length + 1 := by
  have hwrite : Fits (.write out.length) := trivial
  refine Ensures.bind (Ensures.tell fun _ => hwrite) fun _ _ => ?_
  refine Ensures.bind Ensures.require fun _ _ => ?_
  exact Ensures.pure (by rw [List.length_append, List.length_singleton])

theorem copyLoop_fits (n src : ℕ) (out : List UInt8) :
    Ensures A Fits (copyLoop outMax n src out) fun r => r.length = out.length + n := by
  induction n generalizing src out with
  | zero => exact Ensures.pure rfl
  | succ n ih =>
    have hback : Fits (.back src out.length) := trivial
    refine Ensures.bind (Ensures.tell fun _ => hback) fun _ _ => ?_
    refine Ensures.bind (emit_fits _ _) fun r hr => ?_
    exact (ih _ _).weaken fun s hs => by omega

theorem lengthCode_le {i : ℕ} (h : i < 29) :
    lengthExtraBits.getD i 0 ≤ 5 ∧ 3 ≤ lengthBase.getD i 0 ∧ lengthBase.getD i 0 ≤ 258 := by
  have hall : ∀ i < 29, lengthExtraBits.getD i 0 ≤ 5 ∧ 3 ≤ lengthBase.getD i 0 ∧
      lengthBase.getD i 0 ≤ 258 := by decide
  exact hall i h

theorem distCode_le {i : ℕ} (h : i < 30) : distExtraBits.getD i 0 ≤ 13 := by
  have hall : ∀ i < 30, distExtraBits.getD i 0 ≤ 13 := by decide
  exact hall i h

/-- A back-reference of at least three bytes takes at most 33 bits after the code of its length. -/
theorem backReference_fits (dist : HuffmanTable) (sym : ℕ) {out : List UInt8}
    (h : br.pos + 33 < 2 ^ 35) (hout : out.length + 300 < 2 ^ 32) :
    Ensures A Fits (backReference data len outMax dist sym out br) fun r =>
      r.2.pos ≤ br.pos + 33 ∧ out.length + 3 ≤ r.1.length := by
  unfold backReference
  refine Ensures.bind Ensures.require fun _ hsym => ?_
  obtain ⟨hbits, hmin, hmax⟩ := lengthCode_le hsym
  refine Ensures.bind (brReadBits_fits _ (by omega)) fun lengthExtra hextra => ?_
  have hpos₁ := hextra.pos sumsFit_fits
  have hlength : lengthExtra.1 < 32 :=
    hextra.lt.trans_le (Nat.pow_le_pow_right (by decide) hbits : _ ≤ 2 ^ 5)
  refine Ensures.bind (huffmanDecode_fits dist (by omega)) fun d hd => ?_
  obtain ⟨distSym, br'⟩ := d
  dsimp only at hd
  cases distSym with
  | none => exact Ensures.fail
  | some distSym =>
    dsimp only
    refine Ensures.bind Ensures.require fun _ hdist => ?_
    have hbits' := distCode_le hdist
    refine Ensures.bind (brReadBits_fits _ (by omega)) fun distExtra hdistExtra => ?_
    have hpos₂ := hdistExtra.pos sumsFit_fits
    refine Ensures.bind Ensures.require fun _ _ => ?_
    refine Ensures.bind (add_fits (by omega)) fun outEnd _ => ?_
    refine Ensures.bind Ensures.require fun _ _ => ?_
    refine Ensures.bind (copyLoop_fits _ _ _) fun r hr => ?_
    exact Ensures.pure ⟨by dsimp only; omega, by dsimp only; omega⟩

/-- At most 16 bits are taken for each byte of the output, and 15 for the end of the block. -/
theorem inflateBlockHuffman_fits (lit : HuffmanTable) {dist : HuffmanTable}
    (hdist : dist.lengths.length ≤ 288) {fuel : ℕ} {out : List UInt8} (hout : out.length ≤ outMax)
    (hfuel : outMax - out.length < fuel) {c : ℕ}
    (hpos : br.pos ≤ c + 16 * out.length) (hc : c + 16 * outMax + 48 < 2 ^ 35) :
    Ensures A Fits (inflateBlockHuffman data len outMax lit dist fuel out br) fun r =>
      r.2.pos ≤ c + 16 * r.1.length + 15 := by
  induction fuel generalizing out br with
  | zero => omega
  | succ fuel ih =>
    refine Ensures.bind (huffmanDecode_fits lit (by omega)) fun s hs => ?_
    obtain ⟨sym, br'⟩ := s
    dsimp only at hs
    cases sym with
    | none => exact Ensures.fail
    | some sym =>
      dsimp only
      split
      · refine Ensures.bind Ensures.require fun _ hroom => ?_
        refine Ensures.bind (emit_fits _ _) fun r hr => ?_
        exact ih (by omega) (by omega) (by omega)
      · split
        · exact Ensures.pure (by dsimp only; omega)
        · have hback : Ensures A Fits (backReference data len outMax dist sym out br') fun r =>
              r.2.pos ≤ br'.pos + 33 ∧ out.length + 3 ≤ r.1.length :=
            backReference_fits dist sym (by omega) (by omega)
          refine Ensures.bind (hback.chain (backReference_ensures hdist sym out)) fun r hr => ?_
          obtain ⟨⟨hpos', hlonger⟩, -, hle, -⟩ := hr
          exact ih hle (by omega) (by omega)

theorem brAlignToByte_fits (h : br.pos + 8 < 2 ^ 35) :
    Ensures A Fits (brAlignToByte br) fun r => r.pos ≤ br.pos + 7 := by
  have hlt := br.bitPos_lt
  rw [BitPos.pos] at h
  rw [brAlignToByte]
  split
  · refine Ensures.bind (add_fits (by omega)) fun r hr => Ensures.pure ?_
    simp only [BitPos.pos, hr]
    omega
  · exact Ensures.pure (Nat.le_add_right _ _)

theorem readPair_fits (pos : ℕ) : Ensures A Fits (readPair data pos) fun v => v < 2 ^ 16 := by
  have hstored : ∀ i, Fits (.stored i) := fun _ => trivial
  refine Ensures.bind (readByte_ensures (hstored _)) fun low hlow => ?_
  refine Ensures.bind (readByte_ensures (hstored _)) fun high hhigh => Ensures.pure ?_
  have hlow := hlow.1
  have hhigh := hhigh.1
  rw [or_shiftLeft_of_lt (show low < 2 ^ 8 from hlow)]
  omega

theorem storedLoop_fits (n src : ℕ) (out : List UInt8) :
    Ensures A Fits (storedLoop data outMax n src out) fun _ => True := by
  induction n generalizing src out with
  | zero => exact Ensures.pure trivial
  | succ n ih =>
    have hstored : Fits (.stored src) := trivial
    refine Ensures.bind (readByte_ensures hstored) fun byte _ => ?_
    exact Ensures.bind (emit_fits _ _) fun r _ => ih _ _

theorem inflateStored_fits {out : List UInt8} (hpos : br.pos + 64 < 2 ^ 35)
    (hlen : len + 2 ^ 16 < 2 ^ 32) (hout : out.length + 2 ^ 16 < 2 ^ 32) :
    Ensures A Fits (inflateStored data len outMax out br) fun r => r.2.pos ≤ 8 * len + 7 := by
  refine Ensures.bind (brAlignToByte_fits (by omega)) fun br' halign => ?_
  have hlt := br'.bitPos_lt
  refine Ensures.bind (add_fits (by rw [BitPos.pos] at halign; omega)) fun start hstart => ?_
  refine Ensures.bind Ensures.require fun _ hheader => ?_
  refine Ensures.bind (readPair_fits _) fun blockLen hblock => ?_
  refine Ensures.bind (readPair_fits _) fun nlen _ => ?_
  refine Ensures.bind Ensures.require fun _ _ => ?_
  refine Ensures.bind (add_fits (by omega)) fun stop hstop => ?_
  refine Ensures.bind Ensures.require fun _ hinside => ?_
  refine Ensures.bind (add_fits (by omega)) fun outEnd _ => ?_
  refine Ensures.bind Ensures.require fun _ _ => ?_
  refine Ensures.bind (storedLoop_fits _ _ _) fun r _ => ?_
  exact Ensures.pure (by simp only [BitPos.pos]; omega)

theorem buildFixedHuffmanTables_fits :
    Ensures A Fits buildFixedHuffmanTables fun r => r.2.lengths.length ≤ 288 := by
  have harrays : ∀ (a : Table) (n : ℕ), ∀ e ∈ (List.range n).map (.array a), Fits e := by
    intro a n e he
    obtain ⟨i, -, rfl⟩ := List.mem_map.mp he
    trivial
  refine Ensures.bind (Ensures.tellAll (harrays _ _)) fun _ _ => ?_
  refine Ensures.bind (build_fits _ _ _) fun lit _ => ?_
  refine Ensures.bind (Ensures.tellAll (harrays _ _)) fun _ _ => ?_
  refine Ensures.bind (build_fits _ _ _) fun dist hdist => Ensures.pure ?_
  rw [hdist]
  exact length_fixedDistLengths.trans_le (by decide)

/-- A block that is not stored has begun inside the data. -/
theorem inflateBlock_fits {fuel btype : ℕ} {out : List UInt8} (hout : out.length ≤ outMax)
    (hfuel : outMax < fuel) (hsize : len + 2 * outMax + 2 ^ 16 < 2 ^ 32)
    (hpos : br.pos ≤ 8 * len + 7100 + 16 * out.length)
    (hinside : btype ≠ 0 → br.pos ≤ 8 * len + 2) :
    Ensures HeaderFits Fits (inflateBlock data len outMax fuel btype out br) fun r =>
      r.2.pos ≤ 8 * len + 7084 + 16 * r.1.length := by
  rw [inflateBlock]
  split
  · exact (inflateStored_fits (by omega) (by omega) (by omega)).weaken fun r hr => by omega
  · next hstored =>
    have hstart := hinside hstored
    split
    · refine Ensures.bind buildFixedHuffmanTables_fits fun tables htables => ?_
      exact (inflateBlockHuffman_fits tables.1 htables hout (by omega) (c := 8 * len + 2) (by omega)
        (by omega)).weaken fun r hr => by omega
    · split
      · have htables : Ensures Fits InTables (readDynamicHuffmanTables data len br) _ :=
          readDynamicHuffmanTables_ensures (tolerates_inTables len) (fun _ _ => trivial)
            (Or.inl fun total htotal => htotal)
        refine Ensures.bind ((readDynamicHuffmanTables_fits (by omega)).chain htables)
          fun tables ht => ?_
        obtain ⟨hheader, -, hdist, -⟩ := ht
        exact (inflateBlockHuffman_fits tables.1.1 hdist hout (by omega) (c := 8 * len + 7069)
          (by omega) (by omega)).weaken fun r hr => by omega
      · exact Ensures.fail

theorem inflateBlocks_fits {fuel blocks : ℕ} {out : List UInt8} (hout : out.length ≤ outMax)
    (hfuel : outMax < fuel) (hsize : len + 2 * outMax + 2 ^ 16 < 2 ^ 32)
    (hpos : br.pos ≤ 8 * len + 7084 + 16 * out.length) :
    Ensures HeaderFits Fits (inflateBlocks data len outMax fuel blocks out br) fun _ => True := by
  induction blocks generalizing out br with
  | zero =>
    have hexhausted : Fits .exhausted := trivial
    exact Ensures.bind (Ensures.tell fun _ => hexhausted) fun _ _ => Ensures.fail
  | succ blocks ih =>
    refine Ensures.bind (brReadBits_fits 1 (by omega)) fun final hfinal => ?_
    have hpos₁ := hfinal.pos sumsFit_fits
    refine Ensures.bind (brReadBits_fits 2 (by omega)) fun btype hbtype => ?_
    have hpos₂ := hbtype.pos sumsFit_fits
    have hinside : btype.1 ≠ 0 → btype.2.pos ≤ 8 * len + 2 := by
      intro hne
      by_contra hend
      exact hne (hbtype.zero sumsFit_fits (by omega))
    have hblock : Ensures HeaderFits Fits
        (inflateBlock data len outMax fuel btype.1 out btype.2) fun r =>
          r.2.pos ≤ 8 * len + 7084 + 16 * r.1.length :=
      inflateBlock_fits hout hfuel hsize (by omega) hinside
    refine Ensures.bind (hblock.chain (inflateBlock_ensures hout hfuel)) fun r hr => ?_
    split
    · exact Ensures.pure trivial
    · exact ih hr.2.1 hr.1

/-- For data and output of less than 2³² bytes together, the output counted twice, with 2¹⁶ bytes to
    spare, no sum wraps around. -/
theorem inflateRaw_fits {fuel : ℕ} (hsize : len + 2 * outMax + 2 ^ 16 < 2 ^ 32)
    (hfuel : outMax < fuel) :
    Ensures HeaderFits Fits (inflateRaw data len outMax fuel) fun _ => True :=
  inflateBlocks_fits (Nat.zero_le _) hfuel hsize (Nat.zero_le _)

/-- Within such sizes, or where no sum wraps around, the decompressor terminates and stays within
    its bounds. -/
theorem inflateRaw_confined (data : List UInt8) (outMax : ℕ) {fuel : ℕ}
    (hfuel : 8 * data.length + outMax < fuel)
    (hheaders : ∀ e ∈ (inflateRaw data data.length outMax fuel).log, HeaderFits e)
    (hsums : data.length + 2 * outMax + 2 ^ 16 < 2 ^ 32 ∨
      ∀ n, .sum n ∈ (inflateRaw data data.length outMax fuel).log → n < 2 ^ 32) :
    (∀ e ∈ (inflateRaw data data.length outMax fuel).log, Confined data.length outMax e) ∧
      ∀ out, (inflateRaw data data.length outMax fuel).value = some out → out.length ≤ outMax := by
  have hfits : ∀ e ∈ (inflateRaw data data.length outMax fuel).log, Fits e := by
    obtain hsize | hsums := hsums
    · exact (inflateRaw_fits hsize (by omega) hheaders).1
    · intro e he
      cases e with
      | sum n => exact hsums n he
      | header total => exact hheaders _ he
      | _ => trivial
  exact inflateRaw_ensures hfuel hfits

/-- A stored block, and a block with its own tables and a back-reference. -/
def twoBlocks : List UInt8 :=
  [0, 1, 0, 254, 255, 98, 13, 192, 129, 0, 0, 0, 0, 128, 32, 214, 252, 37, 62, 11]

theorem inflateRaw_confined_twoBlocks :
    (∀ e ∈ (inflateRaw twoBlocks 20 16 177).log, Confined 20 16 e) ∧
      ∀ out, (inflateRaw twoBlocks 20 16 177).value = some out → out.length ≤ 16 := by
  have hheaders : (inflateRaw twoBlocks 20 16 177).log.all (decide <| HeaderFits ·) = true := by
    decide +kernel
  exact inflateRaw_confined twoBlocks 16 (by decide)
    (fun e he => of_decide_eq_true (List.all_eq_true.mp hheaders e he)) (Or.inl (by decide))

end AuroraOS.Inflate.Traced
