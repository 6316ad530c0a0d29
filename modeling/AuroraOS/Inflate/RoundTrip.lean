import AuroraOS.Inflate.Format

/-!
# Decompression undoes compression

Each reader of `kernel/inflate.c` is run on what the reference encoder writes for it, followed by
anything: a value of the length and distance tables, the tokens of a block, the header of a block
with dynamic codes, a block, and at last the whole stream.

## Main results

- `inflateBlockHuffman_encodeTokens`
- `readDynamicHuffmanTables_encode`
- `inflateBlock_encode`
- `inflateRaw_serialise`
-/

namespace AuroraOS.Inflate

set_option maxRecDepth 4096

open AuroraOS.Lib

/-- The rows cover the values from `lo` to `hi` without a gap. -/
def Covers : ℕ → ℕ → List CodeRow → Prop
  | lo, hi, [] => hi < lo
  | lo, hi, row :: rows => row.first = lo ∧ Covers (row.last + 1) hi rows

instance : ∀ lo hi rows, Decidable (Covers lo hi rows)
  | lo, hi, [] => inferInstanceAs (Decidable (hi < lo))
  | lo, hi, row :: rows =>
    have := instDecidableCovers (row.last + 1) hi rows
    inferInstanceAs (Decidable (row.first = lo ∧ Covers (row.last + 1) hi rows))

theorem rowOf_mem {rows : List CodeRow} {lo hi value : ℕ} (h : Covers lo hi rows)
    (hlo : lo ≤ value) (hhi : value ≤ hi) :
    rowOf rows value ∈ rows ∧ (rowOf rows value).first ≤ value ∧
      value ≤ (rowOf rows value).last := by
  induction rows generalizing lo with
  | nil => exact absurd h (by rw [Covers]; omega)
  | cons row rows ih =>
    obtain ⟨hfirst, hrest⟩ := h
    by_cases hlast : value ≤ row.last
    · have hrow : rowOf (row :: rows) value = row := by
        rw [rowOf, List.find?_cons_of_pos (by simp only [decide_eq_true_eq]; omega),
          Option.getD_some]
      rw [hrow]
      exact ⟨List.mem_cons_self .., by omega, hlast⟩
    · have hrow : rowOf (row :: rows) value = rowOf rows value := by
        rw [rowOf, List.find?_cons_of_neg (by simp only [decide_eq_true_eq]; omega), rowOf]
      rw [hrow]
      obtain ⟨hmem, hle⟩ := ih hrest (by omega)
      exact ⟨List.mem_cons_of_mem _ hmem, hle⟩

/-- A row of the format and the tables of the decoder say the same. -/
structure RowAgrees (offset : ℕ) (base extraBits : List ℕ) (row : CodeRow) : Prop where
  le : offset ≤ row.symbol
  lt : row.symbol - offset < base.length
  base_eq : base.getD (row.symbol - offset) 0 = row.first
  extra_eq : extraBits.getD (row.symbol - offset) 0 = row.extra
  last_lt : row.last < row.first + 2 ^ row.extra

theorem lengthRows_agree : ∀ row ∈ lengthRows, RowAgrees 257 lengthBase lengthExtraBits row := by
  have h : ∀ row ∈ lengthRows, 257 ≤ row.symbol ∧ row.symbol - 257 < lengthBase.length ∧
      lengthBase.getD (row.symbol - 257) 0 = row.first ∧
      lengthExtraBits.getD (row.symbol - 257) 0 = row.extra ∧
      row.last < row.first + 2 ^ row.extra := by decide
  intro row hrow
  obtain ⟨h₁, h₂, h₃, h₄, h₅⟩ := h row hrow
  exact ⟨h₁, h₂, h₃, h₄, h₅⟩

theorem distRows_agree : ∀ row ∈ distRows, RowAgrees 0 distBase distExtraBits row := by
  have h : ∀ row ∈ distRows, 0 ≤ row.symbol ∧ row.symbol - 0 < distBase.length ∧
      distBase.getD (row.symbol - 0) 0 = row.first ∧
      distExtraBits.getD (row.symbol - 0) 0 = row.extra ∧
      row.last < row.first + 2 ^ row.extra := by decide
  intro row hrow
  obtain ⟨h₁, h₂, h₃, h₄, h₅⟩ := h row hrow
  exact ⟨h₁, h₂, h₃, h₄, h₅⟩

theorem lengthRow_agrees {length : ℕ} (h3 : 3 ≤ length) (h258 : length ≤ 258) :
    RowAgrees 257 lengthBase lengthExtraBits (rowOf lengthRows length) ∧
      (rowOf lengthRows length).first ≤ length ∧ length ≤ (rowOf lengthRows length).last := by
  obtain ⟨hmem, hle⟩ := rowOf_mem (show Covers 3 258 lengthRows by decide) h3 h258
  exact ⟨lengthRows_agree _ hmem, hle⟩

theorem distRow_agrees {distance : ℕ} (h1 : 1 ≤ distance) (hmax : distance ≤ 32768) :
    RowAgrees 0 distBase distExtraBits (rowOf distRows distance) ∧
      (rowOf distRows distance).first ≤ distance ∧
      distance ≤ (rowOf distRows distance).last := by
  obtain ⟨hmem, hle⟩ := rowOf_mem (show Covers 1 32768 distRows by decide) h1 hmax
  exact ⟨distRows_agree _ hmem, hle⟩

section tokens

variable {data : List UInt8} {br : BitReader} {p : ℕ} {tail : List Bool}

/-- Reading a value: its symbol, then its extra bits. -/
theorem huffmanDecode_encodeValue {lengths : List ℕ} (hcode : CodeLengths lengths maxHuffmanBits)
    {rows : List CodeRow} {offset value : ℕ} {base extraBits : List ℕ}
    (hagree : RowAgrees offset base extraBits (rowOf rows value))
    (hfirst : (rowOf rows value).first ≤ value) (hlast : value ≤ (rowOf rows value).last)
    (hpos : 0 < lenOf lengths (rowOf rows value).symbol)
    (h : Reader data br p (encodeValue rows (word lengths) value ++ tail)) :
    ∃ br', huffmanDecode (huffmanBuild lengths) br = (some (rowOf rows value).symbol, br') ∧
      base.getD ((rowOf rows value).symbol - offset) 0 +
        (brReadBits br' (extraBits.getD ((rowOf rows value).symbol - offset) 0)).1 = value ∧
      Reader data (brReadBits br' (extraBits.getD ((rowOf rows value).symbol - offset) 0)).2
        (p + (encodeValue rows (word lengths) value).length) tail := by
  have hlt := hagree.last_lt
  rw [encodeValue, List.append_assoc] at h
  obtain ⟨br', hdec, hreader⟩ := huffmanDecode_word hcode hpos h
  obtain ⟨hval, hnext⟩ := brReadBits_lsbBits (by omega) hreader
  refine ⟨br', hdec, ?_, ?_⟩
  · rw [hagree.base_eq, hagree.extra_eq, hval]
    omega
  · rw [hagree.extra_eq, encodeValue, List.length_append, length_lsbBits, ← Nat.add_assoc]
    exact hnext

theorem length_expandToken_le (out : List UInt8) (t : Token) :
    out.length ≤ (expandToken out t).length := by
  cases t with
  | literal b => simp [expandToken]
  | copy length distance => simp [expandToken]

theorem length_le_foldl_expandToken (tokens : List Token) (out : List UInt8) :
    out.length ≤ (tokens.foldl expandToken out).length := by
  induction tokens generalizing out with
  | nil => exact le_rfl
  | cons t ts ih => exact (length_expandToken_le out t).trans (ih _)

/-- Copying byte by byte repeats the last `distance` bytes. -/
theorem copyLoop_eq {out : List UInt8} {length distance : ℕ} (hpos : 0 < distance)
    (hle : distance ≤ out.length) :
    copyLoop length (out.length - distance) out = expandToken out (.copy length distance) := by
  have hloop : ∀ n j,
      copyLoop n (out.length - distance + j) (expandToken out (.copy j distance)) =
        expandToken out (.copy (j + n) distance) := by
    intro n
    induction n with
    | zero => exact fun j => rfl
    | succ n ih =>
      intro j
      -- the byte read is in `out` at first, and later one that the copy has written
      have hbyte : (expandToken out (.copy j distance)).getD (out.length - distance + j) 0 =
          out.getD (out.length - distance + j % distance) 0 := by
        rw [expandToken, List.getD_eq_getElem?_getD]
        by_cases hj : j < distance
        · rw [List.getElem?_append_left (by omega), Nat.mod_eq_of_lt hj,
            List.getD_eq_getElem?_getD]
        · rw [List.getElem?_append_right (by omega),
            show out.length - distance + j - out.length = j - distance by omega,
            List.getElem?_map, List.getElem?_range (by omega), Option.map_some, Option.getD_some,
            Nat.mod_eq_sub_mod (Nat.le_of_not_lt hj)]
      have hstep : expandToken out (.copy j distance) ++
          [(expandToken out (.copy j distance)).getD (out.length - distance + j) 0] =
          expandToken out (.copy (j + 1) distance) := by
        rw [hbyte]
        simp only [expandToken, List.range_succ, List.map_append, List.map_singleton,
          List.append_assoc]
      rw [copyLoop, hstep, Nat.add_assoc, ih (j + 1), Nat.add_assoc, Nat.add_comm 1 n]
  have hstart := hloop length 0
  rw [Nat.zero_add, Nat.add_zero] at hstart
  rw [← hstart]
  simp [expandToken]

variable {litLengths distLengths : List ℕ} {outMax : ℕ}

/-- Decoding one token. -/
theorem inflateBlockHuffman_encodeToken (hlit : CodeLengths litLengths maxHuffmanBits)
    (hdist : CodeLengths distLengths maxHuffmanBits) {out : List UInt8} {t : Token}
    (hvalid : t.Valid out) (hwords : t.HasWords litLengths distLengths)
    (hmax : (expandToken out t).length ≤ outMax)
    (h : Reader data br p (encodeToken (word litLengths) (word distLengths) t ++ tail)) :
    ∃ br', inflateBlockHuffman (huffmanBuild litLengths) (huffmanBuild distLengths) outMax out br =
        inflateBlockHuffman (huffmanBuild litLengths) (huffmanBuild distLengths) outMax
          (expandToken out t) br' ∧
      Reader data br' (p + (encodeToken (word litLengths) (word distLengths) t).length) tail := by
  cases t with
  | literal b =>
    obtain ⟨br', hdec, hreader⟩ := huffmanDecode_word hlit hwords h
    refine ⟨br', ?_, hreader⟩
    have hlen : out.length < outMax := by
      rw [expandToken, List.length_append, List.length_singleton] at hmax
      omega
    rw [inflateBlockHuffman, hdec]
    simp only [if_pos (show b.toNat < 256 from b.toNat_lt), if_neg (Nat.not_le.mpr hlen),
      expandToken, UInt8.ofNat_toNat]
  | copy length distance =>
    obtain ⟨h3, h258, h1, h32768, hback⟩ := hvalid
    obtain ⟨hlrow, hlfirst, hllast⟩ := lengthRow_agrees h3 h258
    obtain ⟨hdrow, hdfirst, hdlast⟩ := distRow_agrees h1 h32768
    rw [encodeToken, List.append_assoc] at h
    obtain ⟨br₁, hdec₁, hlength, hreader₁⟩ :=
      huffmanDecode_encodeValue hlit hlrow hlfirst hllast hwords.1 h
    obtain ⟨br₂, hdec₂, hdistance, hreader₂⟩ :=
      huffmanDecode_encodeValue hdist hdrow hdfirst hdlast hwords.2 hreader₁
    refine ⟨_, ?_, by rw [encodeToken, List.length_append, ← Nat.add_assoc]; exact hreader₂⟩
    have hsym := hlrow.le
    have hsymlt := hlrow.lt
    have hdsymlt := hdrow.lt
    rw [show lengthBase.length = 29 from rfl] at hsymlt
    rw [show distBase.length = 30 from rfl, Nat.sub_zero] at hdsymlt
    rw [Nat.sub_zero] at hdistance
    have hroom : out.length + length ≤ outMax := by
      simpa [expandToken] using hmax
    conv_lhs => rw [inflateBlockHuffman, hdec₁]
    simp only [if_neg (show ¬ (rowOf lengthRows length).symbol < 256 by omega),
      if_neg (show (rowOf lengthRows length).symbol ≠ 256 by omega),
      if_neg (Nat.not_le.mpr hsymlt), hdec₂, if_neg (Nat.not_le.mpr hdsymlt), hlength, hdistance,
      if_neg (show ¬ (distance = 0 ∨ out.length < distance) by omega),
      if_neg (Nat.not_lt.mpr hroom), copyLoop_eq h1 hback, Nat.sub_zero]

/-- Decoding the tokens of a block up to the end-of-block symbol. -/
theorem inflateBlockHuffman_encodeTokens (hlit : CodeLengths litLengths maxHuffmanBits)
    (hdist : CodeLengths distLengths maxHuffmanBits) (hend : 0 < lenOf litLengths 256)
    {out : List UInt8} {tokens : List Token} (hvalid : TokensValid out tokens)
    (hwords : ∀ t ∈ tokens, t.HasWords litLengths distLengths)
    (hmax : (tokens.foldl expandToken out).length ≤ outMax)
    (h : Reader data br p (encodeTokens (word litLengths) (word distLengths) tokens ++ tail)) :
    ∃ br', inflateBlockHuffman (huffmanBuild litLengths) (huffmanBuild distLengths) outMax out br =
        .ok (tokens.foldl expandToken out, br') ∧
      Reader data br' (p + (encodeTokens (word litLengths) (word distLengths) tokens).length)
        tail := by
  induction tokens generalizing out br p with
  | nil =>
    obtain ⟨br', hdec, hreader⟩ := huffmanDecode_word hlit hend h
    refine ⟨br', ?_, hreader⟩
    rw [inflateBlockHuffman, hdec]
    rfl
  | cons t ts ih =>
    obtain ⟨ht, hts⟩ := hvalid
    have hle := length_le_foldl_expandToken ts (expandToken out t)
    have hcons : encodeTokens (word litLengths) (word distLengths) (t :: ts) =
        encodeToken (word litLengths) (word distLengths) t ++
          encodeTokens (word litLengths) (word distLengths) ts := by
      rw [encodeTokens, List.flatMap_cons, List.append_assoc, encodeTokens]
    rw [hcons, List.append_assoc] at h
    obtain ⟨br₁, hrun₁, hreader₁⟩ := inflateBlockHuffman_encodeToken hlit hdist ht
      (hwords t (List.mem_cons_self ..)) (hle.trans hmax) h
    obtain ⟨br₂, hrun₂, hreader₂⟩ := ih hts (fun t' ht' => hwords t' (List.mem_cons_of_mem _ ht'))
      hmax hreader₁
    refine ⟨br₂, hrun₁.trans hrun₂, ?_⟩
    rwa [hcons, List.length_append, ← Nat.add_assoc]

end tokens

section header

variable {data : List UInt8} {br : BitReader} {p : ℕ} {tail : List Bool}

/-- Reading the lengths for the run-length code. -/
theorem readClLengths_of_reader {clLengths syms acc : List ℕ} (hcode : CodeLengths clLengths 7)
    (h : Reader data br p (syms.flatMap (fun sym => lsbBits 3 (lenOf clLengths sym)) ++ tail)) :
    (readClLengths syms acc br).1 =
        syms.foldl (fun acc sym => acc.set sym (lenOf clLengths sym)) acc ∧
      Reader data (readClLengths syms acc br).2
        (p + (syms.flatMap fun sym => lsbBits 3 (lenOf clLengths sym)).length) tail := by
  induction syms generalizing acc br p with
  | nil => exact ⟨rfl, h⟩
  | cons sym syms ih =>
    have hlt : lenOf clLengths sym < 2 ^ 3 := Nat.lt_succ_of_le (hcode.lenOf_le sym)
    rw [List.flatMap_cons, List.append_assoc] at h
    obtain ⟨hval, hnext⟩ := brReadBits_lsbBits hlt h
    obtain ⟨hread, hreader⟩ := @ih (brReadBits br 3).2 (p + 3)
      (acc.set sym (lenOf clLengths sym)) hnext
    rw [readClLengths, hval, List.foldl_cons, List.flatMap_cons, List.length_append,
      length_lsbBits, ← Nat.add_assoc]
    exact ⟨hread, hreader⟩

theorem getElem?_foldl_set (f : ℕ → ℕ) (syms acc : List ℕ) (i : ℕ) (hi : i < acc.length) :
    (syms.foldl (fun acc sym => acc.set sym (f sym)) acc)[i]? =
      if i ∈ syms then some (f i) else acc[i]? := by
  induction syms generalizing acc with
  | nil => rfl
  | cons sym syms ih =>
    rw [List.foldl_cons, ih _ (by rwa [List.length_set])]
    by_cases hmem : i ∈ syms
    · rw [if_pos hmem, if_pos (List.mem_cons_of_mem _ hmem)]
    · rw [if_neg hmem]
      by_cases heq : i = sym
      · rw [if_pos (heq ▸ List.mem_cons_self ..), heq, List.getElem?_set_self (heq ▸ hi)]
      · rw [if_neg (by simp [heq, hmem]), List.getElem?_set_ne (Ne.symm heq)]

theorem length_foldl_set (f : ℕ → ℕ) (syms acc : List ℕ) :
    (syms.foldl (fun acc sym => acc.set sym (f sym)) acc).length = acc.length := by
  induction syms generalizing acc with
  | nil => rfl
  | cons sym syms ih => rw [List.foldl_cons, ih, List.length_set]

/-- The lengths that are not sent are zero. -/
theorem DynamicHeader.foldl_set_clOrder (h : DynamicHeader) :
    (clOrder.take h.hclen).foldl (fun acc sym => acc.set sym (lenOf h.clLengths sym))
      (List.replicate 19 0) = h.clLengths := by
  have horder : ∀ i < 19, i ∈ clOrder := by decide
  refine List.ext_getElem? fun i => ?_
  by_cases hi : i < 19
  · have hlen : i < h.clLengths.length := by
      rw [h.cl_count]
      exact hi
    have hget : h.clLengths[i]? = some (lenOf h.clLengths i) := by
      rw [lenOf, List.getD_eq_getElem?_getD, List.getElem?_eq_getElem hlen, Option.getD_some]
    rw [getElem?_foldl_set _ _ _ _ (by rwa [List.length_replicate]), hget]
    split
    · rfl
    · next hnot =>
      have hmem := horder i hi
      rw [← List.take_append_drop h.hclen clOrder, List.mem_append] at hmem
      rw [h.cl_unsent i (hmem.resolve_left hnot), List.getElem?_replicate, if_pos hi]
  · rw [List.getElem?_eq_none, List.getElem?_eq_none]
    · rw [h.cl_count]
      omega
    · rw [length_foldl_set, List.length_replicate]
      omega

/-- What the decoder does for the symbol of a step is what the step says. -/
theorem LengthOp.repeatOf_symbol {op : LengthOp} {all : List ℕ} (h : op.Valid all) :
    ∃ n < 2 ^ (repeatOf op.symbol all).2.2, op.extra = lsbBits (repeatOf op.symbol all).2.2 n ∧
      op.expand all = all ++
        List.replicate ((repeatOf op.symbol all).2.1 + n) (repeatOf op.symbol all).1 ∧
      ¬ (op.symbol = 16 ∧ all = []) := by
  cases op with
  | len k =>
    have hk : k < 16 := Nat.lt_succ_of_le h
    rw [LengthOp.symbol, repeatOf, if_pos hk]
    exact ⟨0, Nat.one_pos, rfl, rfl, fun h16 => by omega⟩
  | again count =>
    obtain ⟨h3, h6, hne⟩ := h
    refine ⟨count - 3, show count - 3 < 2 ^ 2 by omega, rfl, ?_, fun h16 => hne h16.2⟩
    change all ++ List.replicate count (all.getLastD 0) =
      all ++ List.replicate (3 + (count - 3)) (all.getLastD 0)
    rw [Nat.add_sub_of_le h3]
  | zeros count =>
    obtain ⟨h3, h10⟩ := h
    refine ⟨count - 3, show count - 3 < 2 ^ 3 by omega, rfl, ?_, fun h16 =>
      absurd h16.1 (show (17 : ℕ) ≠ 16 by decide)⟩
    change all ++ List.replicate count 0 = all ++ List.replicate (3 + (count - 3)) 0
    rw [Nat.add_sub_of_le h3]
  | manyZeros count =>
    obtain ⟨h11, h138⟩ := h
    refine ⟨count - 11, show count - 11 < 2 ^ 7 by omega, rfl, ?_,
      fun h16 => absurd h16.1 (show (18 : ℕ) ≠ 16 by decide)⟩
    change all ++ List.replicate count 0 = all ++ List.replicate (11 + (count - 11)) 0
    rw [Nat.add_sub_of_le h11]

theorem length_le_foldl_expand (clLengths : List ℕ) {ops : List LengthOp} {all : List ℕ}
    (h : OpsValid clLengths all ops) : all.length ≤ (ops.foldl LengthOp.expand all).length := by
  induction ops generalizing all with
  | nil => exact le_rfl
  | cons op ops ih =>
    obtain ⟨hop, -, hops⟩ := h
    obtain ⟨n, -, -, hexpand, -⟩ := LengthOp.repeatOf_symbol hop
    refine le_trans ?_ (ih hops)
    rw [hexpand, List.length_append]
    exact Nat.le_add_right _ _

/-- Decoding the run-length code. -/
theorem readLengths_of_reader {clLengths : List ℕ} (hcode : CodeLengths clLengths maxHuffmanBits)
    {ops : List LengthOp} {all : List ℕ} (hvalid : OpsValid clLengths all ops)
    (hsize : (ops.foldl LengthOp.expand all).length ≤ allLengthsSize)
    (h : Reader data br p
      (ops.flatMap (fun op => word clLengths op.symbol ++ op.extra) ++ tail)) :
    ∃ br', readLengths (huffmanBuild clLengths) (ops.foldl LengthOp.expand all).length all br =
        .ok (ops.foldl LengthOp.expand all, br') ∧
      Reader data br'
        (p + (ops.flatMap fun op => word clLengths op.symbol ++ op.extra).length) tail := by
  induction ops generalizing all br p with
  | nil =>
    refine ⟨br, ?_, h⟩
    rw [readLengths, List.foldl_nil, if_pos le_rfl]
  | cons op ops ih =>
    obtain ⟨hop, hpos, hops⟩ := hvalid
    obtain ⟨n, hn, hextra, hexpand, hfirst⟩ := LengthOp.repeatOf_symbol hop
    have hrepeat := repeatOf_pos op.symbol all
    have hmono := length_le_foldl_expand clLengths hops
    rw [List.foldl_cons] at hsize
    have hlength : (op.expand all).length = all.length + ((repeatOf op.symbol all).2.1 + n) := by
      rw [hexpand, List.length_append, List.length_replicate]
    rw [List.flatMap_cons, List.append_assoc, List.append_assoc, hextra] at h
    obtain ⟨br₁, hdec, hreader₁⟩ := huffmanDecode_word hcode hpos h
    obtain ⟨hval, hreader₂⟩ := brReadBits_lsbBits hn hreader₁
    have hstore : storeLengths (ops.foldl LengthOp.expand (op.expand all)).length
        (repeatOf op.symbol all).1 ((repeatOf op.symbol all).2.1 + n) all = op.expand all := by
      rw [storeLengths, hexpand, Nat.min_eq_left]
      rw [← hexpand]
      omega
    obtain ⟨br₂, hrun, hreader₃⟩ := ih hops hsize hreader₂
    refine ⟨br₂, ?_, ?_⟩
    · rw [readLengths, List.foldl_cons, if_neg (by omega), hdec]
      simp only [if_neg hfirst, hval, hstore, if_neg (Nat.not_lt.mpr (hmono.trans hsize))]
      exact hrun
    · rw [List.flatMap_cons, List.length_append, List.length_append, hextra, length_lsbBits]
      simpa only [Nat.add_assoc] using hreader₃

/-- `read_dynamic_huffman_tables` reads the header of a block back. -/
theorem readDynamicHuffmanTables_encode (header : DynamicHeader)
    (h : Reader data br p (header.encode ++ tail)) :
    ∃ br', readDynamicHuffmanTables br =
        .ok (huffmanBuild header.litLengths, huffmanBuild header.distLengths, br') ∧
      Reader data br' (p + header.encode.length) tail := by
  obtain ⟨hlit257, hlit286⟩ := header.lit_count
  obtain ⟨hdist1, hdist30⟩ := header.dist_count
  obtain ⟨hcl4, hcl19⟩ := header.hclen_range
  have htotal : (header.ops.foldl LengthOp.expand []).length =
      header.litLengths.length + header.distLengths.length := by
    rw [header.ops_expand, List.length_append]
  simp only [DynamicHeader.encode, List.append_assoc] at h
  obtain ⟨hhlit, h₁⟩ := brReadBits_lsbBits (show header.litLengths.length - 257 < 2 ^ 5 by omega) h
  obtain ⟨hhdist, h₂⟩ := brReadBits_lsbBits (show header.distLengths.length - 1 < 2 ^ 5 by omega) h₁
  obtain ⟨hhclen, h₃⟩ := brReadBits_lsbBits (show header.hclen - 4 < 2 ^ 4 by omega) h₂
  obtain ⟨hcl, h₄⟩ := @readClLengths_of_reader _ _ _ _ _ _ (List.replicate 19 0) header.cl_code h₃
  rw [header.foldl_set_clOrder] at hcl
  obtain ⟨br', hrun, h₅⟩ := readLengths_of_reader (header.cl_code.mono (by decide)) header.ops_valid
    (by rw [htotal, allLengthsSize]; omega) h₄
  refine ⟨br', ?_, ?_⟩
  · have horder : codeLengthOrder = clOrder := rfl
    simp only [readDynamicHuffmanTables, hhlit, hhdist, hhclen, Nat.sub_add_cancel hlit257,
      Nat.sub_add_cancel hdist1, Nat.sub_add_cancel hcl4, horder, hcl, ← htotal, hrun]
    rw [header.ops_expand, List.take_left, List.drop_left, List.take_length]
  · simp only [DynamicHeader.encode, List.length_append, length_lsbBits]
    simpa only [Nat.add_assoc] using h₅

end header

section fixed

theorem codeLengths_fixedLit : CodeLengths fixedLitLengths maxHuffmanBits := by
  refine .of_sum ?_ (by decide)
  intro len hlen
  simp only [fixedLitLengths, List.mem_append, List.mem_replicate] at hlen
  rw [maxHuffmanBits]
  omega

theorem codeLengths_fixedDist : CodeLengths fixedDistLengths maxHuffmanBits :=
  ⟨by decide, by decide⟩

theorem lenOf_fixedLit_pos {sym : ℕ} (h : sym < 288) : 0 < lenOf fixedLitLengths sym := by
  have hall : ∀ len ∈ fixedLitLengths, 0 < len := by
    intro len hlen
    simp only [fixedLitLengths, List.mem_append, List.mem_replicate] at hlen
    omega
  have hlen : sym < fixedLitLengths.length := by
    simp only [fixedLitLengths, List.length_append, List.length_replicate]
    exact h
  rw [lenOf, List.getD_eq_getElem?_getD, List.getElem?_eq_getElem hlen, Option.getD_some]
  exact hall _ (List.getElem_mem hlen)

theorem lenOf_fixedDist_pos {sym : ℕ} (h : sym < 30) : 0 < lenOf fixedDistLengths sym := by
  rw [lenOf, fixedDistLengths, List.getD_eq_getElem?_getD, List.getElem?_replicate, if_pos h]
  decide

/-- The fixed words are the canonical words for the fixed lengths. -/
theorem fixedLitWord_eq : ∀ sym < 288, fixedLitWord sym = word fixedLitLengths sym := by
  have hwords : (List.range 288).map fixedLitWord =
      List.zipWith msbBits fixedLitLengths (huffmanBuild fixedLitLengths).codes := by
    decide
  intro sym hsym
  have hcode := huffmanBuild_codes codeLengths_fixedLit (lenOf_fixedLit_pos hsym)
  have hget := congrArg (·[sym]?) hwords
  rw [List.getElem?_map, List.getElem?_range hsym, Option.map_some, List.getElem?_zipWith] at hget
  rw [word, ← hcode, lenOf, List.getD_eq_getElem?_getD, List.getD_eq_getElem?_getD]
  cases hlen : fixedLitLengths[sym]? with
  | none => simp [hlen] at hget
  | some len =>
    cases hword : (huffmanBuild fixedLitLengths).codes[sym]? with
    | none => simp [hlen, hword] at hget
    | some c => simpa [hlen, hword] using hget

theorem fixedDistWord_eq : ∀ sym < 30, fixedDistWord sym = word fixedDistLengths sym := by
  decide

theorem Token.Valid.symbol_lt {out : List UInt8} {length distance : ℕ}
    (h : (Token.copy length distance).Valid out) :
    (rowOf lengthRows length).symbol < 286 ∧ (rowOf distRows distance).symbol < 30 := by
  obtain ⟨h3, h258, h1, h32768, -⟩ := h
  have hle := (lengthRow_agrees h3 h258).1.le
  have hlength := (lengthRow_agrees h3 h258).1.lt
  have hdistance := (distRow_agrees h1 h32768).1.lt
  rw [show lengthBase.length = 29 from rfl] at hlength
  rw [show distBase.length = 30 from rfl] at hdistance
  omega

theorem TokensValid.hasWords_fixed {out : List UInt8} {tokens : List Token}
    (h : TokensValid out tokens) :
    ∀ t ∈ tokens, t.HasWords fixedLitLengths fixedDistLengths := by
  induction tokens generalizing out with
  | nil => exact fun t ht => absurd ht List.not_mem_nil
  | cons t ts ih =>
    intro t' ht'
    obtain rfl | hmem := List.mem_cons.mp ht'
    · cases t' with
      | literal b => exact lenOf_fixedLit_pos (b.toNat_lt.trans (by decide))
      | copy length distance =>
        obtain ⟨hlength, hdistance⟩ := h.1.symbol_lt
        exact ⟨lenOf_fixedLit_pos (by omega), lenOf_fixedDist_pos hdistance⟩
    · exact ih h.2 t' hmem

theorem encodeTokens_fixed {out : List UInt8} {tokens : List Token} (h : TokensValid out tokens) :
    encodeTokens fixedLitWord fixedDistWord tokens =
      encodeTokens (word fixedLitLengths) (word fixedDistLengths) tokens := by
  have htokens : tokens.flatMap (encodeToken fixedLitWord fixedDistWord) =
      tokens.flatMap (encodeToken (word fixedLitLengths) (word fixedDistLengths)) := by
    induction tokens generalizing out with
    | nil => rfl
    | cons t ts ih =>
      rw [List.flatMap_cons, List.flatMap_cons, ih h.2]
      congr 1
      cases t with
      | literal b => exact fixedLitWord_eq _ (b.toNat_lt.trans (by decide))
      | copy length distance =>
        obtain ⟨hlength, hdistance⟩ := h.1.symbol_lt
        rw [encodeToken, encodeToken, encodeValue, encodeValue, encodeValue, encodeValue,
          fixedLitWord_eq _ (by omega), fixedDistWord_eq _ hdistance]
  rw [encodeTokens, encodeTokens, htokens, fixedLitWord_eq 256 (by decide)]

end fixed

section blocks

variable {data : List UInt8} {br : BitReader} {p : ℕ} {tail : List Bool}
  {out : List UInt8} {outMax : ℕ}

/-- Skipping the fill bits of a byte. -/
theorem brAlignToByte_of_reader {rest : List Bool}
    (h : Reader data br p (List.replicate ((8 - p % 8) % 8) false ++ rest)) :
    Reader data (brAlignToByte br) (p + (8 - p % 8) % 8) rest ∧ (brAlignToByte br).bitPos = 0 := by
  have hrest : (bitsOf data).drop (p + (8 - p % 8) % 8) = rest := by
    rw [← List.drop_drop, h.rest_eq, List.drop_left' List.length_replicate]
  have hpos := h.pos_eq
  have hlt := br.bitPos_lt
  rw [BitReader.pos] at hpos
  rw [brAlignToByte]
  split
  · refine ⟨⟨h.data_eq, ?_, hrest⟩, rfl⟩
    simp only [BitReader.pos]
    omega
  · next hzero =>
    refine ⟨⟨h.data_eq, ?_, hrest⟩, by omega⟩
    simp only [BitReader.pos]
    omega

/-- Reading a stored block. -/
theorem inflateStored_of_reader {bytes : List UInt8} (hlen : bytes.length ≤ 65535)
    (hmax : (out ++ bytes).length ≤ outMax)
    (h : Reader data br p (List.replicate ((8 - p % 8) % 8) false ++
      (lsbBits 16 bytes.length ++ (lsbBits 16 (65535 - bytes.length) ++ (bitsOf bytes ++ tail))))) :
    ∃ br', inflateStored outMax out br = .ok (out ++ bytes, br') ∧
      Reader data br' (p + (8 - p % 8) % 8 + (16 + (16 + 8 * bytes.length))) tail := by
  obtain ⟨hreader, hbit⟩ := brAlignToByte_of_reader h
  have hpos := hreader.pos_eq
  rw [BitReader.pos, hbit, Nat.add_zero] at hpos
  -- from the byte boundary on, the bits are those of four bytes and of the block
  have hbits := hreader.rest_eq
  rw [← hpos, drop_bitsOf, lsbBits_sixteen (by omega), lsbBits_sixteen (by omega),
    ← List.append_assoc, ← List.append_assoc, ← bitsOf_append, ← bitsOf_append] at hbits
  obtain ⟨zs, hdata, hzs⟩ := exists_of_bitsOf_eq_append hbits
  have hbyte : ∀ i, data.getD ((brAlignToByte br).bytePos + i) 0 =
      (data.drop (brAlignToByte br).bytePos).getD i 0 := by
    intro i
    rw [List.getD_eq_getElem?_getD, List.getD_eq_getElem?_getD, List.getElem?_drop]
  have hlow : ∀ n, (UInt8.ofNat (n % 256)).toNat = n % 256 := fun n =>
    UInt8.toNat_ofNat_of_lt' (Nat.mod_lt _ (by decide))
  have hhigh : ∀ n < 65536, (UInt8.ofNat (n / 256)).toNat = n / 256 := fun n hn =>
    UInt8.toNat_ofNat_of_lt' (show n / 256 < 256 by omega)
  have hword : ∀ n < 65536, n % 256 ||| ((n / 256) <<< 8) = n := by
    intro n hn
    rw [or_shiftLeft_of_lt (show n % 256 < 2 ^ 8 from Nat.mod_lt _ (by decide))]
    omega
  have hroom := congrArg List.length hdata
  simp only [List.length_drop, List.length_append, List.length_cons, List.length_nil] at hroom
  rw [List.length_append] at hmax
  have hnlen : bytes.length ^^^ 65535 = 65535 - bytes.length :=
    xor_two_pow_sub_one (show bytes.length < 2 ^ 16 by omega)
  have hdrop : data.drop ((brAlignToByte br).bytePos + 4) = bytes ++ zs := by
    rw [← List.drop_drop, hdata]
    rfl
  refine ⟨{ brAlignToByte br with bytePos := (brAlignToByte br).bytePos + 4 + bytes.length },
    ?_, ?_⟩
  · simp only [inflateStored, hreader.data_eq, hbyte, hdata]
    rw [if_neg (by omega)]
    simp only [List.cons_append, List.nil_append, List.getD_cons_zero, List.getD_cons_succ, hlow,
      hhigh bytes.length (by omega), hhigh (65535 - bytes.length) (by omega),
      hword bytes.length (by omega), hword (65535 - bytes.length) (by omega)]
    rw [if_neg (not_not.mpr hnlen), if_neg (by omega),
      if_neg (by omega), hdrop, List.take_left]
  · refine ⟨hreader.data_eq, ?_, ?_⟩
    · simp only [BitReader.pos, hbit]
      omega
    · rw [show p + (8 - p % 8) % 8 + (16 + (16 + 8 * bytes.length)) =
        8 * ((brAlignToByte br).bytePos + 4 + bytes.length) by omega, drop_bitsOf,
        ← List.drop_drop, hdrop, List.drop_left, hzs]

/-- Reading the three bits before a block. -/
theorem blockHeader_of_reader {final : Bool} {btype : ℕ} (hbtype : btype < 4)
    (h : Reader data br p (final :: (lsbBits 2 btype ++ tail))) :
    (brReadBits br 1).1 = final.toNat ∧ (brReadBits (brReadBits br 1).2 2).1 = btype ∧
      Reader data (brReadBits (brReadBits br 1).2 2).2 (p + 3) tail := by
  obtain ⟨hfinal, h₁⟩ := @brReadBits_of_reader _ _ _ [final] (lsbBits 2 btype ++ tail) h
  rw [List.length_singleton] at hfinal h₁
  obtain ⟨htype, h₂⟩ := brReadBits_lsbBits hbtype h₁
  exact ⟨by rw [hfinal, lsbVal, lsbVal]; rfl, htype, h₂⟩

/-- Reading a block. -/
theorem inflateBlock_encode {final : Bool} {b : Block} (hvalid : b.Valid out)
    (hmax : (b.expand out).length ≤ outMax) (h : Reader data br p (b.encode p final ++ tail)) :
    (brReadBits br 1).1 = final.toNat ∧
      ∃ br', inflateBlock outMax (brReadBits (brReadBits br 1).2 2).1 out
          (brReadBits (brReadBits br 1).2 2).2 = .ok (b.expand out, br') ∧
        Reader data br' (p + (b.encode p final).length) tail := by
  cases b with
  | stored bytes =>
    simp only [Block.encode, List.cons_append, List.append_assoc] at h
    obtain ⟨hfinal, htype, h₁⟩ := blockHeader_of_reader (by decide) h
    obtain ⟨br', hrun, h₂⟩ := inflateStored_of_reader hvalid hmax h₁
    refine ⟨hfinal, br', ?_, ?_⟩
    · rw [htype, inflateBlock, if_pos rfl, hrun, Block.expand]
    · simp only [Block.encode, List.length_cons, List.length_append, length_lsbBits,
        List.length_replicate, length_bitsOf]
      convert h₂ using 1
      omega
  | fixed tokens =>
    simp only [Block.encode, List.cons_append, List.append_assoc] at h
    rw [encodeTokens_fixed hvalid] at h
    obtain ⟨hfinal, htype, h₁⟩ := blockHeader_of_reader (by decide) h
    obtain ⟨br', hrun, h₂⟩ := inflateBlockHuffman_encodeTokens codeLengths_fixedLit
      codeLengths_fixedDist (lenOf_fixedLit_pos (by decide)) hvalid
      (TokensValid.hasWords_fixed hvalid) hmax h₁
    refine ⟨hfinal, br', ?_, ?_⟩
    · rw [htype, inflateBlock, if_neg (by decide), if_pos rfl, hrun, Block.expand]
    · simp only [Block.encode, List.length_cons, List.length_append, length_lsbBits,
        encodeTokens_fixed hvalid]
      convert h₂ using 1
      omega
  | dynamic header tokens =>
    obtain ⟨htokens, hend, hwords⟩ := hvalid
    simp only [Block.encode, List.cons_append, List.append_assoc] at h
    obtain ⟨hfinal, htype, h₁⟩ := blockHeader_of_reader (by decide) h
    obtain ⟨br₁, htables, h₂⟩ := readDynamicHuffmanTables_encode header h₁
    obtain ⟨br', hrun, h₃⟩ := inflateBlockHuffman_encodeTokens header.lit_code header.dist_code
      hend htokens hwords hmax h₂
    refine ⟨hfinal, br', ?_, ?_⟩
    · rw [htype, inflateBlock, if_neg (by decide), if_neg (by decide), if_pos rfl, htables]
      exact hrun
    · simp only [Block.encode, List.length_cons, List.length_append, length_lsbBits]
      convert h₃ using 1
      omega

theorem length_le_expand (b : Block) (out : List UInt8) : out.length ≤ (b.expand out).length := by
  cases b with
  | stored bytes =>
    rw [Block.expand, List.length_append]
    exact Nat.le_add_right _ _
  | fixed tokens => exact length_le_foldl_expandToken tokens out
  | dynamic header tokens => exact length_le_foldl_expandToken tokens out

theorem length_le_foldl_blocks (blocks : List Block) (out : List UInt8) :
    out.length ≤ (blocks.foldl Block.expand out).length := by
  induction blocks generalizing out with
  | nil => exact le_rfl
  | cons b bs ih => exact (length_le_expand b out).trans (ih _)

/-- Reading block after block up to the final one. -/
theorem inflateBlocks_encodeBlocks {blocks : List Block} (hne : blocks ≠ [])
    (hvalid : BlocksValid out blocks) (hmax : (blocks.foldl Block.expand out).length ≤ outMax)
    (h : Reader data br p (encodeBlocks p blocks ++ tail)) :
    inflateBlocks outMax out br = .ok (blocks.foldl Block.expand out) := by
  induction blocks generalizing out br p with
  | nil => exact absurd rfl hne
  | cons b bs ih =>
    obtain ⟨hb, hbs⟩ := hvalid
    have hle := (length_le_foldl_blocks bs (b.expand out)).trans hmax
    cases bs with
    | nil =>
      obtain ⟨hfinal, br', hrun, -⟩ := @inflateBlock_encode _ _ _ _ _ _ true _ hb hle h
      rw [inflateBlocks]
      split
      · next e herr => exact absurd (hrun.symm.trans herr) (by simp)
      · next out' br'' hok =>
        obtain ⟨rfl, rfl⟩ := Prod.mk.inj (Except.ok.inj (hrun.symm.trans hok))
        rw [hfinal]
        rfl
    | cons b' bs =>
      rw [encodeBlocks, List.append_assoc] at h
      · obtain ⟨hfinal, br', hrun, hreader⟩ := @inflateBlock_encode _ _ _ _ _ _ false _ hb hle h
        rw [inflateBlocks]
        split
        · next e herr => exact absurd (hrun.symm.trans herr) (by simp)
        · next out' br'' hok =>
          obtain ⟨rfl, rfl⟩ := Prod.mk.inj (Except.ok.inj (hrun.symm.trans hok))
          rw [hfinal, Bool.toNat_false, if_neg (not_not.mpr rfl)]
          exact ih (List.cons_ne_nil _ _) hbs hmax hreader
      · exact List.cons_ne_nil _ _

end blocks

/-- `inflate_raw` on a serialised stream of blocks gives the expanded output. -/
theorem inflateRaw_serialise {blocks : List Block} (hne : blocks ≠ [])
    (hvalid : BlocksValid [] blocks)
    {outMax : ℕ} (hmax : (blocks.foldl Block.expand []).length ≤ outMax) :
    inflateRaw (serialise blocks) outMax = .ok (blocks.foldl Block.expand []) := by
  obtain ⟨fill, hfill⟩ := bitsOf_packBytes (encodeBlocks 0 blocks)
  exact inflateBlocks_encodeBlocks hne hvalid hmax ⟨rfl, rfl, hfill⟩

/-- A header with words for a literal, for the end of the block, for a length and for a distance. -/
def smallHeader : DynamicHeader where
  litLengths := List.replicate 97 0 ++ [2] ++ List.replicate 158 0 ++ [2, 1]
  distLengths := [1]
  clLengths := [0, 2, 2, 0, 0, 0, 0, 0, 0, 0, 0, 0, 0, 0, 0, 0, 0, 0, 1]
  hclen := 18
  ops := [.manyZeros 97, .len 2, .manyZeros 138, .manyZeros 20, .len 2, .len 1, .len 1]
  lit_count := by decide
  dist_count := by decide
  lit_code := .of_sum (by decide) (by decide)
  dist_code := ⟨by decide, by decide⟩
  cl_count := by decide
  cl_code := ⟨by decide, by decide⟩
  hclen_range := by decide
  cl_unsent := by decide
  ops_valid := by decide
  ops_expand := by decide

/-- A stored block, a block with the fixed words and one with words of its own. -/
theorem inflateRaw_serialise_three_blocks :
    inflateRaw (serialise [.stored [104], .fixed [.literal 105, .copy 3 2],
      .dynamic smallHeader [.literal 97, .copy 3 1]]) 9 =
      .ok [104, 105, 104, 105, 104, 97, 97, 97, 97] :=
  inflateRaw_serialise (List.cons_ne_nil _ _) (by decide) (by decide)

end AuroraOS.Inflate
