import AuroraOS.Inflate.Model
import AuroraOS.Lib.CanonicalCode

/-!
# Huffman decoding

`huffman_build` assigns the canonical code words, and `huffman_decode` reads a word back as its
symbol whatever follows it.

## Main definitions

- `Reader` — where a bit reader stands and what it will read
- `BitReader.nextBits` — the bits a reader will read
- `word` — the canonical word of a symbol, its highest bit first
- `HuffmanTable.codeword` — the word a table holds for a symbol

## Main results

- `huffmanBuild_codes`
- `huffmanDecode_word`
- `huffmanBuild_prefixFree`
-/

namespace AuroraOS.Inflate

open AuroraOS.Lib

/-- The reader has read `p` bits of `data`, and `rest` are the bits after them. -/
structure Reader (data : List UInt8) (br : BitReader) (p : ℕ) (rest : List Bool) : Prop where
  data_eq : br.data = data
  pos_eq : br.pos = p
  rest_eq : (bitsOf data).drop p = rest

section reader

variable {data : List UInt8} {br : BitReader} {p : ℕ}

theorem bit_of_reader {b : Bool} {rest : List Bool} (h : Reader data br p (b :: rest)) :
    br.bit = b.toNat := by
  have hpos := h.pos_eq
  have hlt := br.bitPos_lt
  rw [BitReader.pos] at hpos
  have hget : (bitsOf data)[p]? = some b := by
    have hdrop : ((bitsOf data).drop p)[0]? = (bitsOf data)[p + 0]? := List.getElem?_drop
    rw [h.rest_eq, Nat.add_zero] at hdrop
    exact hdrop.symm
  rw [getElem?_bitsOf, ← hpos, show (8 * br.bytePos + br.bitPos) / 8 = br.bytePos by omega,
    show (8 * br.bytePos + br.bitPos) % 8 = br.bitPos by omega] at hget
  obtain ⟨x, hx, hb⟩ := Option.map_eq_some_iff.mp hget
  obtain ⟨hbound, -⟩ := List.getElem?_eq_some_iff.mp hx
  rw [BitReader.bit, h.data_eq, if_pos hbound, List.getD_eq_getElem?_getD, hx, Option.getD_some,
    Nat.shiftRight_eq_div_pow, Nat.and_one_is_mod, ← hb]
  obtain h0 | h1 := Nat.mod_two_eq_zero_or_one (x.toNat / 2 ^ br.bitPos)
  · simp [h0]
  · simp [h1]

theorem Reader.next {b : Bool} {rest : List Bool} (h : Reader data br p (b :: rest)) :
    Reader data br.next (p + 1) rest := by
  refine ⟨by rw [next_data, h.data_eq], by rw [next_pos, h.pos_eq], ?_⟩
  rw [← List.drop_drop, h.rest_eq, List.drop_one, List.tail_cons]

/-- The next `n` bits, as they will be read. -/
def BitReader.nextBits : ℕ → BitReader → List Bool
  | 0, _ => []
  | n + 1, br => decide (br.bit = 1) :: nextBits n br.next

theorem toNat_bit (br : BitReader) : (decide (br.bit = 1)).toNat = br.bit := by
  have hle : br.bit ≤ 1 := by
    rw [BitReader.bit]
    split
    · rw [Nat.and_one_is_mod]
      omega
    · exact Nat.zero_le 1
  obtain h | h : br.bit = 0 ∨ br.bit = 1 := by omega
  · rw [h]
    rfl
  · rw [h]
    rfl

theorem brReadBits_one (br : BitReader) : brReadBits br 1 = (br.bit, br.next) := by
  simp only [brReadBits, brReadBitsLoop, Nat.shiftLeft_zero, Nat.zero_or]

theorem iterate_next (n : ℕ) (br : BitReader) :
    (BitReader.next^[n] br).data = br.data ∧ (BitReader.next^[n] br).pos = br.pos + n := by
  induction n with
  | zero => exact ⟨rfl, rfl⟩
  | succ n ih =>
    rw [Function.iterate_succ_apply', next_data, next_pos, ih.1, ih.2]
    exact ⟨rfl, Nat.add_assoc _ _ _⟩

theorem Reader.nextBits {bits tail : List Bool} (h : Reader data br p (bits ++ tail)) :
    br.nextBits bits.length = bits ∧
      Reader data (BitReader.next^[bits.length] br) (p + bits.length) tail := by
  induction bits generalizing br p with
  | nil => exact ⟨rfl, h⟩
  | cons b bits ih =>
    obtain ⟨hbits, hreader⟩ := ih h.next
    rw [List.length_cons, BitReader.nextBits, hbits, bit_of_reader h, Function.iterate_succ_apply,
      Nat.add_comm bits.length 1, ← Nat.add_assoc]
    refine ⟨?_, hreader⟩
    cases b <;> rfl

theorem brReadBitsLoop_of_reader {bits tail : List Bool} (h : Reader data br p (bits ++ tail))
    {i result : ℕ} (hresult : result < 2 ^ i) :
    (brReadBitsLoop bits.length i result br).1 = result + 2 ^ i * lsbVal bits ∧
      Reader data (brReadBitsLoop bits.length i result br).2 (p + bits.length) tail := by
  induction bits generalizing br p i result with
  | nil => exact ⟨by simp [brReadBitsLoop, lsbVal], h⟩
  | cons b bits ih =>
    have hb := b.toNat_le
    have hlt : result + 2 ^ i * b.toNat < 2 ^ (i + 1) := by
      have hmul := Nat.mul_le_mul_left (2 ^ i) hb
      rw [pow_succ]
      omega
    obtain ⟨hval, hreader⟩ := ih h.next hlt
    rw [List.length_cons, brReadBitsLoop, bit_of_reader h, or_shiftLeft_of_lt hresult]
    refine ⟨?_, ?_⟩
    · rw [hval, lsbVal, pow_succ]
      ring
    · rwa [Nat.add_assoc, Nat.add_comm 1] at hreader

/-- Reading a number. -/
theorem brReadBits_of_reader {bits tail : List Bool} (h : Reader data br p (bits ++ tail)) :
    (brReadBits br bits.length).1 = lsbVal bits ∧
      Reader data (brReadBits br bits.length).2 (p + bits.length) tail := by
  have hloop := brReadBitsLoop_of_reader h (show 0 < 2 ^ 0 by decide)
  simpa [brReadBits] using hloop

theorem brReadBits_lsbBits {k n : ℕ} {tail : List Bool} (hn : n < 2 ^ k)
    (h : Reader data br p (lsbBits k n ++ tail)) :
    (brReadBits br k).1 = n ∧ Reader data (brReadBits br k).2 (p + k) tail := by
  have hread := brReadBits_of_reader h
  rwa [length_lsbBits, lsbVal_lsbBits, Nat.mod_eq_of_lt hn] at hread

end reader

/-- The length of the word of a symbol. -/
def lenOf (lengths : List ℕ) (sym : ℕ) : ℕ := lengths.getD sym 0

/-- Lengths that make a prefix code of words of at most `maxBits` bits. -/
structure CodeLengths (lengths : List ℕ) (maxBits : ℕ) : Prop where
  le : ∀ len ∈ lengths, len ≤ maxBits
  kraft_le : kraft lengths.length maxBits (lenOf lengths) ≤ 2 ^ maxBits

/-- The canonical word of a symbol. -/
def word (lengths : List ℕ) (sym : ℕ) : List Bool :=
  msbBits (lenOf lengths sym) (code lengths.length (lenOf lengths) sym)

section build

variable {lengths : List ℕ}

theorem CodeLengths.lenOf_le {maxBits : ℕ} (h : CodeLengths lengths maxBits) (sym : ℕ) :
    lenOf lengths sym ≤ maxBits := by
  rw [lenOf, List.getD_eq_getElem?_getD]
  cases hget : lengths[sym]? with
  | none => exact Nat.zero_le _
  | some len => exact h.le len (List.mem_of_getElem? hget)

theorem CodeLengths.mono {maxBits maxBits' : ℕ} (h : CodeLengths lengths maxBits)
    (hle : maxBits ≤ maxBits') : CodeLengths lengths maxBits' :=
  ⟨fun len hlen => (h.le len hlen).trans hle, kraft_mono hle (fun s _ => h.lenOf_le s) h.kraft_le⟩

/-- The Kraft inequality, over the list of the lengths. -/
theorem CodeLengths.of_sum {maxBits : ℕ} (hle : ∀ len ∈ lengths, len ≤ maxBits)
    (hsum : (lengths.map fun l => if 0 < l then 2 ^ (maxBits - l) else 0).sum ≤ 2 ^ maxBits) :
    CodeLengths lengths maxBits :=
  ⟨hle, (kraft_getD lengths maxBits).trans_le hsum⟩

theorem lt_of_lenOf_pos {sym : ℕ} (h : 0 < lenOf lengths sym) : sym < lengths.length := by
  by_contra hge
  rw [lenOf, List.getD_eq_getElem?_getD, List.getElem?_eq_none (by omega)] at h
  exact absurd h (by simp)

theorem card_lenOf (k : ℕ) :
    ((Finset.range lengths.length).filter fun s => lenOf lengths s = k).card =
      lengths.count k := by
  have h := card_filter_getD lengths (t := lengths.length) (k := k) le_rfl
  rwa [List.take_length] at h

theorem getD_modify {l : List ℕ} {i : ℕ} (hi : i < l.length) (f : ℕ → ℕ) (j : ℕ) :
    (l.modify i f).getD j 0 = if j = i then f (l.getD i 0) else l.getD j 0 := by
  by_cases hj : j = i
  · subst hj
    simp [List.getElem?_eq_getElem hi]
  · rw [List.getD_eq_getElem?_getD, List.getElem?_modify_ne _ _ (Ne.symm hj), if_neg hj,
      List.getD_eq_getElem?_getD]

/-- `bl_count` counts. -/
theorem blCount_getD {k : ℕ} (hk : 0 < k) (hk' : k ≤ maxHuffmanBits) :
    (blCount lengths).getD k 0 = lengths.count k := by
  have hloop : ∀ (ls counts : List ℕ), k < counts.length →
      (ls.foldl (fun counts len => if 0 < len then counts.modify len (· + 1) else counts)
        counts).getD k 0 = counts.getD k 0 + ls.count k := by
    intro ls
    induction ls with
    | nil => simp
    | cons l ls ih =>
      intro counts hlen
      rw [List.foldl_cons, ih _ (by split <;> simpa using hlen), List.count_cons]
      by_cases hl : l = k
      · subst hl
        rw [if_pos hk, getD_modify hlen, if_pos rfl, beq_self_eq_true, if_pos rfl]
        omega
      · have hsame : (if 0 < l then counts.modify l (· + 1) else counts).getD k 0 =
            counts.getD k 0 := by
          split
          · rw [List.getD_eq_getElem?_getD, List.getElem?_modify_ne _ _ hl,
              List.getD_eq_getElem?_getD]
          · rfl
        rw [hsame]
        simp [hl]
  rw [blCount, hloop _ _ (by simp; omega)]
  simp [List.getD_eq_getElem?_getD, hk']

theorem blCount_zero : (blCount lengths).getD 0 0 = 0 := by
  have hloop : ∀ (ls counts : List ℕ), counts.getD 0 0 = 0 →
      (ls.foldl (fun counts len => if 0 < len then counts.modify len (· + 1) else counts)
        counts).getD 0 0 = 0 := by
    intro ls
    induction ls with
    | nil => exact fun _ h => h
    | cons l ls ih =>
      intro counts h
      rw [List.foldl_cons]
      apply ih
      split
      · next hl =>
        rw [List.getD_eq_getElem?_getD, List.getElem?_modify_ne _ _ (by omega),
          ← List.getD_eq_getElem?_getD, h]
      · exact h
  exact hloop _ _ rfl

/-- One turn of the loop that fills `next_code`. -/
theorem firstCode_step (h : CodeLengths lengths maxHuffmanBits) {k : ℕ} (hk : k < maxHuffmanBits) :
    ((firstCode lengths.length (lenOf lengths) k + (blCount lengths).getD k 0) <<< 1) % 2 ^ 16 =
      firstCode lengths.length (lenOf lengths) (k + 1) := by
  have hstep : 2 * (firstCode lengths.length (lenOf lengths) k + (blCount lengths).getD k 0) =
      firstCode lengths.length (lenOf lengths) (k + 1) := by
    cases k with
    | zero => rw [blCount_zero, firstCode_of_le_one (by omega), firstCode_of_le_one (by omega)]
    | succ k => rw [firstCode_succ (k + 1) (by omega), card_lenOf, blCount_getD (by omega) hk.le]
  have hle := firstCode_add_card_le h.kraft_le (k := k + 1) (by omega) hk
  have hpow : 2 ^ (k + 1) ≤ 2 ^ 15 := Nat.pow_le_pow_right (by decide) hk
  rw [Nat.shiftLeft_eq, pow_one, Nat.mul_comm, hstep, Nat.mod_eq_of_lt (by omega)]

/-- `next_code` holds the first word of each length. -/
theorem nextCodeLoop_getD (h : CodeLengths lengths maxHuffmanBits) {n bits : ℕ} {nextCode : List ℕ}
    (hbits : 0 < bits) (hn : bits + n = maxHuffmanBits + 1)
    (hlen : nextCode.length = maxHuffmanBits + 1)
    (hdone : ∀ k, 0 < k → k < bits →
      nextCode.getD k 0 = firstCode lengths.length (lenOf lengths) k) :
    ∀ k, 0 < k → k ≤ maxHuffmanBits →
      (nextCodeLoop (blCount lengths) n bits
        (firstCode lengths.length (lenOf lengths) (bits - 1)) nextCode).getD k 0 =
        firstCode lengths.length (lenOf lengths) k := by
  induction n generalizing bits nextCode with
  | zero => exact fun k hk hk' => hdone k hk (by omega)
  | succ n ih =>
    have hstep := firstCode_step h (k := bits - 1) (by omega)
    rw [Nat.sub_add_cancel hbits] at hstep
    simp only [nextCodeLoop, hstep]
    have hih := @ih (bits + 1) (nextCode.set bits (firstCode lengths.length (lenOf lengths) bits))
      (by omega) (by omega) (by simpa using hlen) (by
        intro k hk hk'
        by_cases heq : k = bits
        · rw [heq, List.getD_eq_getElem?_getD, List.getElem?_set_self (by omega), Option.getD_some]
        · rw [List.getD_eq_getElem?_getD, List.getElem?_set_ne (by omega),
            ← List.getD_eq_getElem?_getD, hdone k hk (by omega)])
    exact hih

/-- The codes are handed out in order. -/
theorem assignCodes_getD {ls nextCode : List ℕ} (hlen : ∀ l ∈ ls, l < nextCode.length)
    (hbound : ∀ k, 0 < k → nextCode.getD k 0 + ls.count k < 2 ^ 16) {sym : ℕ}
    (hpos : 0 < ls.getD sym 0) :
    (assignCodes ls nextCode).getD sym 0 =
      nextCode.getD (ls.getD sym 0) 0 + (ls.take sym).count (ls.getD sym 0) := by
  induction ls generalizing nextCode sym with
  | nil => simp at hpos
  | cons l ls ih =>
    rw [assignCodes]
    by_cases hl : 0 < l
    · rw [if_pos hl]
      cases sym with
      | zero => simp
      | succ sym =>
        rw [List.getD_cons_succ] at hpos ⊢
        have hlt : l < nextCode.length := hlen l (List.mem_cons_self ..)
        have hroom := hbound l hl
        rw [List.count_cons_self] at hroom
        have hmodify : ∀ k, (nextCode.modify l fun code => (code + 1) % 2 ^ 16).getD k 0 =
            if k = l then nextCode.getD l 0 + 1 else nextCode.getD k 0 := by
          intro k
          rw [getD_modify hlt, Nat.mod_eq_of_lt (by omega)]
        rw [List.getD_cons_succ, @ih (nextCode.modify l fun code => (code + 1) % 2 ^ 16)
          (fun l' hl' => by rw [List.length_modify]; exact hlen l' (List.mem_cons_of_mem _ hl'))
          (fun k hk => ?_) sym hpos, hmodify, List.take_succ_cons, List.count_cons]
        · by_cases heq : ls.getD sym 0 = l
          · rw [if_pos heq, heq, beq_self_eq_true, if_pos rfl]
            omega
          · rw [if_neg heq, beq_eq_false_iff_ne.mpr (Ne.symm heq), if_neg Bool.false_ne_true,
              Nat.add_zero]
        · have hroom' := hbound k hk
          rw [hmodify]
          rw [List.count_cons] at hroom'
          by_cases heq : k = l
          · rw [if_pos heq, heq]
            omega
          · rw [if_neg heq]
            omega
    · rw [if_neg hl]
      cases sym with
      | zero => exact absurd hpos (by simpa using hl)
      | succ sym =>
        rw [List.getD_cons_succ] at hpos ⊢
        rw [List.getD_cons_succ, ih (fun l' hl' => hlen l' (List.mem_cons_of_mem _ hl'))
          (fun k hk => ?_) hpos, List.take_succ_cons, List.count_cons_of_ne (by omega)]
        have hroom := hbound k hk
        rwa [List.count_cons_of_ne (by omega)] at hroom

/-- `huffman_build` assigns the canonical code words. -/
theorem huffmanBuild_codes (h : CodeLengths lengths maxHuffmanBits) {sym : ℕ}
    (hpos : 0 < lenOf lengths sym) :
    (huffmanBuild lengths).codes.getD sym 0 = code lengths.length (lenOf lengths) sym := by
  have hsym := lt_of_lenOf_pos hpos
  have hmax : maxHuffmanBits = 15 := rfl
  have hnext :=
    @nextCodeLoop_getD lengths h maxHuffmanBits 1 (List.replicate (maxHuffmanBits + 1) 0)
    Nat.one_pos (Nat.add_comm _ _) List.length_replicate (fun k hk hk' => by omega)
  rw [Nat.sub_self, firstCode_of_le_one (Nat.zero_le _)] at hnext
  have hlength : ∀ n bits code nextCode,
      (nextCodeLoop (blCount lengths) n bits code nextCode).length = nextCode.length := by
    intro n
    induction n with
    | zero => exact fun _ _ _ => rfl
    | succ n ih => exact fun bits code nextCode => by rw [nextCodeLoop, ih, List.length_set]
  rw [huffmanBuild, assignCodes_getD]
  · change (nextCodeLoop _ _ _ _ _).getD (lenOf lengths sym) 0 + _ = _
    rw [hnext _ hpos (h.lenOf_le sym), code_eq hsym.le hpos]
    congr 1
    exact (card_filter_getD lengths hsym.le).symm
  · intro l hl
    rw [hlength, List.length_replicate]
    exact Nat.lt_succ_of_le (h.le l hl)
  · intro k hk
    by_cases hkmax : k ≤ maxHuffmanBits
    · have hle := firstCode_add_card_le h.kraft_le hk hkmax
      have hpow : 2 ^ k ≤ 2 ^ 15 := Nat.pow_le_pow_right (by decide) hkmax
      rw [card_lenOf] at hle
      rw [hnext k hk hkmax]
      omega
    · have hzero : lengths.count k = 0 := by
        rw [List.count_eq_zero]
        exact fun hmem => hkmax (h.le k hmem)
      rw [hzero, List.getD_eq_getElem?_getD, List.getElem?_eq_none]
      · exact Nat.two_pow_pos 16
      · rw [hlength, List.length_replicate]
        omega
  · exact hpos

end build

section decode

variable {lengths : List ℕ} {sym : ℕ}

@[simp]
theorem length_word : (word lengths sym).length = lenOf lengths sym := length_msbBits _ _

/-- The search finds the symbol of a word and nothing for a proper beginning of one. -/
theorem huffmanSearch_eq (h : CodeLengths lengths maxHuffmanBits) (hpos : 0 < lenOf lengths sym)
    {j : ℕ} (hj : 0 < j) (hjle : j ≤ lenOf lengths sym) :
    huffmanSearch (huffmanBuild lengths) j (msbVal ((word lengths sym).take j)) =
      if j = lenOf lengths sym then some sym else none := by
  have hsym := lt_of_lenOf_pos hpos
  have hcode := code_lt h.kraft_le hsym hpos (h.lenOf_le sym)
  have hval : msbVal ((word lengths sym).take j) =
      code lengths.length (lenOf lengths) sym / 2 ^ (lenOf lengths sym - j) :=
    msbVal_take_msbBits hcode j
  have hunique : ∀ s, lenOf lengths s = j →
      (huffmanBuild lengths).codes.getD s 0 = msbVal ((word lengths sym).take j) → s = sym := by
    intro s hlen hs
    have hspos : 0 < lenOf lengths s := hlen ▸ hj
    rw [huffmanBuild_codes h hspos, hval, ← hlen] at hs
    exact eq_of_prefix (lt_of_lenOf_pos hspos) hsym hspos hpos (hlen ▸ hjle) hs.symm
  rw [huffmanSearch]
  split
  · next heq =>
    have hmatch : lenOf lengths sym = j ∧
        (huffmanBuild lengths).codes.getD sym 0 = msbVal ((word lengths sym).take j) := by
      refine ⟨heq.symm, ?_⟩
      rw [huffmanBuild_codes h hpos, hval, heq, Nat.sub_self, pow_zero, Nat.div_one]
    cases hfind : (List.range (huffmanBuild lengths).lengths.length).find? fun s =>
        decide ((huffmanBuild lengths).lengths.getD s 0 = j ∧
          (huffmanBuild lengths).codes.getD s 0 = msbVal ((word lengths sym).take j)) with
    | none =>
      have hnone := List.find?_eq_none.mp hfind sym (List.mem_range.mpr hsym)
      exact absurd (decide_eq_true hmatch) hnone
    | some s =>
      have hs := List.find?_some hfind
      simp only [decide_eq_true_eq] at hs
      rw [hunique s hs.1 hs.2]
  · next hne =>
    rw [List.find?_eq_none]
    intro s _ hs
    have hs' := of_decide_eq_true hs
    have hsym' : s = sym := hunique s hs'.1 hs'.2
    subst hsym'
    exact hne hs'.1.symm

/-- The loop of `huffman_decode` after `j` bits of a word. -/
theorem huffmanDecodeLoop_nextBits (h : CodeLengths lengths maxHuffmanBits) {br : BitReader}
    {j n : ℕ} (hbits : br.nextBits (lenOf lengths sym - j) = (word lengths sym).drop j)
    (hj : j < lenOf lengths sym) (hn : lenOf lengths sym ≤ j + n) :
    huffmanDecodeLoop (huffmanBuild lengths) n (j + 1) (msbVal ((word lengths sym).take j)) br =
      (some sym, BitReader.next^[lenOf lengths sym - j] br) := by
  induction n generalizing br j with
  | zero => omega
  | succ n ih =>
    have hpos : 0 < lenOf lengths sym := by omega
    have hjw : j < (word lengths sym).length := by rw [length_word]; exact hj
    have hsub : lenOf lengths sym - j = lenOf lengths sym - (j + 1) + 1 := by omega
    rw [List.drop_eq_getElem_cons hjw, hsub, BitReader.nextBits] at hbits
    obtain ⟨hbit, hnext⟩ := List.cons.inj hbits
    have htake : (word lengths sym).take (j + 1) =
      (word lengths sym).take j ++ [(word lengths sym)[j]] :=
      List.take_succ_eq_append_getElem hjw
    have hcode : ((msbVal ((word lengths sym).take j) <<< 1) ||| br.bit) % 2 ^ 16 =
        msbVal ((word lengths sym).take (j + 1)) := by
      have hlt := msbVal_lt ((word lengths sym).take (j + 1))
      have hpow : 2 ^ ((word lengths sym).take (j + 1)).length ≤ 2 ^ 15 := by
        apply Nat.pow_le_pow_right (by decide)
        rw [List.length_take, length_word]
        exact (Nat.min_le_right _ _).trans (h.lenOf_le sym)
      have hb := (word lengths sym)[j].toNat_le
      have hor : (msbVal ((word lengths sym).take j) <<< 1) ||| br.bit =
          msbVal ((word lengths sym).take (j + 1)) := by
        rw [← toNat_bit br, hbit, htake, msbVal_append_singleton, Nat.or_comm,
          or_shiftLeft_of_lt (by omega), pow_one, Nat.add_comm]
      rw [hor, Nat.mod_eq_of_lt (by omega)]
    simp only [huffmanDecodeLoop, brReadBits_one, hcode,
      huffmanSearch_eq h hpos (Nat.succ_pos j) hj]
    by_cases hlast : j + 1 = lenOf lengths sym
    · rw [if_pos hlast, show lenOf lengths sym - j = 1 by omega, Function.iterate_one]
    · rw [if_neg hlast, hsub, Function.iterate_succ_apply]
      exact ih hnext (by omega) (by omega)

/-- A reader whose next bits are the word of a symbol decodes that symbol. -/
theorem huffmanDecode_nextBits (h : CodeLengths lengths maxHuffmanBits)
    (hpos : 0 < lenOf lengths sym) {br : BitReader}
    (hbits : br.nextBits (lenOf lengths sym) = word lengths sym) :
    huffmanDecode (huffmanBuild lengths) br =
      (some sym, BitReader.next^[lenOf lengths sym] br) := by
  have hloop := @huffmanDecodeLoop_nextBits lengths sym h br 0 maxHuffmanBits hbits hpos
    (by rw [Nat.zero_add]; exact h.lenOf_le sym)
  exact hloop

/-- `huffman_decode` reads the word of a symbol as that symbol. -/
theorem huffmanDecode_word (h : CodeLengths lengths maxHuffmanBits) (hpos : 0 < lenOf lengths sym)
    {data : List UInt8} {br : BitReader} {p : ℕ} {tail : List Bool}
    (hreader : Reader data br p (word lengths sym ++ tail)) :
    ∃ br', huffmanDecode (huffmanBuild lengths) br = (some sym, br') ∧
      Reader data br' (p + (word lengths sym).length) tail := by
  obtain ⟨hbits, hreader'⟩ := hreader.nextBits
  rw [length_word] at hbits
  rw [length_word] at hreader' ⊢
  exact ⟨_, huffmanDecode_nextBits h hpos hbits, hreader'⟩

end decode

section prefixFree

variable {lengths : List ℕ}

/-- The word a table holds for a symbol, its highest bit first. -/
def HuffmanTable.codeword (t : HuffmanTable) (sym : ℕ) : List Bool :=
  msbBits (t.lengths.getD sym 0) (t.codes.getD sym 0)

/-- The Kraft inequality for the lengths of the used symbols. -/
def KraftInequality (lengths : List ℕ) : Prop :=
  (lengths.map fun len => if 0 < len then ((2 : ℚ) ^ len)⁻¹ else 0).sum ≤ 1

theorem KraftInequality.codeLengths {maxBits : ℕ} (h : KraftInequality lengths)
    (hle : ∀ len ∈ lengths, len ≤ maxBits) : CodeLengths lengths maxBits := by
  refine .of_sum hle ?_
  have hscale :
    (((lengths.map fun len => if 0 < len then 2 ^ (maxBits - len) else 0).sum : ℕ) : ℚ) =
      2 ^ maxBits * (lengths.map fun len => if 0 < len then ((2 : ℚ) ^ len)⁻¹ else 0).sum := by
    rw [Nat.cast_list_sum, List.map_map, ← List.sum_map_mul_left]
    refine congrArg List.sum (List.map_congr_left fun len hlen => ?_)
    simp only [Function.comp_apply]
    split
    · rw [Nat.cast_pow, Nat.cast_ofNat, pow_sub₀ _ two_ne_zero (hle len hlen)]
    · rw [Nat.cast_zero, mul_zero]
  have hpow : (0 : ℚ) ≤ 2 ^ maxBits := pow_nonneg zero_le_two _
  have hsum := mul_le_mul_of_nonneg_left h hpow
  rw [← hscale, mul_one] at hsum
  exact_mod_cast hsum

theorem codeword_huffmanBuild (h : CodeLengths lengths maxHuffmanBits) {sym : ℕ}
    (hpos : 0 < lenOf lengths sym) :
    (huffmanBuild lengths).codeword sym = word lengths sym := by
  rw [HuffmanTable.codeword, huffmanBuild_codes h hpos]
  rfl

/-- No word begins another one. -/
theorem eq_of_word_isPrefix (h : CodeLengths lengths maxHuffmanBits) {s t : ℕ}
    (hs : 0 < lenOf lengths s) (ht : 0 < lenOf lengths t)
    (hword : word lengths s <+: word lengths t) : s = t := by
  have hle := hword.length_le
  rw [length_word, length_word] at hle
  have hcode := fun u (hu : 0 < lenOf lengths u) =>
    code_lt h.kraft_le (lt_of_lenOf_pos hu) hu (h.lenOf_le u)
  refine eq_of_prefix (lt_of_lenOf_pos hs) (lt_of_lenOf_pos ht) hs ht hle ?_
  have htake := congrArg msbVal (List.prefix_iff_eq_take.mp hword)
  rw [length_word, word, word, msbVal_msbBits (hcode s hs),
    msbVal_take_msbBits (hcode t ht)] at htake
  exact htake.symm

/-- Lengths that satisfy the Kraft inequality get words of these lengths of which none begins
    another one, and `huffman_decode` reads each of them as its symbol. -/
theorem huffmanBuild_prefixFree (hle : ∀ len ∈ lengths, len ≤ 15)
    (hkraft : KraftInequality lengths) :
    (∀ s, 0 < lengths.getD s 0 → (huffmanBuild lengths).codes.getD s 0 < 2 ^ lengths.getD s 0) ∧
      (∀ s u, 0 < lengths.getD s 0 → 0 < lengths.getD u 0 →
        (huffmanBuild lengths).codeword s <+: (huffmanBuild lengths).codeword u → s = u) ∧
      ∀ s, 0 < lengths.getD s 0 → ∀ br : BitReader,
        br.nextBits (lengths.getD s 0) = (huffmanBuild lengths).codeword s →
        ∃ br', huffmanDecode (huffmanBuild lengths) br = (some s, br') ∧ br'.data = br.data ∧
          br'.pos = br.pos + lengths.getD s 0 := by
  have h : CodeLengths lengths maxHuffmanBits := hkraft.codeLengths hle
  refine ⟨fun s hs => ?_, fun s u hs hu hword => ?_, fun s hs br hbits => ?_⟩
  · rw [huffmanBuild_codes h hs]
    exact code_lt h.kraft_le (lt_of_lenOf_pos hs) hs (h.lenOf_le s)
  · rw [codeword_huffmanBuild h hs, codeword_huffmanBuild h hu] at hword
    exact eq_of_word_isPrefix h hs hu hword
  · rw [codeword_huffmanBuild h hs] at hbits
    exact ⟨_, huffmanDecode_nextBits h hs hbits, iterate_next _ br⟩

theorem huffmanBuild_prefixFree_three :
    (∀ s, 0 < [2, 0, 1, 2].getD s 0 →
        (huffmanBuild [2, 0, 1, 2]).codes.getD s 0 < 2 ^ [2, 0, 1, 2].getD s 0) ∧
      (∀ s u, 0 < [2, 0, 1, 2].getD s 0 → 0 < [2, 0, 1, 2].getD u 0 →
        (huffmanBuild [2, 0, 1, 2]).codeword s <+: (huffmanBuild [2, 0, 1, 2]).codeword u → s = u) ∧
      ∀ s, 0 < [2, 0, 1, 2].getD s 0 → ∀ br : BitReader,
        br.nextBits ([2, 0, 1, 2].getD s 0) = (huffmanBuild [2, 0, 1, 2]).codeword s →
        ∃ br', huffmanDecode (huffmanBuild [2, 0, 1, 2]) br = (some s, br') ∧ br'.data = br.data ∧
          br'.pos = br.pos + [2, 0, 1, 2].getD s 0 :=
  huffmanBuild_prefixFree (by decide) (by norm_num [KraftInequality])

end prefixFree

end AuroraOS.Inflate
