import AuroraOS.Lib.Bits

/-!
# The DEFLATE decompressor

`inflate_raw` of `kernel/inflate.c` with everything it calls. The output buffer is the list of the
bytes written so far, `out_len` its length. The two ways a call can go wrong are kept apart: the
source returns `false` or 0 (`malformed`), or it writes past the end of `all_lengths` (`overrun`).

## Main definitions

- `BitReader`, `brReadBits`
- `HuffmanTable`, `huffmanBuild`, `huffmanDecode`
- `readDynamicHuffmanTables`, `inflateBlockHuffman`, `inflateRaw`
-/

namespace AuroraOS.Inflate

/-- `struct bitreader`; `len` is the length of `data`. -/
structure BitReader where
  data : List UInt8
  bytePos : ℕ
  bitPos : ℕ
  bitPos_lt : bitPos < 8

/-- `br_init`. -/
def brInit (data : List UInt8) : BitReader := ⟨data, 0, 0, by decide⟩

/-- The number of bits read so far. -/
def BitReader.pos (br : BitReader) : ℕ := 8 * br.bytePos + br.bitPos

/-- The next bit, zero past the end of the data. -/
def BitReader.bit (br : BitReader) : ℕ :=
  if br.bytePos < br.data.length then ((br.data.getD br.bytePos 0).toNat >>> br.bitPos) &&& 1
  else 0

/-- The reader after the next bit. -/
def BitReader.next (br : BitReader) : BitReader :=
  if h : br.bitPos + 1 = 8 then
    { br with bytePos := br.bytePos + 1, bitPos := 0, bitPos_lt := by decide }
  else { br with bitPos := br.bitPos + 1, bitPos_lt := by have := br.bitPos_lt; omega }

/-- The loop of `br_read_bits` from index `i` on. -/
def brReadBitsLoop : ℕ → ℕ → ℕ → BitReader → ℕ × BitReader
  | 0, _, result, br => (result, br)
  | n + 1, i, result, br => brReadBitsLoop n (i + 1) (result ||| (br.bit <<< i)) br.next

/-- `br_read_bits`. -/
def brReadBits (br : BitReader) (count : ℕ) : ℕ × BitReader := brReadBitsLoop count 0 0 br

/-- `br_align_to_byte`. -/
def brAlignToByte (br : BitReader) : BitReader :=
  if br.bitPos ≠ 0 then { br with bytePos := br.bytePos + 1, bitPos := 0, bitPos_lt := by decide }
  else br

/-- `MAX_HUFFMAN_BITS`. -/
def maxHuffmanBits : ℕ := 15

/-- `struct huffman_table`; `symbol_count` is the length of the lists. -/
structure HuffmanTable where
  codes : List ℕ
  lengths : List ℕ
deriving DecidableEq

/-- `bl_count`: how many symbols have a code of each length. -/
def blCount (lengths : List ℕ) : List ℕ :=
  lengths.foldl (fun counts len => if 0 < len then counts.modify len (· + 1) else counts)
    (List.replicate (maxHuffmanBits + 1) 0)

/-- The loop that fills `next_code`, for `n` lengths from `bits` on. -/
def nextCodeLoop (counts : List ℕ) : ℕ → ℕ → ℕ → List ℕ → List ℕ
  | 0, _, _, nextCode => nextCode
  | n + 1, bits, code, nextCode =>
    let code := ((code + counts.getD (bits - 1) 0) <<< 1) % 2 ^ 16
    nextCodeLoop counts n (bits + 1) code (nextCode.set bits code)

/-- The loop that assigns the codes. -/
def assignCodes : List ℕ → List ℕ → List ℕ
  | [], _ => []
  | len :: lengths, nextCode =>
    if 0 < len then
      nextCode.getD len 0 ::
        assignCodes lengths (nextCode.modify len fun code => (code + 1) % 2 ^ 16)
    else 0 :: assignCodes lengths nextCode

/-- `huffman_build`. -/
def huffmanBuild (lengths : List ℕ) : HuffmanTable where
  codes := assignCodes lengths
    (nextCodeLoop (blCount lengths) maxHuffmanBits 1 0 (List.replicate (maxHuffmanBits + 1) 0))
  lengths := lengths

/-- The search for a symbol with a code of this length and value. -/
def huffmanSearch (t : HuffmanTable) (len code : ℕ) : Option ℕ :=
  (List.range t.lengths.length).find? fun sym =>
    t.lengths.getD sym 0 = len ∧ t.codes.getD sym 0 = code

/-- The loop of `huffman_decode`, for `n` lengths from `len` on. -/
def huffmanDecodeLoop (t : HuffmanTable) : ℕ → ℕ → ℕ → BitReader → Option ℕ × BitReader
  | 0, _, _, br => (none, br)
  | n + 1, len, code, br =>
    let code := ((code <<< 1) ||| (brReadBits br 1).1) % 2 ^ 16
    match huffmanSearch t len code with
    | some sym => (some sym, (brReadBits br 1).2)
    | none => huffmanDecodeLoop t n (len + 1) code (brReadBits br 1).2

/-- `huffman_decode`, `none` for -1. -/
def huffmanDecode (t : HuffmanTable) (br : BitReader) : Option ℕ × BitReader :=
  huffmanDecodeLoop t maxHuffmanBits 1 0 br

/-- `LENGTH_BASE`. -/
def lengthBase : List ℕ :=
  [3, 4, 5, 6, 7, 8, 9, 10, 11, 13, 15, 17, 19, 23, 27, 31, 35, 43, 51, 59, 67, 83, 99, 115, 131,
    163, 195, 227, 258]

/-- `LENGTH_EXTRA_BITS`. -/
def lengthExtraBits : List ℕ :=
  [0, 0, 0, 0, 0, 0, 0, 0, 1, 1, 1, 1, 2, 2, 2, 2, 3, 3, 3, 3, 4, 4, 4, 4, 5, 5, 5, 5, 0]

/-- `DIST_BASE`. -/
def distBase : List ℕ :=
  [1, 2, 3, 4, 5, 7, 9, 13, 17, 25, 33, 49, 65, 97, 129, 193, 257, 385, 513, 769, 1025, 1537, 2049,
    3073, 4097, 6145, 8193, 12289, 16385, 24577]

/-- `DIST_EXTRA_BITS`. -/
def distExtraBits : List ℕ :=
  [0, 0, 0, 0, 1, 1, 2, 2, 3, 3, 4, 4, 5, 5, 6, 6, 7, 7, 8, 8, 9, 9, 10, 10, 11, 11, 12, 12, 13, 13]

/-- `CODE_LENGTH_ORDER`. -/
def codeLengthOrder : List ℕ := [16, 17, 18, 0, 8, 7, 9, 6, 10, 5, 11, 4, 12, 3, 13, 2, 14, 1, 15]

/-- The literal lengths of `build_fixed_huffman_tables`. -/
def fixedLitLengths : List ℕ :=
  List.replicate 144 8 ++ List.replicate 112 9 ++ List.replicate 24 7 ++ List.replicate 8 8

/-- The distance lengths of `build_fixed_huffman_tables`. -/
def fixedDistLengths : List ℕ := List.replicate 30 5

/-- How decompression fails. -/
inductive InflateError where
  /-- the source returns 0 -/
  | malformed
  /-- the source writes past the end of `all_lengths` -/
  | overrun

/-- The loop that reads the lengths of the code length codes, for the given part of
    `CODE_LENGTH_ORDER`. -/
def readClLengths : List ℕ → List ℕ → BitReader → List ℕ × BitReader
  | [], clLengths, br => (clLengths, br)
  | sym :: syms, clLengths, br =>
    readClLengths syms (clLengths.set sym (brReadBits br 3).1) (brReadBits br 3).2

/-- The size of `all_lengths`. -/
def allLengthsSize : ℕ := 288 + 30

/-- `while (repeat-- > 0 && i < total) all_lengths[i++] = value`. -/
def storeLengths (total value count : ℕ) (all : List ℕ) : List ℕ :=
  all ++ List.replicate (min count (total - all.length)) value

theorem length_lt_storeLengths {total value count : ℕ} {all : List ℕ} (h : all.length < total)
    (hcount : 0 < count) :
    total - (storeLengths total value count all).length < total - all.length := by
  rw [storeLengths, List.length_append, List.length_replicate]
  omega

/-- What a code length symbol stores: how many times which length, with how many extra bits for
    the number. -/
def repeatOf (sym : ℕ) (all : List ℕ) : ℕ × ℕ × ℕ :=
  if sym < 16 then (sym, 1, 0)
  else if sym = 16 then (all.getLastD 0, 3, 2)
  else if sym = 17 then (0, 3, 3)
  else (0, 11, 7)

theorem repeatOf_pos (sym : ℕ) (all : List ℕ) : 0 < (repeatOf sym all).2.1 := by
  rw [repeatOf]
  split
  · exact Nat.one_pos
  · split
    · exact Nat.succ_pos _
    · split <;> exact Nat.succ_pos _

/-- The loop of `read_dynamic_huffman_tables` that decodes the code lengths. -/
def readLengths (t : HuffmanTable) (total : ℕ) (all : List ℕ) (br : BitReader) :
    Except InflateError (List ℕ × BitReader) :=
  if total ≤ all.length then .ok (all, br)
  else
    match huffmanDecode t br with
    | (none, _) => .error .malformed
    | (some sym, br) =>
      if sym = 16 ∧ all = [] then .error .malformed
      else
        let value := (repeatOf sym all).1
        let count := (repeatOf sym all).2.1
        let extra := brReadBits br (repeatOf sym all).2.2
        if allLengthsSize < (storeLengths total value (count + extra.1) all).length then
          .error .overrun
        else readLengths t total (storeLengths total value (count + extra.1) all) extra.2
termination_by total - all.length
decreasing_by
  apply length_lt_storeLengths (by omega)
  have := repeatOf_pos sym all
  omega

/-- `read_dynamic_huffman_tables`: the tables for literals and for distances. -/
def readDynamicHuffmanTables (br : BitReader) :
    Except InflateError (HuffmanTable × HuffmanTable × BitReader) :=
  let (hlit, br) := brReadBits br 5
  let hlit := hlit + 257
  let (hdist, br) := brReadBits br 5
  let hdist := hdist + 1
  let (hclen, br) := brReadBits br 4
  let hclen := hclen + 4
  let (clLengths, br) := readClLengths (codeLengthOrder.take hclen) (List.replicate 19 0) br
  match readLengths (huffmanBuild clLengths) (hlit + hdist) [] br with
  | .error e => .error e
  | .ok (all, br) =>
    .ok (huffmanBuild (all.take hlit), huffmanBuild ((all.drop hlit).take hdist), br)

/-- The loop that copies `n` bytes one by one from index `src` on. -/
def copyLoop : ℕ → ℕ → List UInt8 → List UInt8
  | 0, _, out => out
  | n + 1, src, out => copyLoop n (src + 1) (out ++ [out.getD src 0])

theorem length_copyLoop (n src : ℕ) (out : List UInt8) :
    (copyLoop n src out).length = out.length + n := by
  induction n generalizing src out with
  | zero => rfl
  | succ n ih =>
    rw [copyLoop, ih, List.length_append, List.length_singleton]
    omega

theorem lengthBase_pos {i : ℕ} (h : ¬ 29 ≤ i) : 0 < lengthBase.getD i 0 := by
  have hall : ∀ i < 29, 0 < lengthBase.getD i 0 := by decide
  exact hall i (by omega)

/-- `inflate_block_huffman`. -/
def inflateBlockHuffman (lit dist : HuffmanTable) (outMax : ℕ) (out : List UInt8) (br : BitReader) :
    Except InflateError (List UInt8 × BitReader) :=
  match huffmanDecode lit br with
  | (none, _) => .error .malformed
  | (some sym, br) =>
    if sym < 256 then
      if outMax ≤ out.length then .error .malformed
      else inflateBlockHuffman lit dist outMax (out ++ [UInt8.ofNat sym]) br
    else if sym = 256 then .ok (out, br)
    else if 29 ≤ sym - 257 then .error .malformed
    else
      let lengthExtra := brReadBits br (lengthExtraBits.getD (sym - 257) 0)
      let length := lengthBase.getD (sym - 257) 0 + lengthExtra.1
      match huffmanDecode dist lengthExtra.2 with
      | (none, _) => .error .malformed
      | (some distSym, br) =>
        if 30 ≤ distSym then .error .malformed
        else
          let distExtra := brReadBits br (distExtraBits.getD distSym 0)
          let distance := distBase.getD distSym 0 + distExtra.1
          if distance = 0 ∨ out.length < distance then .error .malformed
          else if outMax < out.length + length then .error .malformed
          else inflateBlockHuffman lit dist outMax (copyLoop length (out.length - distance) out)
            distExtra.2
termination_by outMax - out.length
decreasing_by
  · rw [List.length_append, List.length_singleton]
    omega
  · have := lengthBase_pos (i := sym - 257) (by omega)
    rw [length_copyLoop]
    omega

/-- A stored block. -/
def inflateStored (outMax : ℕ) (out : List UInt8) (br : BitReader) :
    Except InflateError (List UInt8 × BitReader) :=
  let br := brAlignToByte br
  if br.data.length < br.bytePos + 4 then .error .malformed
  else
    let byte := fun i => (br.data.getD (br.bytePos + i) 0).toNat
    let blockLen := byte 0 ||| (byte 1 <<< 8)
    let nlen := byte 2 ||| (byte 3 <<< 8)
    if blockLen ^^^ 0xFFFF ≠ nlen then .error .malformed
    else if br.data.length < br.bytePos + 4 + blockLen then .error .malformed
    else if outMax < out.length + blockLen then .error .malformed
    else .ok (out ++ (br.data.drop (br.bytePos + 4)).take blockLen,
      { br with bytePos := br.bytePos + 4 + blockLen })

/-- The body of a block of the given type. -/
def inflateBlock (outMax btype : ℕ) (out : List UInt8) (br : BitReader) :
    Except InflateError (List UInt8 × BitReader) :=
  if btype = 0 then inflateStored outMax out br
  else if btype = 1 then
    inflateBlockHuffman (huffmanBuild fixedLitLengths) (huffmanBuild fixedDistLengths) outMax out br
  else if btype = 2 then
    match readDynamicHuffmanTables br with
    | .error e => .error e
    | .ok (lit, dist, br) => inflateBlockHuffman lit dist outMax out br
  else .error .malformed

section pos

variable {br br' : BitReader}

@[simp]
theorem next_data : br.next.data = br.data := by
  rw [BitReader.next]
  split <;> rfl

@[simp]
theorem next_pos : br.next.pos = br.pos + 1 := by
  rw [BitReader.next]
  split
  · simp only [BitReader.pos]
    omega
  · simp only [BitReader.pos]
    omega

theorem bit_of_le (h : 8 * br.data.length ≤ br.pos) : br.bit = 0 := by
  have hlt := br.bitPos_lt
  rw [BitReader.pos] at h
  rw [BitReader.bit, if_neg (by omega)]

theorem brReadBitsLoop_pos (n i result : ℕ) :
    (brReadBitsLoop n i result br).2.data = br.data ∧
      (brReadBitsLoop n i result br).2.pos = br.pos + n := by
  induction n generalizing i result br with
  | zero => exact ⟨rfl, rfl⟩
  | succ n ih =>
    obtain ⟨hdata, hpos⟩ := @ih br.next (i + 1) (result ||| (br.bit <<< i))
    rw [brReadBitsLoop, hdata, hpos, next_data, next_pos]
    exact ⟨rfl, by omega⟩

@[simp]
theorem brReadBits_data (count : ℕ) : (brReadBits br count).2.data = br.data :=
  (brReadBitsLoop_pos count 0 0).1

@[simp]
theorem brReadBits_pos (count : ℕ) : (brReadBits br count).2.pos = br.pos + count :=
  (brReadBitsLoop_pos count 0 0).2

/-- Past the end of the data there are only zeros. -/
theorem brReadBits_of_le (h : 8 * br.data.length ≤ br.pos) (count : ℕ) :
    (brReadBits br count).1 = 0 := by
  have hloop : ∀ (n i : ℕ) (br : BitReader), 8 * br.data.length ≤ br.pos →
      (brReadBitsLoop n i 0 br).1 = 0 := by
    intro n
    induction n with
    | zero => exact fun _ _ _ => rfl
    | succ n ih =>
      intro i br h
      rw [brReadBitsLoop, bit_of_le h, Nat.zero_shiftLeft, Nat.or_zero]
      apply ih
      rw [next_data, next_pos]
      omega
  exact hloop count 0 br h

theorem huffmanDecodeLoop_pos (t : HuffmanTable) (n len code : ℕ) :
    (huffmanDecodeLoop t n len code br).2.data = br.data ∧
      br.pos ≤ (huffmanDecodeLoop t n len code br).2.pos := by
  induction n generalizing len code br with
  | zero => exact ⟨rfl, le_rfl⟩
  | succ n ih =>
    rw [huffmanDecodeLoop]
    split
    · rw [brReadBits_data, brReadBits_pos]
      exact ⟨rfl, Nat.le_succ _⟩
    · obtain ⟨hdata, hpos⟩ := @ih (brReadBits br 1).2 (len + 1)
        (((code <<< 1) ||| (brReadBits br 1).1) % 2 ^ 16)
      rw [brReadBits_data] at hdata
      rw [brReadBits_pos] at hpos
      exact ⟨hdata, by omega⟩

theorem huffmanDecode_pos {t : HuffmanTable} {r : Option ℕ}
    (h : huffmanDecode t br = (r, br')) : br'.data = br.data ∧ br.pos ≤ br'.pos := by
  have hloop := @huffmanDecodeLoop_pos br t maxHuffmanBits 1 0
  rw [huffmanDecode] at h
  rwa [h] at hloop

theorem readClLengths_pos (syms clLengths : List ℕ) :
    (readClLengths syms clLengths br).2.data = br.data ∧
      br.pos ≤ (readClLengths syms clLengths br).2.pos := by
  induction syms generalizing clLengths br with
  | nil => exact ⟨rfl, le_rfl⟩
  | cons sym syms ih =>
    obtain ⟨hdata, hpos⟩ := @ih (brReadBits br 3).2 (clLengths.set sym (brReadBits br 3).1)
    rw [brReadBits_data] at hdata
    rw [brReadBits_pos] at hpos
    exact ⟨hdata, by rw [readClLengths]; omega⟩

theorem readLengths_pos {t : HuffmanTable} {total : ℕ} {all all' : List ℕ}
    (h : readLengths t total all br = .ok (all', br')) : br'.data = br.data ∧ br.pos ≤ br'.pos := by
  fun_induction readLengths t total all br with
  | case1 all br hdone =>
    obtain ⟨-, rfl⟩ := Prod.mk.inj (Except.ok.inj h)
    exact ⟨rfl, le_rfl⟩
  | case2 | case3 | case4 => exact absurd h (by simp)
  | case5 all br hdone sym br₁ hdec hnil value count extra hover ih =>
    obtain ⟨hdata, hpos⟩ := ih h
    obtain ⟨hdata₁, hpos₁⟩ := huffmanDecode_pos hdec
    rw [brReadBits_data] at hdata
    rw [brReadBits_pos] at hpos
    exact ⟨hdata.trans hdata₁, by omega⟩

theorem readDynamicHuffmanTables_pos {lit dist : HuffmanTable}
    (h : readDynamicHuffmanTables br = .ok (lit, dist, br')) :
    br'.data = br.data ∧ br.pos ≤ br'.pos := by
  simp only [readDynamicHuffmanTables] at h
  split at h
  · exact absurd h (by simp)
  · next all br₁ hlen =>
    obtain ⟨-, -, rfl⟩ : _ ∧ _ ∧ br₁ = br' := by simpa using h
    obtain ⟨hdata, hpos⟩ := readLengths_pos hlen
    obtain ⟨hdata₁, hpos₁⟩ :=
      @readClLengths_pos (brReadBits (brReadBits (brReadBits br 5).2 5).2 4).2
      (codeLengthOrder.take ((brReadBits (brReadBits (brReadBits br 5).2 5).2 4).1 + 4))
      (List.replicate 19 0)
    simp only [brReadBits_data, brReadBits_pos] at hdata₁ hpos₁
    exact ⟨hdata.trans hdata₁, by omega⟩

theorem inflateBlockHuffman_pos {lit dist : HuffmanTable} {outMax : ℕ} {out out' : List UInt8}
    (h : inflateBlockHuffman lit dist outMax out br = .ok (out', br')) :
    br'.data = br.data ∧ br.pos ≤ br'.pos := by
  fun_induction inflateBlockHuffman lit dist outMax out br with
  | case3 out br sym br₁ hdec hlit hroom ih =>
    obtain ⟨hdata, hpos⟩ := ih h
    obtain ⟨hdata₁, hpos₁⟩ := huffmanDecode_pos hdec
    exact ⟨hdata.trans hdata₁, by omega⟩
  | case4 out br br₁ hdec =>
    obtain ⟨-, rfl⟩ := Prod.mk.inj (Except.ok.inj h)
    exact huffmanDecode_pos hdec
  | case10 out br sym br₁ hdec _ _ _ lengthExtra length distSym br₂ hdist _ distExtra
      distance _ _ ih =>
    obtain ⟨hdata, hpos⟩ := ih h
    obtain ⟨hdata₁, hpos₁⟩ := huffmanDecode_pos hdec
    obtain ⟨hdata₂, hpos₂⟩ := huffmanDecode_pos hdist
    simp only [distExtra, lengthExtra, brReadBits_data, brReadBits_pos] at hdata hpos hdata₂ hpos₂
    exact ⟨(hdata.trans hdata₂).trans hdata₁, by omega⟩
  | _ => exact absurd h (by simp)

theorem brAlignToByte_pos :
    (brAlignToByte br).data = br.data ∧ br.pos ≤ (brAlignToByte br).pos := by
  rw [brAlignToByte]
  have hlt := br.bitPos_lt
  split
  · exact ⟨rfl, by simp only [BitReader.pos]; omega⟩
  · exact ⟨rfl, le_rfl⟩

/-- A block that is decoded starts inside the data. -/
theorem inflateStored_pos {outMax : ℕ} {out out' : List UInt8}
    (h : inflateStored outMax out br = .ok (out', br')) :
    br'.data = br.data ∧ br.pos ≤ br'.pos ∧ br.pos < 8 * br.data.length := by
  obtain ⟨hdata, hpos⟩ := @brAlignToByte_pos br
  have hbit := (brAlignToByte br).bitPos_lt
  simp only [inflateStored, hdata] at h
  split at h
  · exact absurd h (by simp)
  · split at h
    · exact absurd h (by simp)
    · split at h
      · exact absurd h (by simp)
      · split at h
        · exact absurd h (by simp)
        · obtain ⟨-, rfl⟩ := Prod.mk.inj (Except.ok.inj h)
          refine ⟨rfl, ?_, ?_⟩
          · simp only [BitReader.pos] at hpos ⊢
            omega
          · simp only [BitReader.pos] at hpos ⊢
            omega

theorem inflateBlock_pos {outMax btype : ℕ} {out out' : List UInt8}
    (h : inflateBlock outMax btype out br = .ok (out', br')) :
    br'.data = br.data ∧ br.pos ≤ br'.pos ∧ (btype = 0 → br.pos < 8 * br.data.length) := by
  rw [inflateBlock] at h
  split at h
  · obtain ⟨hdata, hpos, hlt⟩ := inflateStored_pos h
    exact ⟨hdata, hpos, fun _ => hlt⟩
  · next hne =>
    split at h
    · obtain ⟨hdata, hpos⟩ := inflateBlockHuffman_pos h
      exact ⟨hdata, hpos, fun h => absurd h hne⟩
    · split at h
      · split at h
        · exact absurd h (by simp)
        · next hdyn =>
          obtain ⟨hdata₁, hpos₁⟩ := readDynamicHuffmanTables_pos hdyn
          obtain ⟨hdata, hpos⟩ := inflateBlockHuffman_pos h
          exact ⟨hdata.trans hdata₁, hpos₁.trans hpos, fun h => absurd h hne⟩
      · exact absurd h (by simp)

end pos

/-- A block takes bits off the data. -/
theorem inflateBlock_lt {outMax : ℕ} {out out' : List UInt8} {br br' : BitReader}
    (h : inflateBlock outMax (brReadBits (brReadBits br 1).2 2).1 out
      (brReadBits (brReadBits br 1).2 2).2 = .ok (out', br')) :
    8 * br'.data.length - br'.pos < 8 * br.data.length - br.pos := by
  obtain ⟨hdata, hpos, hlt⟩ := inflateBlock_pos h
  simp only [brReadBits_data, brReadBits_pos] at hdata hpos hlt
  have hstart : br.pos < 8 * br.data.length := by
    by_contra hle
    have hzero := @brReadBits_of_le (brReadBits br 1).2 (by
      rw [brReadBits_data, brReadBits_pos]
      omega) 2
    have := hlt hzero
    omega
  rw [hdata]
  omega

/-- The loop of `inflate_raw`. -/
def inflateBlocks (outMax : ℕ) (out : List UInt8) (br : BitReader) :
    Except InflateError (List UInt8) :=
  match _h : inflateBlock outMax (brReadBits (brReadBits br 1).2 2).1 out
      (brReadBits (brReadBits br 1).2 2).2 with
  | .error e => .error e
  | .ok (out, br') =>
    if (brReadBits br 1).1 ≠ 0 then .ok out else inflateBlocks outMax out br'
termination_by 8 * br.data.length - br.pos
decreasing_by exact inflateBlock_lt _h

/-- `inflate_raw`: the bytes written to `out`, whose number is returned; on an error it returns
    0. -/
def inflateRaw (data : List UInt8) (outMax : ℕ) : Except InflateError (List UInt8) :=
  inflateBlocks outMax [] (brInit data)

end AuroraOS.Inflate
