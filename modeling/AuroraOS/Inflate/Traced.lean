import AuroraOS.Inflate.Model
import AuroraOS.Lib.Logged

/-!
# The decompressor and what it touches

`inflate_raw` once more, with positions and lengths of 32 bits and with a log of every bit, every
access to the data, the output and the tables, and every sum. `len` is the length that the source
checks against, `data` the bytes that are there. An access outside its object is undefined: it is
logged and the run ends.

## Main definitions

- `BitPos`, `Event`, `Table`
- `brReadBits`, `huffmanDecode`, `readDynamicHuffmanTables`, `inflateBlockHuffman`
- `inflateRaw`
-/

namespace AuroraOS.Inflate.Traced

open AuroraOS.Lib AuroraOS.Lib.Logged

/-- `byte_pos` and `bit_pos` of `struct bitreader`. -/
structure BitPos where
  bytePos : ℕ
  bitPos : ℕ
  bytePos_lt : bytePos < 2 ^ 32
  bitPos_lt : bitPos < 8
deriving DecidableEq

/-- `br_init`. -/
def brInit : BitPos := ⟨0, 0, Nat.two_pow_pos 32, Nat.zero_lt_succ 7⟩

/-- The arrays of fixed size. -/
inductive Table where
  /-- `cl_lengths` -/
  | clLengths
  /-- `all_lengths` -/
  | allLengths
  /-- `lit_lengths` of the fixed tables -/
  | litLengths
  /-- `dist_lengths` of the fixed tables -/
  | distLengths
  /-- `CODE_LENGTH_ORDER` -/
  | codeLengthOrder
  /-- `codes` of a table -/
  | codes
  /-- `lengths` of a table -/
  | lengths
  | blCount
  | nextCode
deriving DecidableEq

def Table.size : Table → ℕ
  | .clLengths | .codeLengthOrder => 19
  | .allLengths => allLengthsSize
  | .litLengths | .codes | .lengths => 288
  | .distLengths => 30
  | .blCount | .nextCode => maxHuffmanBits + 1

/-- What a run logs. -/
inductive Event where
  /-- a bit is consumed -/
  | bit (br : BitPos)
  /-- the bit reader reads `data[i]` -/
  | data (i : ℕ)
  /-- a stored block reads `data[i]` -/
  | stored (i : ℕ)
  /-- a back-reference reads `out[i]` when `written` bytes are written -/
  | back (i written : ℕ)
  /-- `out[i]` is written -/
  | write (i : ℕ)
  /-- an element of an array is read or written -/
  | array (a : Table) (i : ℕ)
  /-- two unsigned numbers are added; `n` is their exact sum -/
  | sum (n : ℕ)
  /-- a dynamic header asks for `total` code lengths -/
  | header (total : ℕ)
  /-- there is no fuel left -/
  | exhausted
deriving DecidableEq

/-- The sum in 32 bits. -/
def add (m n : ℕ) : Logged Event {r : ℕ // r < 2 ^ 32} := do
  tell (.sum (m + n))
  pure ⟨(m + n) % 2 ^ 32, Nat.mod_lt _ (Nat.two_pow_pos 32)⟩

/-- An access to an array. -/
def access (a : Table) (i : ℕ) : Logged Event Unit := do
  tell (.array a i)
  require (i < a.size)

section

variable (data : List UInt8) (len : ℕ)

/-- `data[i]`, logged as `e`. -/
def readByte (e : Event) (i : ℕ) : Logged Event ℕ := do
  tell e
  require (i < data.length)
  pure (data.getD i 0).toNat

/-- The next bit, zero past the end of the data. -/
def peekBit (br : BitPos) : Logged Event ℕ :=
  if br.bytePos < len then do
    let byte ← readByte data (.data br.bytePos) br.bytePos
    pure ((byte >>> br.bitPos) &&& 1)
  else pure 0

/-- The reader after the next bit. -/
def advance (br : BitPos) : Logged Event BitPos :=
  if h : br.bitPos + 1 = 8 then do
    let bytePos ← add br.bytePos 1
    pure ⟨bytePos, 0, bytePos.2, Nat.zero_lt_succ 7⟩
  else pure ⟨br.bytePos, br.bitPos + 1, br.bytePos_lt, by have := br.bitPos_lt; omega⟩

/-- The loop of `br_read_bits` from index `i` on. -/
def brReadBitsLoop : ℕ → ℕ → ℕ → BitPos → Logged Event (ℕ × BitPos)
  | 0, _, result, br => pure (result, br)
  | n + 1, i, result, br => do
    tell (.bit br)
    let bit ← peekBit data len br
    let br ← advance br
    brReadBitsLoop n (i + 1) (result ||| (bit <<< i)) br

/-- `br_read_bits`. -/
def brReadBits (br : BitPos) (count : ℕ) : Logged Event (ℕ × BitPos) :=
  brReadBitsLoop data len count 0 0 br

/-- `br_align_to_byte`. -/
def brAlignToByte (br : BitPos) : Logged Event BitPos :=
  if br.bitPos ≠ 0 then do
    let bytePos ← add br.bytePos 1
    pure ⟨bytePos, 0, bytePos.2, Nat.zero_lt_succ 7⟩
  else pure br

/-- The accesses of `huffman_build` for the lengths at `base` of the array `source`, in its three
    loops. -/
def buildAccesses (source : Table) (base : ℕ) (lengths : List ℕ) : List Event :=
  (List.range lengths.length).flatMap (fun i => [.array source (base + i), .array .lengths i]) ++
    (lengths.filter (0 < ·)).map (.array .blCount) ++
    (List.range maxHuffmanBits).flatMap (fun i => [.array .blCount i, .array .nextCode (i + 1)]) ++
    (List.range lengths.length).map (.array .codes) ++
    (lengths.filter (0 < ·)).map (.array .nextCode)

/-- `huffman_build`. -/
def build (source : Table) (base : ℕ) (lengths : List ℕ) : Logged Event HuffmanTable := do
  tellAll (buildAccesses source base lengths)
  pure (huffmanBuild lengths)

/-- The accesses of the search for a symbol; a code is looked at only under the right length. -/
def searchAccesses (t : HuffmanTable) (codeLen code : ℕ) : List Event :=
  let last := (huffmanSearch t codeLen code).elim t.lengths.length (· + 1)
  (List.range last).flatMap fun sym =>
    .array .lengths sym :: if t.lengths.getD sym 0 = codeLen then [.array .codes sym] else []

/-- The loop of `huffman_decode`, for `n` lengths from `codeLen` on. -/
def huffmanDecodeLoop (t : HuffmanTable) : ℕ → ℕ → ℕ → BitPos → Logged Event (Option ℕ × BitPos)
  | 0, _, _, br => pure (none, br)
  | n + 1, codeLen, code, br => do
    let bit ← brReadBits data len br 1
    let code := ((code <<< 1) ||| bit.1) % 2 ^ 16
    tellAll (searchAccesses t codeLen code)
    match huffmanSearch t codeLen code with
    | some sym => pure (some sym, bit.2)
    | none => huffmanDecodeLoop t n (codeLen + 1) code bit.2

/-- `huffman_decode`, `none` for -1. -/
def huffmanDecode (t : HuffmanTable) (br : BitPos) : Logged Event (Option ℕ × BitPos) :=
  huffmanDecodeLoop data len t maxHuffmanBits 1 0 br

/-- `build_fixed_huffman_tables`. -/
def buildFixedHuffmanTables : Logged Event (HuffmanTable × HuffmanTable) := do
  tellAll ((List.range 288).map (.array .litLengths))
  let lit ← build .litLengths 0 fixedLitLengths
  tellAll ((List.range 30).map (.array .distLengths))
  let dist ← build .distLengths 0 fixedDistLengths
  pure (lit, dist)

/-- The loop that reads the lengths of the code length codes, `n` of them from index `i` on. -/
def readClLengths : ℕ → ℕ → List ℕ → BitPos → Logged Event (List ℕ × BitPos)
  | 0, _, clLengths, br => pure (clLengths, br)
  | n + 1, i, clLengths, br => do
    let r ← brReadBits data len br 3
    access .codeLengthOrder i
    access .clLengths (codeLengthOrder.getD i 0)
    readClLengths n (i + 1) (clLengths.set (codeLengthOrder.getD i 0) r.1) r.2

/-- `while (repeat-- > 0 && i < total) all_lengths[i++] = value`; `i` is the length of `all`. -/
def storeLoop (total value : ℕ) : ℕ → List ℕ → Logged Event (List ℕ)
  | 0, all => pure all
  | n + 1, all =>
    if all.length < total then do
      access .allLengths all.length
      storeLoop total value n (all ++ [value])
    else pure all

/-- `prev = all_lengths[i - 1]`, for the symbol 16 alone. -/
def readPrevious (sym : ℕ) (all : List ℕ) : Logged Event Unit :=
  if sym = 16 then access .allLengths (all.length - 1) else pure ()

/-- What the source does for the code length symbol `sym`. -/
def storeSymbol (total sym : ℕ) (all : List ℕ) (br : BitPos) : Logged Event (List ℕ × BitPos) := do
  require (¬ (sym = 16 ∧ all = []))
  let extra ← brReadBits data len br (repeatOf sym all).2.2
  readPrevious sym all
  let all ← storeLoop total (repeatOf sym all).1 ((repeatOf sym all).2.1 + extra.1) all
  pure (all, extra.2)

/-- The loop of `read_dynamic_huffman_tables` that decodes the code lengths. -/
def readLengths (t : HuffmanTable) (total : ℕ) :
    ℕ → List ℕ → BitPos → Logged Event (List ℕ × BitPos)
  | 0, all, br =>
    if total ≤ all.length then pure (all, br)
    else do
      tell .exhausted
      fail
  | fuel + 1, all, br =>
    if total ≤ all.length then pure (all, br)
    else do
      let s ← huffmanDecode data len t br
      match s.1 with
      | none => fail
      | some sym =>
        let r ← storeSymbol data len total sym all s.2
        readLengths t total fuel r.1 r.2

/-- `HLIT`, `HDIST` and `HCLEN`. -/
def readCounts (br : BitPos) : Logged Event ((ℕ × ℕ × ℕ) × BitPos) := do
  let hlit ← brReadBits data len br 5
  let hdist ← brReadBits data len hlit.2 5
  let hclen ← brReadBits data len hdist.2 4
  pure ((hlit.1 + 257, hdist.1 + 1, hclen.1 + 4), hclen.2)

/-- `read_dynamic_huffman_tables`: the tables for literals and for distances. -/
def readDynamicHuffmanTables (br : BitPos) :
    Logged Event ((HuffmanTable × HuffmanTable) × BitPos) := do
  let counts ← readCounts data len br
  let (hlit, hdist, hclen) := counts.1
  let cl ← readClLengths data len hclen 0 (List.replicate 19 0) counts.2
  let clTable ← build .clLengths 0 cl.1
  tell (.header (hlit + hdist))
  let all ← readLengths data len clTable (hlit + hdist) (hlit + hdist) [] cl.2
  let lit ← build .allLengths 0 (all.1.take hlit)
  let dist ← build .allLengths hlit ((all.1.drop hlit).take hdist)
  pure ((lit, dist), all.2)

variable (outMax : ℕ)

/-- `out[*out_len] = value`; `out` is what is written so far. -/
def emit (value : UInt8) (out : List UInt8) : Logged Event (List UInt8) := do
  tell (.write out.length)
  require (out.length < outMax)
  pure (out ++ [value])

/-- The loop that copies `n` bytes one by one from index `src` on. -/
def copyLoop : ℕ → ℕ → List UInt8 → Logged Event (List UInt8)
  | 0, _, out => pure out
  | n + 1, src, out => do
    tell (.back src out.length)
    let out ← emit outMax (out.getD src 0) out
    copyLoop n (src + 1) out

/-- What the source does for the length symbol `sym`. -/
def backReference (dist : HuffmanTable) (sym : ℕ) (out : List UInt8) (br : BitPos) :
    Logged Event (List UInt8 × BitPos) := do
  require (sym - 257 < 29)
  let lengthExtra ← brReadBits data len br (lengthExtraBits.getD (sym - 257) 0)
  let length := lengthBase.getD (sym - 257) 0 + lengthExtra.1
  let d ← huffmanDecode data len dist lengthExtra.2
  match d.1 with
  | none => fail
  | some distSym =>
    require (distSym < 30)
    let distExtra ← brReadBits data len d.2 (distExtraBits.getD distSym 0)
    let distance := distBase.getD distSym 0 + distExtra.1
    require (¬ (distance = 0 ∨ out.length < distance))
    let outEnd ← add out.length length
    require (outEnd.1 ≤ outMax)
    let out ← copyLoop outMax length (out.length - distance) out
    pure (out, distExtra.2)

/-- `inflate_block_huffman`. -/
def inflateBlockHuffman (lit dist : HuffmanTable) :
    ℕ → List UInt8 → BitPos → Logged Event (List UInt8 × BitPos)
  | 0, _, _ => do
    tell .exhausted
    fail
  | fuel + 1, out, br => do
    let s ← huffmanDecode data len lit br
    match s.1 with
    | none => fail
    | some sym =>
      if sym < 256 then do
        require (out.length < outMax)
        let out ← emit outMax (UInt8.ofNat sym) out
        inflateBlockHuffman lit dist fuel out s.2
      else if sym = 256 then pure (out, s.2)
      else do
        let r ← backReference data len outMax dist sym out s.2
        inflateBlockHuffman lit dist fuel r.1 r.2

/-- The `memcpy` of a stored block. -/
def storedLoop : ℕ → ℕ → List UInt8 → Logged Event (List UInt8)
  | 0, _, out => pure out
  | n + 1, src, out => do
    let byte ← readByte data (.stored src) src
    let out ← emit outMax (UInt8.ofNat byte) out
    storedLoop n (src + 1) out

/-- A number of two bytes, the lower one first. -/
def readPair (pos : ℕ) : Logged Event ℕ := do
  let low ← readByte data (.stored (pos % 2 ^ 32)) (pos % 2 ^ 32)
  let high ← readByte data (.stored ((pos + 1) % 2 ^ 32)) ((pos + 1) % 2 ^ 32)
  pure (low ||| (high <<< 8))

/-- A stored block. -/
def inflateStored (out : List UInt8) (br : BitPos) : Logged Event (List UInt8 × BitPos) := do
  let br ← brAlignToByte br
  let start ← add br.bytePos 4
  require (start.1 ≤ len)
  let blockLen ← readPair data br.bytePos
  let nlen ← readPair data (br.bytePos + 2)
  require (blockLen ^^^ 0xFFFF = nlen)
  let stop ← add start blockLen
  require (stop.1 ≤ len)
  let outEnd ← add out.length blockLen
  require (outEnd.1 ≤ outMax)
  let out ← storedLoop data outMax blockLen start out
  pure (out, { br with bytePos := stop, bytePos_lt := stop.2 })

/-- The body of a block of the given type. -/
def inflateBlock (fuel btype : ℕ) (out : List UInt8) (br : BitPos) :
    Logged Event (List UInt8 × BitPos) :=
  if btype = 0 then inflateStored data len outMax out br
  else if btype = 1 then do
    let tables ← buildFixedHuffmanTables
    inflateBlockHuffman data len outMax tables.1 tables.2 fuel out br
  else if btype = 2 then do
    let tables ← readDynamicHuffmanTables data len br
    inflateBlockHuffman data len outMax tables.1.1 tables.1.2 fuel out tables.2
  else fail

/-- The loop of `inflate_raw`; `fuel` is for the symbols of a block. -/
def inflateBlocks (fuel : ℕ) : ℕ → List UInt8 → BitPos → Logged Event (List UInt8)
  | 0, _, _ => do
    tell .exhausted
    fail
  | blocks + 1, out, br => do
    let final ← brReadBits data len br 1
    let btype ← brReadBits data len final.2 2
    let r ← inflateBlock data len outMax fuel btype.1 out btype.2
    if final.1 ≠ 0 then pure r.1 else inflateBlocks fuel blocks r.1 r.2

/-- `inflate_raw`: the bytes written to `out`, whose number is returned. There is no value where the
    source returns 0 on an error. -/
def inflateRaw (fuel : ℕ) : Logged Event (List UInt8) :=
  inflateBlocks data len outMax fuel fuel [] brInit

end

end AuroraOS.Inflate.Traced
