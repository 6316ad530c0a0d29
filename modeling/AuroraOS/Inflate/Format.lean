import AuroraOS.Inflate.Huffman

/-!
# The DEFLATE format

A reference encoder for RFC 1951, independent of the decoder: its tables are the ranges that the
RFC gives, its fixed code words are those that the RFC lists, and the copies of `expandToken` are
given by a closed expression. The decoder's tables and loops are compared with it in
`AuroraOS.Inflate.RoundTrip`.

## Main definitions

- `Token`, `DynamicHeader`, `Block` — what a compressed stream says
- `Block.expand` — what it means
- `serialise` — the bytes
-/

namespace AuroraOS.Inflate

open AuroraOS.Lib

/-- A literal byte, or a copy of `length` bytes from `distance` bytes back. -/
inductive Token where
  | literal (b : UInt8)
  | copy (length distance : ℕ)

/-- A row of the tables of section 3.2.5: a symbol, its number of extra bits, and the first and
    the last value that it stands for. -/
structure CodeRow where
  symbol : ℕ
  extra : ℕ
  first : ℕ
  last : ℕ
deriving Inhabited

/-- The length codes. -/
def lengthRows : List CodeRow :=
  [⟨257, 0, 3, 3⟩, ⟨258, 0, 4, 4⟩, ⟨259, 0, 5, 5⟩, ⟨260, 0, 6, 6⟩, ⟨261, 0, 7, 7⟩, ⟨262, 0, 8, 8⟩,
    ⟨263, 0, 9, 9⟩, ⟨264, 0, 10, 10⟩, ⟨265, 1, 11, 12⟩, ⟨266, 1, 13, 14⟩, ⟨267, 1, 15, 16⟩,
    ⟨268, 1, 17, 18⟩, ⟨269, 2, 19, 22⟩, ⟨270, 2, 23, 26⟩, ⟨271, 2, 27, 30⟩, ⟨272, 2, 31, 34⟩,
    ⟨273, 3, 35, 42⟩, ⟨274, 3, 43, 50⟩, ⟨275, 3, 51, 58⟩, ⟨276, 3, 59, 66⟩, ⟨277, 4, 67, 82⟩,
    ⟨278, 4, 83, 98⟩, ⟨279, 4, 99, 114⟩, ⟨280, 4, 115, 130⟩, ⟨281, 5, 131, 162⟩,
    ⟨282, 5, 163, 194⟩, ⟨283, 5, 195, 226⟩, ⟨284, 5, 227, 257⟩, ⟨285, 0, 258, 258⟩]

/-- The distance codes. -/
def distRows : List CodeRow :=
  [⟨0, 0, 1, 1⟩, ⟨1, 0, 2, 2⟩, ⟨2, 0, 3, 3⟩, ⟨3, 0, 4, 4⟩, ⟨4, 1, 5, 6⟩, ⟨5, 1, 7, 8⟩,
    ⟨6, 2, 9, 12⟩, ⟨7, 2, 13, 16⟩, ⟨8, 3, 17, 24⟩, ⟨9, 3, 25, 32⟩, ⟨10, 4, 33, 48⟩,
    ⟨11, 4, 49, 64⟩, ⟨12, 5, 65, 96⟩, ⟨13, 5, 97, 128⟩, ⟨14, 6, 129, 192⟩, ⟨15, 6, 193, 256⟩,
    ⟨16, 7, 257, 384⟩, ⟨17, 7, 385, 512⟩, ⟨18, 8, 513, 768⟩, ⟨19, 8, 769, 1024⟩,
    ⟨20, 9, 1025, 1536⟩, ⟨21, 9, 1537, 2048⟩, ⟨22, 10, 2049, 3072⟩, ⟨23, 10, 3073, 4096⟩,
    ⟨24, 11, 4097, 6144⟩, ⟨25, 11, 6145, 8192⟩, ⟨26, 12, 8193, 12288⟩, ⟨27, 12, 12289, 16384⟩,
    ⟨28, 13, 16385, 24576⟩, ⟨29, 13, 24577, 32768⟩]

/-- The row for a value. -/
def rowOf (rows : List CodeRow) (value : ℕ) : CodeRow :=
  (rows.find? fun row => row.first ≤ value ∧ value ≤ row.last).getD default

/-- A value with the given words for the symbols: the word, then the extra bits. -/
def encodeValue (rows : List CodeRow) (words : ℕ → List Bool) (value : ℕ) : List Bool :=
  words (rowOf rows value).symbol ++
    lsbBits (rowOf rows value).extra (value - (rowOf rows value).first)

/-- A token with the given words for literals and lengths and for distances. -/
def encodeToken (lit dist : ℕ → List Bool) : Token → List Bool
  | .literal b => lit b.toNat
  | .copy length distance => encodeValue lengthRows lit length ++ encodeValue distRows dist distance

/-- The tokens of a block and the end-of-block symbol. -/
def encodeTokens (lit dist : ℕ → List Bool) (tokens : List Token) : List Bool :=
  tokens.flatMap (encodeToken lit dist) ++ lit 256

/-- The fixed words for literals and lengths of section 3.2.6. -/
def fixedLitWord (sym : ℕ) : List Bool :=
  if sym ≤ 143 then msbBits 8 (0b00110000 + sym)
  else if sym ≤ 255 then msbBits 9 (0b110010000 + (sym - 144))
  else if sym ≤ 279 then msbBits 7 (sym - 256)
  else msbBits 8 (0b11000000 + (sym - 280))

/-- The fixed words for distances. -/
def fixedDistWord (sym : ℕ) : List Bool := msbBits 5 sym

/-- One step of the run-length code for code lengths of section 3.2.7. -/
inductive LengthOp where
  /-- a code length -/
  | len (n : ℕ)
  /-- symbol 16: the previous length again -/
  | again (count : ℕ)
  /-- symbol 17: a few zeros -/
  | zeros (count : ℕ)
  /-- symbol 18: many zeros -/
  | manyZeros (count : ℕ)

/-- The symbol of a step. -/
def LengthOp.symbol : LengthOp → ℕ
  | .len n => n
  | .again _ => 16
  | .zeros _ => 17
  | .manyZeros _ => 18

/-- The extra bits of a step. -/
def LengthOp.extra : LengthOp → List Bool
  | .len _ => []
  | .again count => lsbBits 2 (count - 3)
  | .zeros count => lsbBits 3 (count - 3)
  | .manyZeros count => lsbBits 7 (count - 11)

/-- A step that can be made after the lengths `all`. -/
def LengthOp.Valid (all : List ℕ) : LengthOp → Prop
  | .len n => n ≤ 15
  | .again count => 3 ≤ count ∧ count ≤ 6 ∧ all ≠ []
  | .zeros count => 3 ≤ count ∧ count ≤ 10
  | .manyZeros count => 11 ≤ count ∧ count ≤ 138

instance (all : List ℕ) : ∀ op : LengthOp, Decidable (op.Valid all)
  | .len n => inferInstanceAs (Decidable (n ≤ 15))
  | .again count => inferInstanceAs (Decidable (3 ≤ count ∧ count ≤ 6 ∧ all ≠ []))
  | .zeros count => inferInstanceAs (Decidable (3 ≤ count ∧ count ≤ 10))
  | .manyZeros count => inferInstanceAs (Decidable (11 ≤ count ∧ count ≤ 138))

/-- The lengths after a step. -/
def LengthOp.expand (all : List ℕ) : LengthOp → List ℕ
  | .len n => all ++ [n]
  | .again count => all ++ List.replicate count (all.getLastD 0)
  | .zeros count => all ++ List.replicate count 0
  | .manyZeros count => all ++ List.replicate count 0

/-- The steps can be made one after the other with the words of the given lengths. -/
def OpsValid (clLengths : List ℕ) : List ℕ → List LengthOp → Prop
  | _, [] => True
  | all, op :: ops => op.Valid all ∧ 0 < lenOf clLengths op.symbol ∧
      OpsValid clLengths (op.expand all) ops

instance (clLengths : List ℕ) : ∀ all ops, Decidable (OpsValid clLengths all ops)
  | _, [] => inferInstanceAs (Decidable True)
  | all, op :: ops =>
    have := instDecidableOpsValid clLengths (op.expand all) ops
    inferInstanceAs (Decidable (op.Valid all ∧ 0 < lenOf clLengths op.symbol ∧
      OpsValid clLengths (op.expand all) ops))

/-- The order in which the lengths for the run-length code are sent. -/
def clOrder : List ℕ := [16, 17, 18, 0, 8, 7, 9, 6, 10, 5, 11, 4, 12, 3, 13, 2, 14, 1, 15]

/-- The header of a block with dynamic codes. -/
structure DynamicHeader where
  litLengths : List ℕ
  distLengths : List ℕ
  clLengths : List ℕ
  /-- how many entries of `clOrder` are sent -/
  hclen : ℕ
  ops : List LengthOp
  lit_count : 257 ≤ litLengths.length ∧ litLengths.length ≤ 286
  dist_count : 1 ≤ distLengths.length ∧ distLengths.length ≤ 30
  lit_code : CodeLengths litLengths 15
  dist_code : CodeLengths distLengths 15
  cl_count : clLengths.length = 19
  cl_code : CodeLengths clLengths 7
  hclen_range : 4 ≤ hclen ∧ hclen ≤ 19
  cl_unsent : ∀ sym ∈ clOrder.drop hclen, lenOf clLengths sym = 0
  ops_valid : OpsValid clLengths [] ops
  ops_expand : ops.foldl LengthOp.expand [] = litLengths ++ distLengths

/-- The bits of the header. -/
def DynamicHeader.encode (h : DynamicHeader) : List Bool :=
  lsbBits 5 (h.litLengths.length - 257) ++ lsbBits 5 (h.distLengths.length - 1) ++
    lsbBits 4 (h.hclen - 4) ++
    (clOrder.take h.hclen).flatMap (fun sym => lsbBits 3 (lenOf h.clLengths sym)) ++
    h.ops.flatMap fun op => word h.clLengths op.symbol ++ op.extra

/-- A block of the stream. -/
inductive Block where
  | stored (bytes : List UInt8)
  | fixed (tokens : List Token)
  | dynamic (header : DynamicHeader) (tokens : List Token)

/-- The bits of a block that starts at bit `pos` of the stream. -/
def Block.encode (pos : ℕ) (final : Bool) : Block → List Bool
  | .stored bytes =>
    -- the rest of the byte is filled with zeros
    final :: (lsbBits 2 0 ++ List.replicate ((8 - (pos + 3) % 8) % 8) false ++
      lsbBits 16 bytes.length ++ lsbBits 16 (65535 - bytes.length) ++ bitsOf bytes)
  | .fixed tokens => final :: (lsbBits 2 1 ++ encodeTokens fixedLitWord fixedDistWord tokens)
  | .dynamic header tokens =>
    final :: (lsbBits 2 2 ++ header.encode ++
      encodeTokens (word header.litLengths) (word header.distLengths) tokens)

/-- The bits of a stream of blocks, of which the last one is marked final. -/
def encodeBlocks : ℕ → List Block → List Bool
  | _, [] => []
  | pos, [b] => b.encode pos true
  | pos, b :: bs => b.encode pos false ++ encodeBlocks (pos + (b.encode pos false).length) bs

/-- The bytes of a stream of blocks. -/
def serialise (blocks : List Block) : List UInt8 := packBytes (encodeBlocks 0 blocks)

/-- The output after a token. A copy that reaches its own beginning repeats the last `distance`
    bytes. -/
def expandToken (out : List UInt8) : Token → List UInt8
  | .literal b => out ++ [b]
  | .copy length distance =>
    out ++ (List.range length).map fun i => out.getD (out.length - distance + i % distance) 0

/-- The output after a block. -/
def Block.expand (out : List UInt8) : Block → List UInt8
  | .stored bytes => out ++ bytes
  | .fixed tokens => tokens.foldl expandToken out
  | .dynamic _ tokens => tokens.foldl expandToken out

/-- A token that may follow the output `out`. -/
def Token.Valid (out : List UInt8) : Token → Prop
  | .literal _ => True
  | .copy length distance => 3 ≤ length ∧ length ≤ 258 ∧ 1 ≤ distance ∧ distance ≤ 32768 ∧
      distance ≤ out.length

instance (out : List UInt8) : ∀ t : Token, Decidable (t.Valid out)
  | .literal _ => inferInstanceAs (Decidable True)
  | .copy length distance => inferInstanceAs (Decidable (3 ≤ length ∧ length ≤ 258 ∧ 1 ≤ distance ∧
      distance ≤ 32768 ∧ distance ≤ out.length))

/-- The symbols of a token have words. -/
def Token.HasWords (litLengths distLengths : List ℕ) : Token → Prop
  | .literal b => 0 < lenOf litLengths b.toNat
  | .copy length distance => 0 < lenOf litLengths (rowOf lengthRows length).symbol ∧
      0 < lenOf distLengths (rowOf distRows distance).symbol

instance (litLengths distLengths : List ℕ) : ∀ t : Token,
    Decidable (t.HasWords litLengths distLengths)
  | .literal b => inferInstanceAs (Decidable (0 < lenOf litLengths b.toNat))
  | .copy length distance =>
    inferInstanceAs (Decidable (0 < lenOf litLengths (rowOf lengthRows length).symbol ∧
      0 < lenOf distLengths (rowOf distRows distance).symbol))

/-- Tokens that may follow the output `out`. -/
def TokensValid : List UInt8 → List Token → Prop
  | _, [] => True
  | out, t :: ts => t.Valid out ∧ TokensValid (expandToken out t) ts

instance : ∀ out tokens, Decidable (TokensValid out tokens)
  | _, [] => inferInstanceAs (Decidable True)
  | out, t :: ts =>
    have := instDecidableTokensValid (expandToken out t) ts
    inferInstanceAs (Decidable (t.Valid out ∧ TokensValid (expandToken out t) ts))

/-- A block that may follow the output `out`. -/
def Block.Valid (out : List UInt8) : Block → Prop
  | .stored bytes => bytes.length ≤ 65535
  | .fixed tokens => TokensValid out tokens
  | .dynamic header tokens => TokensValid out tokens ∧ 0 < lenOf header.litLengths 256 ∧
      ∀ t ∈ tokens, t.HasWords header.litLengths header.distLengths

instance (out : List UInt8) : ∀ b : Block, Decidable (b.Valid out)
  | .stored bytes => inferInstanceAs (Decidable (bytes.length ≤ 65535))
  | .fixed tokens => inferInstanceAs (Decidable (TokensValid out tokens))
  | .dynamic header tokens => inferInstanceAs (Decidable (TokensValid out tokens ∧
      0 < lenOf header.litLengths 256 ∧
      ∀ t ∈ tokens, t.HasWords header.litLengths header.distLengths))

/-- Blocks that may follow the output `out`. -/
def BlocksValid : List UInt8 → List Block → Prop
  | _, [] => True
  | out, b :: bs => b.Valid out ∧ BlocksValid (b.expand out) bs

instance : ∀ out blocks, Decidable (BlocksValid out blocks)
  | _, [] => inferInstanceAs (Decidable True)
  | out, b :: bs =>
    have := instDecidableBlocksValid (b.expand out) bs
    inferInstanceAs (Decidable (b.Valid out ∧ BlocksValid (b.expand out) bs))

end AuroraOS.Inflate
