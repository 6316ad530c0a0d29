import AuroraOS.Inflate.RoundTrip

/-!
# Streams on the bits of the data

What the bits of a byte string say, read as a DEFLATE stream: relations between the bit where a part
of the stream begins and the bit behind it. Behind the data there are zero bits; the positions of
bytes are numbers of 32 bits. A stored block lies in the data itself.

## Main definitions

- `bitsAt` — the bits of the data and those behind it
- `HuffmanTable.HasWord`, `SymbolAt` — the word of a symbol
- `LengthsAt`, `TablesAt` — the header of a dynamic block
- `TokensAt`, `StoredAt`, `BlockAt`
- `StreamAt` — blocks up to the final one
-/

namespace AuroraOS.Inflate

open AuroraOS.Lib

/-- The byte that the bit reader finds at a position. -/
def byteAt (data : List UInt8) (i : ℕ) : ℕ := (data.getD (i % 2 ^ 32) 0).toNat

def bitAt (data : List UInt8) (p : ℕ) : Bool := (byteAt data (p / 8)).testBit (p % 8)

/-- The `n` bits from `p` on. -/
def bitsAt (data : List UInt8) (p n : ℕ) : List Bool :=
  (List.range n).map fun i => bitAt data (p + i)

/-- A symbol has a word in the table. -/
def HuffmanTable.HasWord (t : HuffmanTable) (sym : ℕ) (w : List Bool) : Prop :=
  sym < t.lengths.length ∧ t.lengths.getD sym 0 = w.length ∧ t.codes.getD sym 0 = msbVal w

/-- The word of `sym` is at `p`. In a table that is no prefix code a shorter word comes first, and
    the lower one of two symbols. -/
inductive SymbolAt (data : List UInt8) (t : HuffmanTable) (p : ℕ) : ℕ → ℕ → Prop
  | word {sym len : ℕ} (pos : 0 < len) (le : len ≤ maxHuffmanBits)
      (hasWord : t.HasWord sym (bitsAt data p len))
      (lowest : ∀ s < sym, ¬ t.HasWord s (bitsAt data p len))
      (shortest : ∀ l, 0 < l → l < len → ∀ s, ¬ t.HasWord s (bitsAt data p l)) :
      SymbolAt data t p sym (p + len)

/-- The number in the `n` bits from `p` on. -/
def numberAt (data : List UInt8) (p n : ℕ) : ℕ := lsbVal (bitsAt data p n)

/-- The lengths of the words of the run-length code, `count` of them. -/
def clLengthsAt (data : List UInt8) (p count : ℕ) : List ℕ :=
  (List.range count).foldl
    (fun lengths i => lengths.set (codeLengthOrder.getD i 0) (numberAt data (p + 3 * i) 3))
    (List.replicate 19 0)

/-- The lengths after a symbol of the run-length code whose extra bits are at `q`. -/
def lengthsAfter (data : List UInt8) (total sym : ℕ) (all : List ℕ) (q : ℕ) : List ℕ :=
  storeLengths total (repeatOf sym all).1
    ((repeatOf sym all).2.1 + numberAt data q (repeatOf sym all).2.2) all

/-- From the lengths `all` on, the run-length code at `p` goes on to `total` lengths. -/
inductive LengthsAt (data : List UInt8) (t : HuffmanTable) (total : ℕ) :
    List ℕ → ℕ → List ℕ → ℕ → Prop
  | done {all : List ℕ} {p : ℕ} (full : total ≤ all.length) : LengthsAt data t total all p all p
  | symbol {all lengths : List ℕ} {p sym q stop : ℕ} (room : all.length < total)
      (at_p : SymbolAt data t p sym q) (previous : ¬ (sym = 16 ∧ all = []))
      (fits : (lengthsAfter data total sym all q).length ≤ allLengthsSize)
      (rest : LengthsAt data t total (lengthsAfter data total sym all q)
        (q + (repeatOf sym all).2.2) lengths stop) :
      LengthsAt data t total all p lengths stop

/-- The header of a dynamic block. -/
inductive TablesAt (data : List UInt8) (p : ℕ) : HuffmanTable × HuffmanTable → ℕ → Prop
  | header {all : List ℕ} {stop : ℕ}
      (lengths : LengthsAt data
        (huffmanBuild (clLengthsAt data (p + 14) (numberAt data (p + 10) 4 + 4)))
        (numberAt data p 5 + 257 + (numberAt data (p + 5) 5 + 1)) []
        (p + 14 + 3 * (numberAt data (p + 10) 4 + 4)) all stop) :
      TablesAt data p (huffmanBuild (all.take (numberAt data p 5 + 257)),
        huffmanBuild ((all.drop (numberAt data p 5 + 257)).take (numberAt data (p + 5) 5 + 1))) stop

/-- The value of a length or distance symbol whose extra bits are at `p`. -/
def valueAt (data : List UInt8) (base extra : List ℕ) (i p : ℕ) : ℕ :=
  base.getD i 0 + numberAt data p (extra.getD i 0)

/-- A copy with the length symbol `sym` whose extra bits are at `p`: its length and distance. -/
inductive CopyAt (data : List UInt8) (dist : HuffmanTable) (sym p : ℕ) : ℕ → ℕ → ℕ → Prop
  | distance {distSym q : ℕ} (length_code : sym - 257 < 29)
      (at_p : SymbolAt data dist (p + lengthExtraBits.getD (sym - 257) 0) distSym q)
      (dist_code : distSym < 30) :
      CopyAt data dist sym p (valueAt data lengthBase lengthExtraBits (sym - 257) p)
        (valueAt data distBase distExtraBits distSym q) (q + distExtraBits.getD distSym 0)

/-- The tokens of a block up to the end-of-block symbol, from one output to another. -/
inductive TokensAt (data : List UInt8) (lit dist : HuffmanTable) (outMax : ℕ) :
    List UInt8 → ℕ → List UInt8 → ℕ → Prop
  | stop {out : List UInt8} {p q : ℕ} (at_p : SymbolAt data lit p 256 q) :
      TokensAt data lit dist outMax out p out q
  | literal {out out' : List UInt8} {p sym q stop : ℕ} (at_p : SymbolAt data lit p sym q)
      (literal : sym < 256) (room : out.length < outMax)
      (rest : TokensAt data lit dist outMax (out ++ [UInt8.ofNat sym]) q out' stop) :
      TokensAt data lit dist outMax out p out' stop
  | copy {out out' : List UInt8} {p sym q length distance r stop : ℕ}
      (at_p : SymbolAt data lit p sym q) (copy : 256 < sym)
      (operands : CopyAt data dist sym q length distance r)
      (back : 0 < distance ∧ distance ≤ out.length) (room : out.length + length ≤ outMax)
      (rest : TokensAt data lit dist outMax (expandToken out (.copy length distance)) r out' stop) :
      TokensAt data lit dist outMax out p out' stop

/-- A number of two bytes, the lower one first. -/
def pairAt (data : List UInt8) (i : ℕ) : ℕ := byteAt data i ||| (byteAt data (i + 1) <<< 8)

/-- A stored block: its length, the complement of the length, and the bytes, from the next whole
    byte on. -/
inductive StoredAt (data : List UInt8) (outMax : ℕ) (out : List UInt8) (p : ℕ) :
    List UInt8 → ℕ → Prop
  | bytes {i length : ℕ} (whole : i = (p + 7) / 8) (length_eq : pairAt data i = length)
      (complement : length ^^^ 0xFFFF = pairAt data (i + 2))
      (inside : i % 2 ^ 32 + 4 + length ≤ data.length) (room : out.length + length ≤ outMax) :
      StoredAt data outMax out p (out ++ (data.drop (i % 2 ^ 32 + 4)).take length)
        (8 * (i + 4 + length))

/-- A block, whose first bit says whether it is the final one. -/
inductive BlockAt (data : List UInt8) (outMax : ℕ) (out : List UInt8) (p : ℕ) :
    List UInt8 → ℕ → Prop
  | stored {out' : List UInt8} {stop : ℕ} (type : numberAt data (p + 1) 2 = 0)
      (body : StoredAt data outMax out (p + 3) out' stop) : BlockAt data outMax out p out' stop
  | fixed {out' : List UInt8} {stop : ℕ} (type : numberAt data (p + 1) 2 = 1)
      (body : TokensAt data (huffmanBuild fixedLitLengths) (huffmanBuild fixedDistLengths) outMax
        out (p + 3) out' stop) : BlockAt data outMax out p out' stop
  | dynamic {out' : List UInt8} {tables : HuffmanTable × HuffmanTable} {q stop : ℕ}
      (type : numberAt data (p + 1) 2 = 2) (header : TablesAt data (p + 3) tables q)
      (body : TokensAt data tables.1 tables.2 outMax out q out' stop) :
      BlockAt data outMax out p out' stop

/-- Blocks up to the final one. -/
inductive StreamAt (data : List UInt8) (outMax : ℕ) : List UInt8 → ℕ → List UInt8 → ℕ → Prop
  | final {out out' : List UInt8} {p stop : ℕ} (bit : bitAt data p = true)
      (block : BlockAt data outMax out p out' stop) : StreamAt data outMax out p out' stop
  | more {out out' out'' : List UInt8} {p q stop : ℕ} (bit : bitAt data p = false)
      (block : BlockAt data outMax out p out' q) (rest : StreamAt data outMax out' q out'' stop) :
      StreamAt data outMax out p out'' stop

variable {data : List UInt8} {t : HuffmanTable} {outMax p q : ℕ}

theorem bitsAt_succ (data : List UInt8) (p n : ℕ) :
    bitsAt data p (n + 1) = bitsAt data p n ++ [bitAt data (p + n)] := by
  rw [bitsAt, bitsAt, List.range_succ, List.map_append, List.map_singleton]

theorem bitsAt_succ' (data : List UInt8) (p n : ℕ) :
    bitsAt data p (n + 1) = bitAt data p :: bitsAt data (p + 1) n := by
  rw [bitsAt, bitsAt, List.range_succ_eq_map, List.map_cons, List.map_map, Nat.add_zero]
  congr 2
  funext i
  rw [Function.comp_apply, Nat.succ_eq_add_one, Nat.add_comm i 1, Nat.add_assoc]

@[simp]
theorem length_bitsAt (data : List UInt8) (p n : ℕ) : (bitsAt data p n).length = n := by
  rw [bitsAt, List.length_map, List.length_range]

theorem numberAt_lt (data : List UInt8) (p n : ℕ) : numberAt data p n < 2 ^ n := by
  have h := lsbVal_lt (bitsAt data p n)
  rwa [length_bitsAt] at h

theorem numberAt_one (data : List UInt8) (p : ℕ) : numberAt data p 1 = (bitAt data p).toNat := by
  simp [numberAt, bitsAt, lsbVal]

theorem numberAt_one_ne_zero_iff : numberAt data p 1 ≠ 0 ↔ bitAt data p = true := by
  rw [numberAt_one]
  cases bitAt data p <;> simp

/-- The search of the decoder finds the lowest symbol. -/
theorem huffmanSearch_eq_some_iff {n sym : ℕ} :
    huffmanSearch t n (msbVal (bitsAt data p n)) = some sym ↔
      t.HasWord sym (bitsAt data p n) ∧ ∀ s < sym, ¬ t.HasWord s (bitsAt data p n) := by
  rw [huffmanSearch, List.find?_range_eq_some]
  simp only [decide_eq_true_eq, List.mem_range, HuffmanTable.HasWord, length_bitsAt,
    Bool.not_eq_true', decide_eq_false_iff_not]
  constructor
  · rintro ⟨hword, hlt, hlowest⟩
    exact ⟨⟨hlt, hword⟩, fun s hs h => hlowest s hs h.2⟩
  · rintro ⟨⟨hlt, hword⟩, hlowest⟩
    exact ⟨hword, hlt, fun s hs h => hlowest s hs ⟨hs.trans hlt, h⟩⟩

theorem huffmanSearch_eq_none_iff {n : ℕ} :
    huffmanSearch t n (msbVal (bitsAt data p n)) = none ↔ ∀ s, ¬ t.HasWord s (bitsAt data p n) := by
  rw [huffmanSearch, List.find?_eq_none]
  simp only [decide_eq_true_eq, List.mem_range, HuffmanTable.HasWord, length_bitsAt]
  exact forall_congr' fun s => by rw [not_and, not_and, not_and]

theorem SymbolAt.lt {sym : ℕ} (h : SymbolAt data t p sym q) : p < q := by
  obtain ⟨pos, -, -, -, -⟩ := h
  exact Nat.lt_add_of_pos_right pos

theorem TokensAt.length_le {lit dist : HuffmanTable} {out out' : List UInt8}
    (h : TokensAt data lit dist outMax out p out' q) (hout : out.length ≤ outMax) :
    out'.length ≤ outMax := by
  induction h with
  | stop => exact hout
  | @literal out _ _ sym _ _ _ _ hroom _ ih =>
    refine ih ?_
    rw [List.length_append, List.length_singleton]
    exact hroom
  | copy _ _ _ _ hroom _ ih =>
    refine ih ?_
    rwa [expandToken, List.length_append, List.length_map, List.length_range]

theorem BlockAt.length_le {out out' : List UInt8} (h : BlockAt data outMax out p out' q)
    (hout : out.length ≤ outMax) : out'.length ≤ outMax := by
  cases h with
  | stored _ hbody =>
    obtain ⟨-, -, -, -, hroom⟩ := hbody
    rw [List.length_append, List.length_take]
    omega
  | fixed _ hbody => exact hbody.length_le hout
  | dynamic _ _ hbody => exact hbody.length_le hout

end AuroraOS.Inflate
