import AuroraOS.Crypto.Sha256
import AuroraOS.Lib.Buffer
import AuroraOS.Lib.SecureHash

/-!
# SHA-256 and the standard

What `kernel/sha256.c` computes is the hash of the standard: the words agree, the full blocks and
the blocks of the tail are those of the padded message, and the tail stays within its buffer.

## Main definitions

- `sha256InBuffer` — the hash with the stores to `tail` and the loads from it as the source has them

## Main results

- `sha256_eq`
- `sha256InBuffer_eq`
-/

namespace AuroraOS.Crypto

set_option maxRecDepth 4096

open Lib

section Words

def Sha256State.toHashValue (st : Sha256State) : SecureHash.HashValue :=
  ⟨st.a.toBitVec, st.b.toBitVec, st.c.toBitVec, st.d.toBitVec, st.e.toBitVec, st.f.toBitVec,
    st.g.toBitVec, st.h.toBitVec⟩

theorem toHashValue_sha256Round (st : Sha256State) (k w : UInt32) :
    (sha256Round st k w).toHashValue =
      SecureHash.round k.toBitVec w.toBitVec st.toHashValue := by
  rfl

theorem toBitVec_sha256K {t : ℕ} (h : t < 64) :
    (sha256K.getD t 0).toBitVec = SecureHash.constant t := by
  have hroots : ∀ t < 64, ∃ q < 7,
      (q * 2 ^ 32 + (sha256K.getD t 0).toNat) ^ 3 ≤ SecureHash.firstPrimes.getD t 0 * 2 ^ (32 * 3) ∧
      SecureHash.firstPrimes.getD t 0 * 2 ^ (32 * 3) <
        (q * 2 ^ 32 + (sha256K.getD t 0).toNat + 1) ^ 3 := by
    decide
  obtain ⟨q, -, hle, hlt⟩ := hroots t h
  rw [SecureHash.constant, SecureHash.nth_prime h]
  exact (SecureHash.fractionalRoot_eq three_ne_zero hle hlt).symm

theorem toHashValue_init : Sha256State.init.toHashValue = SecureHash.HashValue.init := by
  have hroot : ∀ (t q : ℕ) (w : UInt32), t < 64 →
      (q * 2 ^ 32 + w.toNat) ^ 2 ≤ SecureHash.firstPrimes.getD t 0 * 2 ^ (32 * 2) →
      SecureHash.firstPrimes.getD t 0 * 2 ^ (32 * 2) < (q * 2 ^ 32 + w.toNat + 1) ^ 2 →
      w.toBitVec = SecureHash.fractionalRoot 2 (Nat.nth Nat.Prime t) := by
    intro t q w ht hle hlt
    rw [SecureHash.nth_prime ht]
    exact (SecureHash.fractionalRoot_eq two_ne_zero hle hlt).symm
  refine SecureHash.HashValue.ext ?_ ?_ ?_ ?_ ?_ ?_ ?_ ?_
  · exact hroot 0 1 _ (by decide) (by decide) (by decide)
  · exact hroot 1 1 _ (by decide) (by decide) (by decide)
  · exact hroot 2 2 _ (by decide) (by decide) (by decide)
  · exact hroot 3 2 _ (by decide) (by decide) (by decide)
  · exact hroot 4 3 _ (by decide) (by decide) (by decide)
  · exact hroot 5 3 _ (by decide) (by decide) (by decide)
  · exact hroot 6 4 _ (by decide) (by decide) (by decide)
  · exact hroot 7 4 _ (by decide) (by decide) (by decide)

theorem take_four_drop {bytes : List UInt8} {i : ℕ} (h : i + 4 ≤ bytes.length) :
    (bytes.drop i).take 4 =
      [bytes.getD i 0, bytes.getD (i + 1) 0, bytes.getD (i + 2) 0, bytes.getD (i + 3) 0] := by
  rw [List.drop_eq_getElem_cons (by omega), List.drop_eq_getElem_cons (by omega),
    List.drop_eq_getElem_cons (by omega), List.drop_eq_getElem_cons (by omega)]
  rw [List.getD_eq_getElem _ _ (by omega), List.getD_eq_getElem _ _ (by omega),
    List.getD_eq_getElem _ _ (by omega), List.getD_eq_getElem _ _ (by omega)]
  rfl

theorem toBitVec_wordOfBytes {block : List UInt8} {i : ℕ} (h : i * 4 + 4 ≤ block.length) :
    (wordOfBytes block (i * 4)).toBitVec = SecureHash.blockWord block i := by
  rw [SecureHash.blockWord, Nat.mul_comm, take_four_drop (by omega), ← toNat_or_shiftLeft]
  exact ((BitVec.ofNat_toNat 32 _).trans (BitVec.setWidth_eq _)).symm

end Words

section Transform

variable {block : List UInt8}

/-- The schedule after `n` turns. -/
def scheduleTurns (block : List UInt8) (n : ℕ) : Array UInt32 :=
  (List.range' 16 n).foldl scheduleTurn
    ((List.range 16).map fun i => wordOfBytes block (i * 4)).toArray

theorem sha256Schedule_eq (block : List UInt8) : sha256Schedule block = scheduleTurns block 48 :=
  rfl

theorem getD_push (w : Array UInt32) (x : UInt32) (i : ℕ) :
    (w.push x).getD i 0 = if i = w.size then x else w.getD i 0 := by
  rw [Array.getD_eq_getD_getElem?, Array.getD_eq_getD_getElem?, Array.getElem?_push]
  split <;> rfl

theorem scheduleTurns_spec (hblock : block.length = 64) (n : ℕ) :
    (scheduleTurns block n).size = 16 + n ∧
      ∀ t < 16 + n, ((scheduleTurns block n).getD t 0).toBitVec =
        SecureHash.schedule (SecureHash.blockWord block) t := by
  induction n with
  | zero =>
    refine ⟨rfl, fun t ht => ?_⟩
    have hword : (scheduleTurns block 0).getD t 0 = wordOfBytes block (t * 4) := by
      simp [scheduleTurns, ht]
    rw [hword, toBitVec_wordOfBytes (by omega), SecureHash.schedule, if_pos ht]
  | succ n ih =>
    obtain ⟨hsize, hword⟩ := ih
    have hturn : scheduleTurns block (n + 1) = scheduleTurn (scheduleTurns block n) (16 + n) := by
      rw [scheduleTurns, List.range'_concat, List.foldl_append, Nat.one_mul]
      rfl
    rw [hturn, scheduleTurn]
    refine ⟨by rw [Array.size_push, hsize, Nat.add_assoc], fun t ht => ?_⟩
    rw [getD_push, hsize]
    split
    · next heq =>
      -- the new word, from four earlier ones
      subst heq
      rw [SecureHash.schedule, if_neg (by omega), ← hword _ (by omega), ← hword _ (by omega),
        ← hword _ (by omega), ← hword _ (by omega)]
      simp only [UInt32.toBitVec_add]
      change _ + SecureHash.smallSigma0 _ + _ + SecureHash.smallSigma1 _ = _
      ac_rfl
    · exact hword t (by omega)

theorem toHashValue_sha256Transform (hblock : block.length = 64) (st : Sha256State) :
    (sha256Transform st block).toHashValue =
      SecureHash.compress st.toHashValue (SecureHash.blockWord block) := by
  have hrounds : ∀ (l : List ℕ) (r : Sha256State), (∀ t ∈ l, t < 64) →
      (l.foldl (fun r i => sha256Round r (sha256K.getD i 0)
          ((sha256Schedule block).getD i 0)) r).toHashValue =
        l.foldl (fun s t => SecureHash.round (SecureHash.constant t)
          (SecureHash.schedule (SecureHash.blockWord block) t) s) r.toHashValue := by
    intro l
    induction l with
    | nil => exact fun r _ => rfl
    | cons t l ih =>
      intro r hl
      have ht := hl t List.mem_cons_self
      rw [List.foldl_cons, List.foldl_cons, ih _ fun i hi => hl i (List.mem_cons_of_mem _ hi),
        toHashValue_sha256Round, toBitVec_sha256K ht, sha256Schedule_eq,
        (scheduleTurns_spec hblock 48).2 t ht]
  have hrun := hrounds (List.range 64) st fun t ht => List.mem_range.mp ht
  rw [SecureHash.compress, ← hrun]
  rfl

/-- The loop over the blocks that the buffer holds in full. -/
theorem toHashValue_sha256Blocks (st : Sha256State) {bytes : List UInt8} {count : ℕ}
    (h : 64 * count ≤ bytes.length) :
    (sha256Blocks st bytes count).toHashValue =
      SecureHash.hashBlocks st.toHashValue (bytes.take (64 * count)) := by
  have hblocks : ∀ (l : List ℕ) (st : Sha256State), (∀ i ∈ l, i < count) →
      (l.foldl (fun st i => sha256Transform st ((bytes.drop (i * 64)).take 64)) st).toHashValue =
        l.foldl (fun s i => SecureHash.compress s (SecureHash.blockWord
          (((bytes.take (64 * count)).drop (64 * i)).take 64))) st.toHashValue := by
    intro l
    induction l with
    | nil => exact fun st _ => rfl
    | cons i l ih =>
      intro st hl
      have hi := hl i List.mem_cons_self
      have hlen : ((bytes.drop (64 * i)).take 64).length = 64 := by
        rw [List.length_take, List.length_drop]
        omega
      have htake : ((bytes.take (64 * count)).drop (64 * i)).take 64 =
          (bytes.drop (64 * i)).take 64 := by
        rw [List.drop_take, List.take_take, Nat.min_eq_left (by omega)]
      rw [List.foldl_cons, List.foldl_cons, ih _ fun j hj => hl j (List.mem_cons_of_mem _ hj),
        Nat.mul_comm i 64, toHashValue_sha256Transform hlen, htake]
  have hcount : (bytes.take (64 * count)).length / 64 = count := by
    rw [List.length_take]
    omega
  rw [SecureHash.hashBlocks, hcount]
  exact hblocks _ st fun i hi => List.mem_range.mp hi

end Transform

section Tail

variable (data : List UInt8)

/-- The eight bytes of the bit length. -/
theorem map_shiftRight_eq_beFixed (x : UInt64) :
    ((List.range 8).map fun i => (x >>> (56 - UInt64.ofNat i * 8)).toUInt8) =
      beFixed 8 x.toNat := by
  refine List.ext_getElem? fun i => ?_
  obtain hi | hi := Nat.lt_or_ge i 8
  · have hshift : (56 - UInt64.ofNat i * 8).toNat % 64 = 8 * (7 - i) := by
      revert i
      decide
    rw [getElem?_beFixed _ hi, List.getElem?_map, List.getElem?_range hi, Option.map_some,
      Option.some_inj]
    refine UInt8.toNat_inj.mp ?_
    rw [UInt64.toNat_toUInt8, UInt64.toNat_shiftRight, hshift, Nat.shiftRight_eq_div_pow,
      Nat.pow_mul, UInt8.toNat_ofNat']
    exact (Nat.mod_mod _ _).symm
  · rw [List.getElem?_eq_none (by rwa [List.length_map, List.length_range]),
      List.getElem?_eq_none (by rwa [length_beFixed])]

/-- The tail is what the padded message has after the full blocks. -/
theorem sha256Tail_eq :
    sha256Tail data = data.drop (64 * (data.length / 64)) ++ SecureHash.padding data.length := by
  have hlen : (data.drop (data.length / 64 * 64)).length = data.length % 64 := by
    rw [List.length_drop]
    omega
  have hzeros : padTo (data.length % 64) - (data.length % 64 + 1) =
      SecureHash.zeroBytes data.length := by
    rw [padTo, SecureHash.zeroBytes]
    split <;> omega
  have hbits : beFixed 8 (UInt64.ofNat data.length * 8).toNat = beFixed 8 (8 * data.length) := by
    rw [beFixed_eq_beFixed_iff, UInt64.toNat_mul, UInt64.toNat_ofNat', Nat.mul_comm 8]
    change data.length % 2 ^ 64 * 8 % 2 ^ 64 % 2 ^ 64 = data.length * 8 % 2 ^ 64
    omega
  rw [sha256Tail, map_shiftRight_eq_beFixed, hbits, hlen, hzeros, SecureHash.padding, Nat.mul_comm]
  simp only [List.append_assoc]

theorem length_sha256Tail : (sha256Tail data).length = padTo (data.length % 64) + 8 := by
  rw [sha256Tail_eq, List.length_append, List.length_drop, SecureHash.length_padding, padTo,
    SecureHash.zeroBytes]
  split <;> omega

theorem bytesOfWord_eq (x : UInt32) : bytesOfWord x = beFixed 4 x.toBitVec.toNat :=
  (beFixed_four x).symm

theorem sha256_eq : sha256 data = SecureHash.sha256 data := by
  have hfull : 64 * (data.length / 64) ≤ data.length := Nat.mul_div_le data.length 64
  have hlen : (data.take (64 * (data.length / 64))).length % 64 = 0 := by
    rw [List.length_take]
    omega
  have hrest : data.length - data.length / 64 * 64 = data.length % 64 := by omega
  have htail : 64 * ((padTo (data.length % 64) + 8) / 64) = (sha256Tail data).length := by
    rw [length_sha256Tail, padTo]
    split <;> rfl
  have hstate : (sha256Blocks (sha256Blocks .init data (data.length / 64)) (sha256Tail data)
      ((padTo (data.length % 64) + 8) / 64)).toHashValue =
        SecureHash.hashBlocks .init (data ++ SecureHash.padding data.length) := by
    rw [toHashValue_sha256Blocks _ htail.le, toHashValue_sha256Blocks _ hfull, htail,
      List.take_length, sha256Tail_eq, toHashValue_init, ← SecureHash.hashBlocks_append _ hlen,
      ← List.append_assoc, List.take_append_drop]
  rw [SecureHash.sha256, ← hstate, sha256, hrest]
  simp only [SecureHash.HashValue.toBytes, bytesOfWord_eq, List.flatMap_cons, List.flatMap_nil]
  rfl

end Tail

section InBuffer

/-- The loop that stores the bit length, from turn `i` on. -/
def storeBitLen (bitLen : UInt64) (padTo : UInt32) :
    ℕ → ℕ → Buffer 128 → Option (Buffer 128)
  | 0, _, tail => some tail
  | n + 1, i, tail => do
    let tail ← tail.store (padTo.toNat + i) [(bitLen >>> (56 - UInt64.ofNat i * 8)).toUInt8]
    storeBitLen bitLen padTo n (i + 1) tail

/-- The loop over the blocks of the tail, from block `i` on. -/
def hashTail (tail : Buffer 128) : ℕ → ℕ → Sha256State → Option Sha256State
  | 0, _, st => some st
  | n + 1, i, st => do
    let block ← tail.load (i * 64) 64
    hashTail tail n (i + 1) (sha256Transform st block)

/-- The part of `sha256` that fills `tail`, with the value of `pad_to`. -/
def fillTail (tail : Buffer 128) (data : List UInt8) (len : UInt32) :
    Option (Buffer 128 × UInt32) := do
  let fullBlocks := len / 64
  let tailLen := len - fullBlocks * 64
  let tail ← tail.store 0 ((data.drop (fullBlocks * 64).toNat).take tailLen.toNat)
  let tail ← tail.store tailLen.toNat [0x80]
  let afterMarker := tailLen + 1
  let padTo : UInt32 := if afterMarker ≤ 56 then 56 else 120
  let tail ← tail.store afterMarker.toNat (List.replicate (padTo - afterMarker).toNat 0)
  let bitLen := len.toUInt64 * 8
  let tail ← storeBitLen bitLen padTo 8 0 tail
  some (tail, padTo)

/-- `sha256` on the buffer `tail`, with its contents at the start; `none` where a store or a load
    leaves it. -/
def sha256InBuffer (tail : Buffer 128) (data : List UInt8) (len : UInt32) :
    Option (List UInt8) := do
  let fullBlocks := len / 64
  let st := sha256Blocks .init data fullBlocks.toNat
  let (tail, padTo) ← fillTail tail data len
  let tailBlocks := (padTo + 8) / 64
  let st ← hashTail tail tailBlocks.toNat 0 st
  some ([st.a, st.b, st.c, st.d, st.e, st.f, st.g, st.h].flatMap bytesOfWord)

variable {tail : Buffer 128} {front : List UInt8}

theorem storeBitLen_spec {bitLen : UInt64} {padTo : UInt32} (n i : ℕ)
    (h : tail.StartsWith front) (hfront : front.length = padTo.toNat + i)
    (hfit : padTo.toNat + i + n ≤ 128) :
    ∃ tail', storeBitLen bitLen padTo n i tail = some tail' ∧
      tail'.StartsWith (front ++ (List.range' i n).map fun i =>
        (bitLen >>> (56 - UInt64.ofNat i * 8)).toUInt8) := by
  induction n generalizing i tail front with
  | zero => exact ⟨tail, rfl, by rwa [List.range'_zero, List.map_nil, List.append_nil]⟩
  | succ n ih =>
    obtain ⟨tail', hstore, htail⟩ : ∃ tail',
        tail.store (padTo.toNat + i) [(bitLen >>> (56 - UInt64.ofNat i * 8)).toUInt8] =
          some tail' ∧
        tail'.StartsWith (front ++ [(bitLen >>> (56 - UInt64.ofNat i * 8)).toUInt8]) :=
      h.store hfront.symm (by rw [List.length_singleton]; omega)
    obtain ⟨out, hrest, hout⟩ := ih (i + 1) htail
      (by rw [List.length_append, List.length_singleton]; omega) (by omega)
    refine ⟨out, by rw [storeBitLen, hstore]; exact hrest, ?_⟩
    rwa [List.range'_succ, List.map_cons, List.append_cons]

theorem hashTail_spec (n i : ℕ) (st : Sha256State) (h : tail.StartsWith front)
    (hfront : front.length = (i + n) * 64) :
    hashTail tail n i st = some ((List.range' i n).foldl
      (fun st i => sha256Transform st ((front.drop (i * 64)).take 64)) st) := by
  induction n generalizing i st with
  | zero => rfl
  | succ n ih =>
    rw [hashTail, h.load (by omega)]
    exact ih (i + 1) _ (by omega)

theorem toNat_fullBytes (len : UInt32) : (len / 64 * 64).toNat = len.toNat / 64 * 64 := by
  have hlt := len.toNat_lt
  rw [UInt32.toNat_mul, UInt32.toNat_div]
  change len.toNat / 64 * 64 % 2 ^ 32 = len.toNat / 64 * 64
  omega

theorem toNat_tailLen (len : UInt32) : (len - len / 64 * 64).toNat = len.toNat % 64 := by
  have hle : len / 64 * 64 ≤ len := by
    rw [UInt32.le_iff_toNat_le, toNat_fullBytes]
    omega
  rw [UInt32.toNat_sub_of_le _ _ hle, toNat_fullBytes]
  omega

theorem toNat_padTo {afterMarker : UInt32} {n : ℕ} (h : afterMarker.toNat = n + 1) :
    (if afterMarker ≤ 56 then 56 else 120 : UInt32).toNat = padTo n := by
  have hle : afterMarker ≤ 56 ↔ n + 1 ≤ 56 := by rw [UInt32.le_iff_toNat_le, h]; rfl
  rw [padTo]
  by_cases hn : n + 1 ≤ 56
  · rw [if_pos (hle.mpr hn), if_pos hn]
    rfl
  · rw [if_neg (mt hle.mp hn), if_neg hn]
    rfl

theorem padTo_bounds {n : ℕ} (h : n < 64) : n + 1 ≤ padTo n ∧ padTo n + 8 ≤ 128 := by
  rw [padTo]
  split <;> omega

theorem fillTail_spec (tail : Buffer 128) {data : List UInt8} {len : UInt32}
    (h : len.toNat = data.length) :
    ∃ tail' pad, fillTail tail data len = some (tail', pad) ∧
      pad.toNat = padTo (data.length % 64) ∧ tail'.StartsWith (sha256Tail data) := by
  obtain ⟨hle, hfit⟩ := padTo_bounds (Nat.mod_lt data.length (by decide))
  have hbytes := toNat_fullBytes len
  have htailLen := toNat_tailLen len
  rw [h] at hbytes htailLen
  have hmarker : (len - len / 64 * 64 + 1).toNat = data.length % 64 + 1 := by
    rw [UInt32.toNat_add, htailLen]
    change (data.length % 64 + 1) % 2 ^ 32 = _
    omega
  have hpadTo := toNat_padTo hmarker
  have hzeros : ((if len - len / 64 * 64 + 1 ≤ 56 then 56 else 120) -
      (len - len / 64 * 64 + 1)).toNat = padTo (data.length % 64) - (data.length % 64 + 1) := by
    rw [UInt32.toNat_sub_of_le, hpadTo, hmarker]
    rwa [UInt32.le_iff_toNat_le, hpadTo, hmarker]
  have hbits : len.toUInt64 = UInt64.ofNat data.length := by
    rw [← h]
    exact (UInt64.ofNat_uInt32ToNat len).symm
  have hrest : (data.drop (data.length / 64 * 64)).length = data.length % 64 := by
    rw [List.length_drop]
    omega
  rw [fillTail]
  dsimp only
  rw [hbytes, htailLen, hmarker, hzeros, hbits, List.take_of_length_le hrest.le]
  generalize (if len - len / 64 * 64 + 1 ≤ 56 then 56 else 120 : UInt32) = pad at *
  obtain ⟨tail₁, hstore₁, htail₁⟩ : ∃ tail',
      tail.store 0 (data.drop (data.length / 64 * 64)) = some tail' ∧
      tail'.StartsWith (data.drop (data.length / 64 * 64)) :=
    tail.startsWith_nil.store rfl (by omega)
  obtain ⟨tail₂, hstore₂, htail₂⟩ : ∃ tail', tail₁.store (data.length % 64) [0x80] = some tail' ∧
      tail'.StartsWith (data.drop (data.length / 64 * 64) ++ [0x80]) :=
    htail₁.store hrest.symm (by rw [List.length_singleton]; omega)
  obtain ⟨tail₃, hstore₃, htail₃⟩ : ∃ tail', tail₂.store (data.length % 64 + 1)
        (List.replicate (padTo (data.length % 64) - (data.length % 64 + 1)) 0) = some tail' ∧
      tail'.StartsWith (data.drop (data.length / 64 * 64) ++ [0x80] ++
        List.replicate (padTo (data.length % 64) - (data.length % 64 + 1)) 0) :=
    htail₂.store (by rw [List.length_append, hrest, List.length_singleton])
      (by rw [List.length_replicate]; omega)
  have hlen : (data.drop (data.length / 64 * 64) ++ [0x80] ++
      List.replicate (padTo (data.length % 64) - (data.length % 64 + 1)) 0).length =
        pad.toNat + 0 := by
    simp only [List.length_append, hrest, List.length_singleton, List.length_replicate]
    omega
  obtain ⟨tail₄, hstore₄, htail₄⟩ := @storeBitLen_spec _ _ (UInt64.ofNat data.length * 8) pad 8 0
    htail₃ hlen (by omega)
  refine ⟨tail₄, pad, ?_, hpadTo, ?_⟩
  · rw [hstore₁, Option.bind_eq_bind, Option.bind_some, hstore₂, Option.bind_some, hstore₃,
      Option.bind_some, hstore₄, Option.bind_some]
  · rw [sha256Tail, hrest, List.range_eq_range']
    exact htail₄

theorem sha256InBuffer_eq_sha256 (tail : Buffer 128) {data : List UInt8} {len : UInt32}
    (h : len.toNat = data.length) : sha256InBuffer tail data len = some (sha256 data) := by
  obtain ⟨tail', pad, hfill, hpad, htail⟩ := fillTail_spec tail h
  have hfull : (len / 64).toNat = data.length / 64 := by rw [UInt32.toNat_div, h]; rfl
  have hcount : ((pad + 8) / 64).toNat = (padTo (data.length % 64) + 8) / 64 := by
    rw [UInt32.toNat_div, UInt32.toNat_add, hpad, padTo]
    split <;> rfl
  have hlen : (sha256Tail data).length = (0 + (padTo (data.length % 64) + 8) / 64) * 64 := by
    rw [length_sha256Tail, padTo]
    split <;> rfl
  have hrest : data.length - data.length / 64 * 64 = data.length % 64 := by omega
  rw [sha256InBuffer]
  dsimp only
  rw [hfill, Option.bind_eq_bind, Option.bind_some]
  dsimp only
  rw [hcount, hfull, hashTail_spec _ _ _ htail hlen, Option.bind_eq_bind, Option.bind_some,
    ← List.range_eq_range', sha256, hrest]
  rfl

theorem sha256InBuffer_eq (tail : Buffer 128) {data : List UInt8} (h : data.length < 2 ^ 32) :
    sha256InBuffer tail data (UInt32.ofNat data.length) = some (SecureHash.sha256 data) := by
  rw [← sha256_eq, sha256InBuffer_eq_sha256 tail (UInt32.toNat_ofNat_of_lt' h)]

theorem sha256InBuffer_eq_abc :
    sha256InBuffer ⟨List.replicate 128 0xcc, rfl⟩ [0x61, 0x62, 0x63] (UInt32.ofNat 3) =
      some (SecureHash.sha256 [0x61, 0x62, 0x63]) :=
  sha256InBuffer_eq _ (by decide)

end InBuffer

end AuroraOS.Crypto
