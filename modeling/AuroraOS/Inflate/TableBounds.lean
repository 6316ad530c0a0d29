import AuroraOS.Inflate.Traced

/-!
# Accesses to the tables

Every access of the Huffman decoder to its arrays is in bounds, but for the array `all_lengths`,
which holds 318 code lengths where a header may ask for 320.

## Main definitions

- `Tolerates` — a guarantee that the bit reader and accesses in bounds meet
- `CodeLengths` — the code lengths that a bit stream encodes
- `FitsAllLengths` — a dynamic header whose code lengths fit in `all_lengths`

## Main results

- `brReadBits_ensures`, `huffmanDecode_ensures`, `readLengths_ensures`
- `readDynamicHuffmanTables_inBounds_iff`
-/

namespace AuroraOS.Inflate.Traced

open AuroraOS.Lib AuroraOS.Lib.Logged

/-- The number of bits up to here. -/
def BitPos.pos (br : BitPos) : ℕ := 8 * br.bytePos + br.bitPos

/-- A guarantee that the bit reader and accesses in bounds meet. -/
structure Tolerates (len : ℕ) (G : Event → Prop) : Prop where
  bit : ∀ br, G (.bit br)
  data : ∀ i < len, G (.data i)
  sum : ∀ n, G (.sum n)
  array : ∀ (a : Table) (i : ℕ), i < a.size → G (.array a i)

/-- Under this assumption no sum wraps around. -/
def SumsFit (A : Event → Prop) : Prop := ∀ n, A (.sum n) → n < 2 ^ 32

variable {data : List UInt8} {len : ℕ} {A G : Event → Prop} {br : BitPos}

theorem add_ensures (hG : Tolerates len G) (m n : ℕ) :
    Ensures A G (add m n) fun r => r.1 = (m + n) % 2 ^ 32 ∧ A (.sum (m + n)) := by
  refine Ensures.bind (Ensures.tell fun _ => hG.sum _) fun _ h => ?_
  exact Ensures.pure ⟨rfl, h⟩

theorem access_ensures (hG : Tolerates len G) {a : Table} {i : ℕ} (h : i < a.size) :
    Ensures A G (access a i) fun _ => True := by
  refine Ensures.bind (Ensures.tell fun _ => hG.array _ _ h) fun _ _ => ?_
  exact Ensures.require.weaken fun _ _ => trivial

theorem readByte_value_iff {l : List UInt8} {e : Event} {i byte : ℕ} :
    (readByte l e i).value = some byte ↔ i < l.length ∧ byte = (l.getD i 0).toNat := by
  rw [readByte, value_bind_eq_some]
  constructor
  · rintro ⟨_, -, h⟩
    obtain ⟨_, hrequire, h⟩ := value_bind_eq_some.mp h
    rw [value_require] at hrequire
    split at hrequire
    · next hi => exact ⟨hi, (Option.some.inj h).symm⟩
    · exact absurd hrequire (by simp)
  · rintro ⟨hi, rfl⟩
    exact ⟨(), rfl, value_bind_eq_some.mpr ⟨(), by rw [value_require, if_pos hi], rfl⟩⟩

theorem mem_log_readByte {l : List UInt8} {e e' : Event} {i : ℕ} :
    e' ∈ (readByte l e i).log ↔ e' = e := by
  simp only [readByte, mem_log_bind, log_tell, List.mem_singleton, log_require, List.not_mem_nil,
    log_pure, and_false, exists_false, or_false]

theorem readByte_ensures {e : Event} {i : ℕ} (he : G e) :
    Ensures A G (readByte data e i) fun byte => byte < 256 ∧ i < data.length := by
  refine Ensures.bind (Ensures.tell fun _ => he) fun _ _ => ?_
  refine Ensures.bind Ensures.require fun _ hi => ?_
  exact Ensures.pure ⟨UInt8.toNat_lt _, hi⟩

theorem peekBit_ensures (hG : Tolerates len G) :
    Ensures A G (peekBit data len br) fun bit => bit < 2 ∧ (len ≤ br.bytePos → bit = 0) := by
  rw [peekBit]
  split
  · next hlt =>
    refine Ensures.bind (readByte_ensures (hG.data _ hlt)) fun byte _ => ?_
    exact Ensures.pure ⟨(Nat.and_lt_two_pow (n := 1) _ (by decide)), fun h => absurd h (by omega)⟩
  · exact Ensures.pure ⟨by decide, fun _ => rfl⟩

theorem advance_ensures (hG : Tolerates len G) :
    Ensures A G (advance br) fun r => SumsFit A → r.pos = br.pos + 1 := by
  rw [advance]
  split
  · refine Ensures.bind (add_ensures hG _ _) fun r hr => Ensures.pure fun hA => ?_
    obtain ⟨hr, hsum⟩ := hr
    rw [Nat.mod_eq_of_lt (hA _ hsum)] at hr
    simp only [BitPos.pos, hr]
    omega
  · exact Ensures.pure fun _ => by simp only [BitPos.pos]; omega

/-- What a call of `br_read_bits` returns. -/
structure ReadsBits (len : ℕ) (A : Event → Prop) (br : BitPos) (count : ℕ) (r : ℕ × BitPos) :
    Prop where
  lt : r.1 < 2 ^ count
  pos : SumsFit A → r.2.pos = br.pos + count
  zero : SumsFit A → 8 * len ≤ br.pos → r.1 = 0

theorem brReadBitsLoop_ensures (hG : Tolerates len G) (n : ℕ) {i result : ℕ}
    (hresult : result < 2 ^ i) :
    Ensures A G (brReadBitsLoop data len n i result br) fun r =>
      r.1 < 2 ^ (i + n) ∧
        (SumsFit A → r.2.pos = br.pos + n ∧ (8 * len ≤ br.pos → result = 0 → r.1 = 0)) := by
  induction n generalizing i result br with
  | zero => exact Ensures.pure ⟨hresult, fun _ => ⟨rfl, fun _ h => h⟩⟩
  | succ n ih =>
    refine Ensures.bind (Ensures.tell fun _ => hG.bit _) fun _ _ => ?_
    refine Ensures.bind (peekBit_ensures hG) fun bit hpeek => ?_
    refine Ensures.bind (advance_ensures hG) fun br' hnext => ?_
    have hlt : result ||| (bit <<< i) < 2 ^ (i + 1) := by
      refine Nat.or_lt_two_pow
        (hresult.trans (Nat.pow_lt_pow_right (by decide) (Nat.lt_succ_self i))) ?_
      rw [Nat.shiftLeft_eq, pow_succ']
      exact Nat.mul_lt_mul_of_pos_right hpeek.1 (Nat.two_pow_pos i)
    refine (ih hlt).weaken fun r hr => ⟨?_, fun hA => ?_⟩
    · rw [← Nat.add_assoc, Nat.add_right_comm]
      exact hr.1
    · obtain ⟨hpos, hzero⟩ := hr.2 hA
      rw [hnext hA] at hpos hzero
      refine ⟨by omega, fun hend hnil => hzero (by omega) ?_⟩
      have hlt := br.bitPos_lt
      rw [hnil, hpeek.2 (by rw [BitPos.pos] at hend; omega), Nat.zero_shiftLeft, Nat.or_zero]

theorem brReadBits_ensures (hG : Tolerates len G) (count : ℕ) :
    Ensures A G (brReadBits data len br count) (ReadsBits len A br count) := by
  refine (brReadBitsLoop_ensures hG count (i := 0) Nat.one_pos).weaken fun r hr => ?_
  rw [Nat.zero_add] at hr
  exact ⟨hr.1, fun hA => (hr.2 hA).1, fun hA hend => (hr.2 hA).2 hend rfl⟩

theorem huffmanSearch_lt {t : HuffmanTable} {codeLen code sym : ℕ}
    (h : huffmanSearch t codeLen code = some sym) : sym < t.lengths.length :=
  List.mem_range.mp (List.mem_of_find?_eq_some h)

theorem mem_searchAccesses {t : HuffmanTable} {codeLen code : ℕ} {e : Event}
    (he : e ∈ searchAccesses t codeLen code) : ∃ a i, e = .array a i := by
  obtain ⟨sym, -, he⟩ := List.mem_flatMap.mp he
  obtain rfl | he := List.mem_cons.mp he
  · exact ⟨_, _, rfl⟩
  · split at he
    · exact ⟨_, _, List.mem_singleton.mp he⟩
    · exact absurd he List.not_mem_nil

theorem searchAccesses_inBounds {t : HuffmanTable} (ht : t.lengths.length ≤ 288)
    (hG : Tolerates len G) (codeLen code : ℕ) : ∀ e ∈ searchAccesses t codeLen code, G e := by
  intro e he
  obtain ⟨sym, hsym, hmem⟩ := List.mem_flatMap.mp he
  have hlt : sym < 288 := by
    rw [List.mem_range] at hsym
    cases hfound : huffmanSearch t codeLen code with
    | none =>
      rw [hfound] at hsym
      exact hsym.trans_le ht
    | some last =>
      rw [hfound] at hsym
      have := huffmanSearch_lt hfound
      exact (Nat.lt_succ_iff.mp hsym).trans_lt (this.trans_le ht)
  obtain rfl | hmem := List.mem_cons.mp hmem
  · exact hG.array _ _ hlt
  · split at hmem
    · rw [List.mem_singleton.mp hmem]
      exact hG.array _ _ hlt
    · exact absurd hmem List.not_mem_nil

/-- What a call of `huffman_decode` returns. -/
structure Decodes (A : Event → Prop) (t : HuffmanTable) (br : BitPos) (r : Option ℕ × BitPos) :
    Prop where
  lt : ∀ sym, r.1 = some sym → sym < t.lengths.length
  pos : SumsFit A → br.pos ≤ r.2.pos

theorem huffmanDecodeLoop_ensures {t : HuffmanTable} (ht : t.lengths.length ≤ 288)
    (hG : Tolerates len G) (n codeLen code : ℕ) :
    Ensures A G (huffmanDecodeLoop data len t n codeLen code br) (Decodes A t br) := by
  induction n generalizing codeLen code br with
  | zero => exact Ensures.pure ⟨fun _ h => absurd h (by simp), fun _ => le_rfl⟩
  | succ n ih =>
    refine Ensures.bind (brReadBits_ensures hG 1) fun bit hread => ?_
    refine Ensures.bind (Ensures.tellAll (searchAccesses_inBounds ht hG _ _)) fun _ _ => ?_
    split
    · next sym hsym =>
      refine Ensures.pure ⟨fun s hs => ?_, fun hA => ?_⟩
      · obtain rfl := Option.some.inj hs
        exact huffmanSearch_lt hsym
      · rw [hread.pos hA]
        exact Nat.le_succ _
    · refine (ih _ _).weaken fun r hr => ⟨hr.lt, fun hA => ?_⟩
      have := hr.pos hA
      rw [hread.pos hA] at this
      omega

theorem huffmanDecode_ensures {t : HuffmanTable} (ht : t.lengths.length ≤ 288)
    (hG : Tolerates len G) :
    Ensures A G (huffmanDecode data len t br) (Decodes A t br) :=
  huffmanDecodeLoop_ensures ht hG _ _ _

theorem mem_buildAccesses {source : Table} {base : ℕ} {lengths : List ℕ} {e : Event}
    (he : e ∈ buildAccesses source base lengths) : ∃ a i, e = .array a i := by
  simp only [buildAccesses, List.mem_append, List.mem_flatMap, List.mem_map, List.mem_cons,
    List.not_mem_nil, or_false] at he
  obtain (((⟨_, _, rfl | rfl⟩ | ⟨_, _, rfl⟩) | ⟨_, _, rfl | rfl⟩) | ⟨_, _, rfl⟩) | ⟨_, _, rfl⟩ := he
  all_goals exact ⟨_, _, rfl⟩

theorem buildAccesses_inBounds {source : Table} {base : ℕ} {lengths : List ℕ}
    (hsource : base + lengths.length ≤ source.size) (hcount : lengths.length ≤ 288)
    (hmax : ∀ x ∈ lengths, x ≤ maxHuffmanBits) (hG : Tolerates len G) :
    ∀ e ∈ buildAccesses source base lengths, G e := by
  intro e he
  simp only [buildAccesses, List.mem_append, List.mem_flatMap, List.mem_map, List.mem_range,
    List.mem_filter, List.mem_cons, List.not_mem_nil, or_false] at he
  obtain (((⟨i, hi, rfl | rfl⟩ | ⟨x, ⟨hx, -⟩, rfl⟩) | ⟨i, hi, rfl | rfl⟩) | ⟨i, hi, rfl⟩) |
    ⟨x, ⟨hx, -⟩, rfl⟩ := he
  · exact hG.array _ _ (by omega)
  · exact hG.array _ _ (hi.trans_le hcount)
  · exact hG.array _ _ (Nat.lt_succ_of_le (hmax x hx))
  · exact hG.array _ _ (Nat.lt_succ_of_lt hi)
  · exact hG.array _ _ (Nat.succ_lt_succ hi)
  · exact hG.array _ _ (hi.trans_le hcount)
  · exact hG.array _ _ (Nat.lt_succ_of_le (hmax x hx))

theorem build_ensures {source : Table} {base : ℕ} {lengths : List ℕ}
    (hsource : base + lengths.length ≤ source.size) (hcount : lengths.length ≤ 288)
    (hmax : ∀ x ∈ lengths, x ≤ maxHuffmanBits) (hG : Tolerates len G) :
    Ensures A G (build source base lengths) fun t => t = huffmanBuild lengths := by
  refine Ensures.bind (Ensures.tellAll (buildAccesses_inBounds hsource hcount hmax hG))
    fun _ _ => ?_
  exact Ensures.pure rfl

theorem codeLengthOrder_lt {i : ℕ} (h : i < 19) : codeLengthOrder.getD i 0 < 19 := by
  have hall : ∀ i < 19, codeLengthOrder.getD i 0 < 19 := by decide
  exact hall i h

theorem readClLengths_ensures (hG : Tolerates len G) {n i : ℕ} {clLengths : List ℕ}
    (hi : i + n ≤ 19) (hlen : clLengths.length = 19) (hmax : ∀ x ∈ clLengths, x < 8) :
    Ensures A G (readClLengths data len n i clLengths br) fun r =>
      r.1.length = 19 ∧ (∀ x ∈ r.1, x < 8) ∧ (SumsFit A → br.pos ≤ r.2.pos) := by
  induction n generalizing i clLengths br with
  | zero => exact Ensures.pure ⟨hlen, hmax, fun _ => le_rfl⟩
  | succ n ih =>
    have horder := codeLengthOrder_lt (show i < 19 by omega)
    refine Ensures.bind (brReadBits_ensures hG 3) fun r hr => ?_
    refine Ensures.bind (access_ensures hG (show i < 19 by omega)) fun _ _ => ?_
    refine Ensures.bind (access_ensures hG horder) fun _ _ => ?_
    refine (ih (by omega) (by rw [List.length_set, hlen]) (fun x hx => ?_)).weaken
      fun s hs => ⟨hs.1, hs.2.1, fun hA => ?_⟩
    · obtain hx | rfl := List.mem_or_eq_of_mem_set hx
      · exact hmax x hx
      · exact hr.lt
    · have := hs.2.2 hA
      rw [hr.pos hA] at this
      omega

/-- The array `all_lengths` holds the lengths stored so far. -/
theorem storeLoop_ensures (hG : Tolerates len G) {total value n : ℕ} {all : List ℕ}
    (h : min total (all.length + n) ≤ allLengthsSize) (hle : all.length ≤ total) :
    Ensures A G (storeLoop total value n all) fun r =>
      r = all ++ List.replicate (min n (total - all.length)) value := by
  induction n generalizing all with
  | zero => exact Ensures.pure (by rw [Nat.zero_min, List.replicate_zero, List.append_nil])
  | succ n ih =>
    rw [storeLoop]
    split
    · next hlt =>
      refine Ensures.bind (access_ensures hG (by rw [Table.size]; omega)) fun _ _ => ?_
      refine (ih ?_ ?_).weaken fun r hr => ?_
      · rw [List.length_append, List.length_singleton]
        omega
      · rw [List.length_append, List.length_singleton]
        omega
      · have hmin : min (n + 1) (total - all.length) = min n (total - (all.length + 1)) + 1 := by
          omega
        rw [hr, List.length_append, List.length_singleton, hmin, List.append_assoc,
          List.replicate_succ, List.singleton_append]
    · next hge =>
      have hmin : min (n + 1) (total - all.length) = 0 := by omega
      exact Ensures.pure (by rw [hmin, List.replicate_zero, List.append_nil])

/-- Repeating keeps a length that is there, and the others are small. -/
theorem repeatOf_le {sym : ℕ} {all : List ℕ} (hmax : ∀ x ∈ all, x ≤ maxHuffmanBits) :
    (repeatOf sym all).1 ≤ maxHuffmanBits := by
  rw [repeatOf]
  split
  · next hlt => exact Nat.lt_succ_iff.mp hlt
  · split
    · cases hlast : all.getLast? with
      | none =>
        rw [List.getLastD_eq_getLast?, hlast]
        exact Nat.zero_le _
      | some x =>
        rw [List.getLastD_eq_getLast?, hlast]
        exact hmax x (List.mem_of_getLast? hlast)
    · split <;> exact Nat.zero_le _

variable (data len) in
/-- The code lengths that the symbols of the table `t` encode from `br` on, after those in `all`. -/
inductive CodeLengths (t : HuffmanTable) : List ℕ → BitPos → List ℕ → Prop
  | done (all br) : CodeLengths t all br all
  | symbol {all br sym br' extra br'' all'}
      (decoded : (huffmanDecode data len t br).value = some (some sym, br'))
      (repeats : ¬ (sym = 16 ∧ all = []))
      (read : (brReadBits data len br' (repeatOf sym all).2.2).value = some (extra, br''))
      (rest : CodeLengths t
        (all ++ List.replicate ((repeatOf sym all).2.1 + extra) (repeatOf sym all).1) br'' all') :
      CodeLengths t all br all'

/-- What is stored for a symbol. -/
structure Stores (data : List UInt8) (len : ℕ) (A : Event → Prop) (total sym : ℕ) (all : List ℕ)
    (br : BitPos)
    (r : List ℕ × BitPos) : Prop where
  repeats : ¬ (sym = 16 ∧ all = [])
  stored : ∃ extra,
    (brReadBits data len br (repeatOf sym all).2.2).value = some (extra, r.2) ∧
      r.1 = all ++ List.replicate (min ((repeatOf sym all).2.1 + extra) (total - all.length))
        (repeatOf sym all).1
  pos : SumsFit A → br.pos ≤ r.2.pos

theorem storeSymbol_ensures (hG : Tolerates len G) {total sym : ℕ} {all : List ℕ}
    (hle : all.length ≤ total) (hsize : all.length ≤ allLengthsSize)
    (hroom : ¬ (sym = 16 ∧ all = []) → ∀ extra br',
      (brReadBits data len br (repeatOf sym all).2.2).value = some (extra, br') →
      min total (all.length + ((repeatOf sym all).2.1 + extra)) ≤ allLengthsSize) :
    Ensures A G (storeSymbol data len total sym all br) (Stores data len A total sym all br) := by
  refine Ensures.bind Ensures.require fun _ hrepeats => ?_
  refine Ensures.bind (brReadBits_ensures hG _).value fun extra hextra => ?_
  have hlast : Ensures A G (readPrevious sym all) fun _ => True := by
    rw [readPrevious]
    split
    · next hsym =>
      have hpos : 0 < all.length := List.length_pos_iff.mpr fun hnil => hrepeats ⟨hsym, hnil⟩
      exact access_ensures hG (show all.length - 1 < allLengthsSize by omega)
    · exact Ensures.pure trivial
  refine Ensures.bind hlast fun _ _ => ?_
  refine Ensures.bind (storeLoop_ensures hG (hroom hrepeats _ _ hextra.2) hle) fun r hr => ?_
  refine Ensures.pure ⟨hrepeats, ⟨extra.1, hextra.2, hr⟩, fun hA => ?_⟩
  rw [hextra.1.pos hA]
  exact Nat.le_add_right _ _

/-- The code lengths decoded so far. -/
structure LengthsRead (total : ℕ) (all : List ℕ) : Prop where
  le_total : all.length ≤ total
  le_max : ∀ x ∈ all, x ≤ maxHuffmanBits

theorem Stores.lengthsRead {total sym : ℕ} {all : List ℕ} {r : List ℕ × BitPos}
    (h : Stores data len A total sym all br r) (hall : LengthsRead total all) :
      LengthsRead total r.1 := by
  obtain ⟨extra, -, hr⟩ := h.stored
  refine ⟨?_, fun x hx => ?_⟩
  · have := hall.le_total
    rw [hr, List.length_append, List.length_replicate]
    omega
  · rw [hr] at hx
    obtain hx | hx := List.mem_append.mp hx
    · exact hall.le_max x hx
    · rw [(List.mem_replicate.mp hx).2]
      exact repeatOf_le hall.le_max

theorem Stores.length_lt {total sym : ℕ} {all : List ℕ} {r : List ℕ × BitPos}
    (h : Stores data len A total sym all br r) (hlt : all.length < total) :
    all.length < r.1.length := by
  obtain ⟨extra, -, hr⟩ := h.stored
  have := repeatOf_pos sym all
  rw [hr, List.length_append, List.length_replicate]
  omega

/-- All of `all_lengths` that is used is there, if no more than 318 lengths are asked for, or if no
    more can be decoded. -/
theorem readLengths_ensures (hG : Tolerates len G) {t : HuffmanTable}
    (ht : t.lengths.length ≤ 288) {total fuel : ℕ} {all : List ℕ} (hall : LengthsRead total all)
    (hsize : all.length ≤ allLengthsSize) (hfuel : total - all.length ≤ fuel)
    (h : total ≤ allLengthsSize ∨
      ∀ lens, CodeLengths data len t all br lens → lens.length ≤ allLengthsSize) :
    Ensures A G (readLengths data len t total fuel all br) fun r =>
      LengthsRead total r.1 ∧ r.1.length = total ∧ r.1.length ≤ allLengthsSize ∧
        (SumsFit A → br.pos ≤ r.2.pos) := by
  induction fuel generalizing all br with
  | zero =>
    have hdone : total ≤ all.length := by omega
    rw [readLengths, if_pos hdone]
    exact Ensures.pure ⟨hall, le_antisymm hall.le_total hdone, hsize, fun _ => le_rfl⟩
  | succ fuel ih =>
    rw [readLengths]
    split
    · next hdone =>
      exact Ensures.pure ⟨hall, le_antisymm hall.le_total hdone, hsize, fun _ => le_rfl⟩
    · next hmore =>
      refine Ensures.bind (huffmanDecode_ensures ht hG).value fun s hs => ?_
      obtain ⟨sym, br'⟩ := s
      cases sym with
      | none => exact Ensures.fail
      | some sym =>
        -- an access behind the array would be one for a length that can be decoded
        have hroom : ¬ (sym = 16 ∧ all = []) → ∀ extra br'',
            (brReadBits data len br' (repeatOf sym all).2.2).value = some (extra, br'') →
            min total (all.length + ((repeatOf sym all).2.1 + extra)) ≤ allLengthsSize := by
          intro hrepeats extra br'' hextra
          obtain htotal | hlens := h
          · exact (Nat.min_le_left _ _).trans htotal
          · have := hlens _ (.symbol hs.2 hrepeats hextra (.done _ _))
            rw [List.length_append, List.length_replicate] at this
            exact (Nat.min_le_right _ _).trans this
        refine Ensures.bind (storeSymbol_ensures hG hall.le_total hsize hroom)
          fun r hr => ?_
        obtain ⟨extra, hextra, hr₁⟩ := hr.stored
        have hlt := hr.length_lt (by omega)
        have hsize' : r.1.length ≤ allLengthsSize := by
          have := hroom hr.repeats _ _ hextra
          rw [hr₁, List.length_append, List.length_replicate]
          omega
        have h' : total ≤ allLengthsSize ∨
            ∀ lens, CodeLengths data len t r.1 r.2 lens → lens.length ≤ allLengthsSize := by
          obtain htotal | hlens := h
          · exact Or.inl htotal
          · by_cases hfull : total ≤ allLengthsSize
            · exact Or.inl hfull
            · refine Or.inr fun lens hrest => hlens lens (.symbol hs.2 hr.repeats hextra ?_)
              -- nothing has been cut off so far
              have hcount : min ((repeatOf sym all).2.1 + extra) (total - all.length) =
                  (repeatOf sym all).2.1 + extra := by
                rw [hr₁, List.length_append, List.length_replicate] at hsize'
                omega
              rwa [hr₁, hcount] at hrest
        refine (ih (hr.lengthsRead hall) hsize' (by omega) h').weaken fun u hu =>
          ⟨hu.1, hu.2.1, hu.2.2.1, fun hA => ?_⟩
        exact (hs.1.pos hA).trans ((hr.pos hA).trans (hu.2.2.2 hA))

theorem readCounts_ensures (hG : Tolerates len G) :
    Ensures A G (readCounts data len br) fun r =>
      r.1.1 ≤ 288 ∧ r.1.2.1 ≤ 32 ∧ r.1.2.2 ≤ 19 ∧ (SumsFit A → br.pos + 14 = r.2.pos) := by
  refine Ensures.bind (brReadBits_ensures hG 5) fun hlit h₁ => ?_
  refine Ensures.bind (brReadBits_ensures hG 5) fun hdist h₂ => ?_
  refine Ensures.bind (brReadBits_ensures hG 4) fun hclen h₃ => ?_
  have hlit_lt := h₁.lt
  have hdist_lt := h₂.lt
  have hclen_lt := h₃.lt
  refine Ensures.pure ⟨by dsimp only; omega, by dsimp only; omega, by dsimp only; omega,
    fun hA => ?_⟩
  rw [h₃.pos hA, h₂.pos hA, h₁.pos hA]

/-- No more code lengths are asked for than fit in `all_lengths`, or no more can be decoded. -/
def FitsAllLengths (data : List UInt8) (len : ℕ) (br : BitPos) : Prop :=
  ∀ hlit hdist hclen br', (readCounts data len br).value = some ((hlit, hdist, hclen), br') →
    hlit + hdist ≤ allLengthsSize ∨
      ∀ cl, (readClLengths data len hclen 0 (List.replicate 19 0) br').value = some cl →
        ∀ lens, CodeLengths data len (huffmanBuild cl.1) [] cl.2 lens → lens.length ≤ allLengthsSize

/-- Every access to the tables is in bounds, and they are complete. -/
theorem readDynamicHuffmanTables_ensures (hG : Tolerates len G)
    (hheader : ∀ total, A (.header total) → G (.header total))
    (hfit : (∀ total, A (.header total) → total ≤ allLengthsSize) ∨ FitsAllLengths data len br) :
    Ensures A G (readDynamicHuffmanTables data len br) fun r =>
      r.1.1.lengths.length ≤ 288 ∧ r.1.2.lengths.length ≤ 288 ∧
        (SumsFit A → br.pos + 14 ≤ r.2.pos) := by
  refine Ensures.bind (readCounts_ensures hG).value fun counts hcounts => ?_
  obtain ⟨⟨hlit, hdist, hclen⟩, br₁⟩ := counts
  obtain ⟨⟨hlit_le, hdist_le, hclen_le, hpos⟩, hvalue⟩ := hcounts
  have hclen_le : 0 + hclen ≤ 19 := by rw [Nat.zero_add]; exact hclen_le
  have hzero : ∀ x ∈ List.replicate 19 0, x < 8 := fun x hx => by
    rw [(List.mem_replicate.mp hx).2]
    decide
  refine Ensures.bind (readClLengths_ensures hG hclen_le List.length_replicate hzero).value
    fun cl hcl => ?_
  obtain ⟨⟨hlen, hmax, hpos'⟩, hvalue'⟩ := hcl
  have hbuild : Ensures A G (build .clLengths 0 cl.1) fun t => t = huffmanBuild cl.1 := by
    refine build_ensures ?_ ?_ (fun x hx => ?_) hG
    · rw [hlen]
      exact le_rfl
    · rw [hlen]
      decide
    · exact (hmax x hx).le.trans (by decide)
  refine Ensures.bind hbuild fun clTable ht => ?_
  subst ht
  refine Ensures.bind (Ensures.tell (hheader _)) fun _ htotal => ?_
  have hroom : hlit + hdist ≤ allLengthsSize ∨
      ∀ lens, CodeLengths data len (huffmanBuild cl.1) [] cl.2 lens →
        lens.length ≤ allLengthsSize := by
    obtain hheaders | hfits := hfit
    · exact Or.inl (hheaders _ htotal)
    · exact (hfits _ _ _ _ hvalue).imp_right fun h => h cl hvalue'
  have hcode : (huffmanBuild cl.1).lengths.length ≤ 288 := by
    change cl.1.length ≤ 288
    omega
  refine Ensures.bind
    (readLengths_ensures hG hcode ⟨Nat.zero_le _, fun _ h => absurd h List.not_mem_nil⟩
    (Nat.zero_le _) (Nat.sub_le _ _) hroom) fun all hall => ?_
  obtain ⟨⟨-, hle⟩, hlen', hsize, hpos''⟩ := hall
  have hlit_len : (all.1.take hlit).length = hlit := by
    rw [List.length_take]
    omega
  have hdist_len : ((all.1.drop hlit).take hdist).length = hdist := by
    rw [List.length_take, List.length_drop]
    omega
  have hlit_build : Ensures A G (build .allLengths 0 (all.1.take hlit)) fun t =>
      t = huffmanBuild (all.1.take hlit) := by
    refine build_ensures ?_ ?_ (fun x hx => hle x (List.mem_of_mem_take hx)) hG
    · rw [hlit_len, Table.size]
      omega
    · rw [hlit_len]
      exact hlit_le
  have hdist_build : Ensures A G (build .allLengths hlit ((all.1.drop hlit).take hdist)) fun t =>
      t = huffmanBuild ((all.1.drop hlit).take hdist) := by
    refine build_ensures ?_ ?_
      (fun x hx => hle x (List.mem_of_mem_drop (List.mem_of_mem_take hx))) hG
    · rw [hdist_len, Table.size]
      omega
    · rw [hdist_len]
      exact hdist_le.trans (by decide)
  refine Ensures.bind hlit_build fun lit hlit' => Ensures.bind hdist_build fun dist hdist' => ?_
  subst hlit' hdist'
  refine Ensures.pure ⟨hlit_len.trans_le hlit_le, hdist_len.trans_le (hdist_le.trans (by decide)),
    fun hA => ?_⟩
  have h₁ := hpos hA
  have h₂ := hpos' hA
  have h₃ := hpos'' hA
  dsimp only at h₁ h₂ h₃ ⊢
  omega

theorem value_access {a : Table} {i : ℕ} (h : i < a.size) : (access a i).value = some () := by
  rw [access, value_bind_eq_some]
  exact ⟨(), rfl, by rw [value_require, if_pos h]⟩

theorem storeLoop_value {total value n : ℕ} {all : List ℕ} (htotal : allLengthsSize < total)
    (hn : all.length + n ≤ allLengthsSize) :
    (storeLoop total value n all).value = some (all ++ List.replicate n value) := by
  induction n generalizing all with
  | zero => rw [List.replicate_zero, List.append_nil]; rfl
  | succ n ih =>
    have haccess : (access .allLengths all.length).value = some () :=
      value_access (by rw [Table.size]; omega)
    rw [storeLoop, if_pos (by omega), value_bind_eq_some]
    refine ⟨(), haccess, ?_⟩
    rw [ih (by rw [List.length_append, List.length_singleton]; omega), List.append_assoc,
      List.singleton_append, List.replicate_succ]

theorem storeLoop_overruns {total value n : ℕ} {all : List ℕ} (htotal : allLengthsSize < total)
    (hall : all.length ≤ allLengthsSize) (hn : allLengthsSize < all.length + n) :
    .array .allLengths allLengthsSize ∈ (storeLoop total value n all).log := by
  induction n generalizing all with
  | zero => omega
  | succ n ih =>
    rw [storeLoop, if_pos (by omega), mem_log_bind]
    obtain hlt | heq := hall.lt_or_eq
    · refine Or.inr ⟨(), value_access hlt, ih ?_ ?_⟩
      · rw [List.length_append, List.length_singleton]
        omega
      · rw [List.length_append, List.length_singleton]
        omega
    · refine Or.inl ?_
      rw [heq, access, mem_log_bind]
      exact Or.inl (List.mem_singleton_self _)

theorem value_readPrevious {sym : ℕ} {all : List ℕ} (h : ¬ (sym = 16 ∧ all = []))
    (hall : all.length ≤ allLengthsSize) : (readPrevious sym all).value = some () := by
  rw [readPrevious]
  split
  · next hsym =>
    have hpos : 0 < all.length := List.length_pos_iff.mpr fun hnil => h ⟨hsym, hnil⟩
    exact value_access (show all.length - 1 < allLengthsSize by omega)
  · rfl

/-- The 319th code length is stored behind the array. -/
theorem readLengths_overruns {t : HuffmanTable} {total fuel : ℕ} {all lens : List ℕ}
    (h : CodeLengths data data.length t all br lens) (hlens : allLengthsSize < lens.length)
    (htotal : allLengthsSize < total) (hall : all.length ≤ allLengthsSize)
    (hfuel : total - all.length ≤ fuel) :
    .array .allLengths allLengthsSize ∈ (readLengths data data.length t total fuel all br).log := by
  induction h generalizing fuel with
  | done all br => omega
  | @symbol all br sym br' extra br'' all' hdecoded hrepeats hread _ ih =>
    obtain ⟨fuel, rfl⟩ : ∃ n, fuel = n + 1 := ⟨fuel - 1, by omega⟩
    rw [readLengths, if_neg (by omega), mem_log_bind]
    refine Or.inr ⟨_, hdecoded, ?_⟩
    rw [mem_log_bind]
    have hrequire : (require (¬ (sym = 16 ∧ all = [])) : Logged Event Unit).value = some () := by
      rw [value_require, if_pos hrepeats]
    have hprevious := value_readPrevious hrepeats hall
    by_cases hroom : all.length + ((repeatOf sym all).2.1 + extra) ≤ allLengthsSize
    · have hstore := @storeLoop_value _ (repeatOf sym all).1 _ _ htotal hroom
      refine Or.inr
        ⟨(all ++ List.replicate ((repeatOf sym all).2.1 + extra) (repeatOf sym all).1, br''),
        ?_, ih hlens ?_ ?_⟩
      · rw [storeSymbol, value_bind_eq_some]
        refine ⟨(), hrequire, ?_⟩
        rw [value_bind_eq_some]
        refine ⟨_, hread, ?_⟩
        rw [value_bind_eq_some]
        refine ⟨(), hprevious, ?_⟩
        rw [value_bind_eq_some]
        exact ⟨_, hstore, rfl⟩
      · rw [List.length_append, List.length_replicate]
        exact hroom
      · have := repeatOf_pos sym all
        rw [List.length_append, List.length_replicate]
        omega
    · refine Or.inl ?_
      rw [storeSymbol, mem_log_bind]
      refine Or.inr ⟨(), hrequire, ?_⟩
      rw [mem_log_bind]
      refine Or.inr ⟨_, hread, ?_⟩
      rw [mem_log_bind]
      refine Or.inr ⟨(), hprevious, ?_⟩
      rw [mem_log_bind]
      exact Or.inl (storeLoop_overruns htotal hall (by omega))

/-- The accesses of a call are in bounds. -/
def InTables : Event → Prop
  | .array a i => i < a.size
  | _ => True

instance : DecidablePred InTables
  | .array a i => inferInstanceAs (Decidable (i < a.size))
  | .bit _ | .data _ | .stored _ | .back _ _ | .write _ | .sum _ | .header _ | .exhausted =>
    isTrue trivial

theorem tolerates_inTables (len : ℕ) : Tolerates len InTables :=
  ⟨fun _ => trivial, fun _ _ => trivial, fun _ => trivial, fun _ _ h => h⟩

/-- Where more code lengths are asked for and encoded than there is room for, one of them is written
    behind `all_lengths`. -/
theorem readDynamicHuffmanTables_overruns {data : List UInt8} {br br' : BitPos}
    {hlit hdist hclen : ℕ} {cl : List ℕ × BitPos} {lens : List ℕ}
    (hcounts : (readCounts data data.length br).value = some ((hlit, hdist, hclen), br'))
    (hcl : (readClLengths data data.length hclen 0 (List.replicate 19 0) br').value = some cl)
    (hlens : CodeLengths data data.length (huffmanBuild cl.1) [] cl.2 lens)
    (htotal : allLengthsSize < hlit + hdist) (hlt : allLengthsSize < lens.length) :
    .array .allLengths allLengthsSize ∈
      (readDynamicHuffmanTables data data.length br).log := by
  rw [readDynamicHuffmanTables, mem_log_bind]
  refine Or.inr ⟨_, hcounts, ?_⟩
  rw [mem_log_bind]
  refine Or.inr ⟨_, hcl, ?_⟩
  rw [mem_log_bind]
  refine Or.inr ⟨_, rfl, ?_⟩
  rw [mem_log_bind]
  refine Or.inr ⟨(), rfl, ?_⟩
  rw [mem_log_bind]
  exact Or.inl (readLengths_overruns hlens hlt htotal (Nat.zero_le _) (Nat.sub_le _ _))

/-- All accesses are in bounds, unless 319 code lengths are asked for and can be decoded. -/
theorem readDynamicHuffmanTables_inBounds_iff (data : List UInt8) (br : BitPos) :
    (∀ e ∈ (readDynamicHuffmanTables data data.length br).log, InTables e) ↔
      FitsAllLengths data data.length br := by
  constructor
  · intro h hlit hdist hclen br' hcounts
    by_contra hover
    push Not at hover
    obtain ⟨htotal, cl, hcl, lens, hlens, hlt⟩ := hover
    exact absurd (h _ (readDynamicHuffmanTables_overruns hcounts hcl hlens htotal hlt))
      (lt_irrefl _)
  · intro h
    have hens := @readDynamicHuffmanTables_ensures data data.length (fun _ => True) InTables br
      (tolerates_inTables _) (fun _ _ => trivial) (Or.inr h)
    exact (hens fun _ _ => trivial).1

/-- The code of the header below has a single word, of one bit, for the symbol 18. -/
def zerosLengths : List ℕ := List.replicate 18 0 ++ [1]

/-- Where the symbol number `k` starts. -/
def zerosPos (k : Fin 31) : BitPos := ⟨3 + k, 5, by omega, by decide⟩

theorem zeros_step (k : Fin 30) :
    (huffmanDecode [0xFD, 0x1F, 0x80] 3 (huffmanBuild zerosLengths) (zerosPos k.castSucc)).value =
        some (some 18, ⟨3 + k, 6, by omega, by decide⟩) ∧
      (brReadBits [0xFD, 0x1F, 0x80] 3 ⟨3 + k, 6, by omega, by decide⟩ 7).value =
        some (0, zerosPos k.succ) := by
  revert k
  decide

/-- Past the end of the data every symbol stands for eleven zeros. -/
theorem codeLengths_zeros (n k : ℕ) (h : k + n = 30) :
    CodeLengths [0xFD, 0x1F, 0x80] 3 (huffmanBuild zerosLengths) (List.replicate (11 * k) 0)
      (zerosPos ⟨k, by omega⟩) (List.replicate 330 0) := by
  induction n generalizing k with
  | zero =>
    obtain rfl : k = 30 := h
    exact .done _ _
  | succ n ih =>
    obtain ⟨hdecoded, hread⟩ := zeros_step ⟨k, by omega⟩
    refine .symbol hdecoded (fun h => absurd h.1 (by decide)) hread ?_
    have hrest := ih (k + 1) (by omega)
    rw [Nat.mul_succ, List.replicate_add] at hrest
    exact hrest

/-- A header with 31 for both counts, and 30 times the symbol for eleven zeros. -/
theorem longHeader_overruns :
    ¬ ∀ e ∈ (readDynamicHuffmanTables [0xFD, 0x1F, 0x80] 3 ⟨0, 3, by decide, by decide⟩).log,
      InTables e := by
  have hcounts : (readCounts [0xFD, 0x1F, 0x80] 3 ⟨0, 3, by decide, by decide⟩).value =
      some ((288, 32, 4), ⟨2, 1, by decide, by decide⟩) := by decide
  have hcl : (readClLengths [0xFD, 0x1F, 0x80] 3 4 0 (List.replicate 19 0)
      ⟨2, 1, by decide, by decide⟩).value = some (zerosLengths, zerosPos 0) := by decide
  have hover := readDynamicHuffmanTables_overruns hcounts hcl (codeLengths_zeros 30 0 rfl)
    (by decide) (by rw [List.length_replicate]; decide)
  exact fun h => absurd (h _ hover) (lt_irrefl _)

end AuroraOS.Inflate.Traced
