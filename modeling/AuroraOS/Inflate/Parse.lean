import AuroraOS.Inflate.Grammar
import AuroraOS.Inflate.TableBounds

/-!
# The decompressor reads what the bits say

Both directions of the agreement between the decompressor and the grammar of its streams. What it
returns is there, and it has read no bits behind it; what is there it returns, and where that goes
past a given bit it has read this bit.

## Main definitions

- `posOf` — the bit reader at a position
- `Finds` — what is returned is there
- `Yields` — what is there is returned

## Main results

- `inflateBlock_finds`, `inflateBlocks_finds`
- `inflateBlock_yields`, `inflateBlocks_yields`
-/

namespace AuroraOS.Inflate.Traced

set_option maxRecDepth 4096

open AuroraOS.Lib AuroraOS.Lib.Logged

/-- The bit reader at bit `p`. -/
def posOf (p : ℕ) : BitPos :=
  ⟨p / 8 % 2 ^ 32, p % 8, Nat.mod_lt _ (Nat.two_pow_pos 32), Nat.mod_lt _ (Nat.zero_lt_succ 7)⟩

/-- What is returned from bit `p` on meets `R`, and no bit behind the end of it is read. -/
def Finds {α : Type} (c : Logged Event (α × BitPos)) (p : ℕ) (R : α → ℕ → Prop) : Prop :=
  ∀ a br, c.value = some (a, br) →
    ∃ q, br = posOf q ∧ R a q ∧ p ≤ q ∧ ∀ b, .bit b ∈ c.log → ∃ i < q, b = posOf i

/-- From bit `p` on `a` is returned, and its end is `q`. If `e` is passed on the way, it is read. -/
structure Yields {α : Type} (e : ℕ) (c : Logged Event (α × BitPos)) (p : ℕ) (a : α)
    (q : ℕ) : Prop where
  value : c.value = some (a, posOf q)
  le : p ≤ q
  bit : p ≤ e → e < q → .bit (posOf e) ∈ c.log

/-- A computation that reads no bits. -/
def Silent {α : Type} (c : Logged Event α) : Prop := ∀ b, .bit b ∉ c.log

section rules

variable {α β γ : Type} {e p q r : ℕ} {a : α} {b : β} {c : Logged Event (α × BitPos)}
  {d : Logged Event γ} {R : α → ℕ → Prop} {S : β → ℕ → Prop}

theorem Silent.pure (a : α) : Silent (Pure.pure a : Logged Event α) := fun _ => List.not_mem_nil

theorem Silent.tell {e : Event} (h : ∀ b, e ≠ .bit b) : Silent (tell e) :=
  fun b hb => h b (List.mem_singleton.mp hb).symm

theorem Silent.tellAll {es : List Event} (h : ∀ e ∈ es, ∃ a i, e = .array a i) :
    Silent (tellAll es) := by
  intro b hb
  obtain ⟨a, i, h⟩ := h _ hb
  exact absurd h (by simp)

theorem Silent.require (P : Prop) [Decidable P] : Silent (require P) := by
  intro b hb
  rw [log_require] at hb
  exact absurd hb List.not_mem_nil

theorem of_value_require {P : Prop} [Decidable P] {u : Unit}
    (h : (require P : Logged Event Unit).value = some u) : P := by
  rw [value_require] at h
  split at h
  · assumption
  · exact absurd h (by simp)

theorem require_value {P : Prop} [Decidable P] (h : P) :
    (require P : Logged Event Unit).value = some () := by
  rw [value_require, if_pos h]

theorem Silent.bind {d : Logged Event α} {f : α → Logged Event β} (hd : Silent d)
    (hf : ∀ a, Silent (f a)) : Silent (d >>= f) := by
  intro b hb
  obtain hb | ⟨a, -, hb⟩ := mem_log_bind.mp hb
  · exact hd b hb
  · exact hf a b hb

theorem Finds.pure (h : R a p) : Finds (Pure.pure (a, posOf p)) p R := by
  intro a' br heq
  obtain ⟨rfl, rfl⟩ := Prod.mk.inj (Option.some.inj heq)
  exact ⟨p, rfl, h, le_rfl, fun _ hb => absurd hb List.not_mem_nil⟩

theorem posOf_eq {br : BitPos} (hbyte : br.bytePos = p / 8 % 2 ^ 32) (hbit : br.bitPos = p % 8) :
    br = posOf p := by
  obtain ⟨bytePos, bitPos, _, _⟩ := br
  obtain rfl := hbyte
  obtain rfl := hbit
  rfl

theorem Finds.fail : Finds fail p R := fun _ _ heq => absurd heq (by simp)

theorem Finds.bind {f : α × BitPos → Logged Event (β × BitPos)} (hc : Finds c p R)
    (hf : ∀ a q, R a q → Finds (f (a, posOf q)) q S) : Finds (c >>= f) p S := by
  intro b br hb
  obtain ⟨⟨a, br'⟩, ha, hb⟩ := value_bind_eq_some.mp hb
  obtain ⟨q, rfl, hR, hpq, hlog⟩ := hc a br' ha
  obtain ⟨r, rfl, hS, hqr, hlog'⟩ := hf a q hR b br hb
  refine ⟨r, rfl, hS, hpq.trans hqr, fun b' hb' => ?_⟩
  obtain hb' | ⟨a', ha', hb'⟩ := mem_log_bind.mp hb'
  · obtain ⟨i, hi, rfl⟩ := hlog b' hb'
    exact ⟨i, hi.trans_le hqr, rfl⟩
  · obtain rfl := Option.some.inj (ha.symm.trans ha')
    exact hlog' b' hb'

theorem Finds.after {f : γ → Logged Event (β × BitPos)} (hd : Silent d)
    (hf : ∀ c, d.value = some c → Finds (f c) p S) : Finds (d >>= f) p S := by
  intro b br hb
  obtain ⟨c, hc, hb⟩ := value_bind_eq_some.mp hb
  obtain ⟨r, hr, hS, hpr, hlog⟩ := hf c hc b br hb
  refine ⟨r, hr, hS, hpr, fun b' hb' => ?_⟩
  obtain hb' | ⟨c', hc', hb'⟩ := mem_log_bind.mp hb'
  · exact absurd hb' (hd b')
  · obtain rfl := Option.some.inj (hc.symm.trans hc')
    exact hlog b' hb'

theorem Finds.weaken {R' : α → ℕ → Prop} (hc : Finds c p R) (h : ∀ a q, R a q → R' a q) :
    Finds c p R' := by
  intro a br ha
  obtain ⟨q, hq, hR, hlog⟩ := hc a br ha
  exact ⟨q, hq, h a q hR, hlog⟩

theorem Finds.skip (hpq : p ≤ q) (hc : Finds c q R) : Finds c p R := by
  intro a br ha
  obtain ⟨r, hr, hR, hqr, hlog⟩ := hc a br ha
  exact ⟨r, hr, hR, hpq.trans hqr, hlog⟩

theorem Yields.pure (e p : ℕ) (a : α) : Yields e (Pure.pure (a, posOf p)) p a p :=
  ⟨rfl, le_rfl, fun h h' => absurd h (Nat.not_le_of_lt h')⟩

theorem Yields.bind {f : α × BitPos → Logged Event (β × BitPos)} (hc : Yields e c p a q)
    (hf : Yields e (f (a, posOf q)) q b r) : Yields e (c >>= f) p b r := by
  refine ⟨value_bind_eq_some.mpr ⟨_, hc.value, hf.value⟩, hc.le.trans hf.le, fun hp hr => ?_⟩
  by_cases hq : e < q
  · exact mem_log_bind.mpr (Or.inl (hc.bit hp hq))
  · exact mem_log_bind.mpr (Or.inr ⟨_, hc.value, hf.bit (Nat.le_of_not_lt hq) hr⟩)

/-- What follows need not return a position. -/
theorem Finds.bind_value {f : α × BitPos → Logged Event β} (hc : Finds c p R)
    (h : (c >>= f).value = some b) :
    ∃ a q, R a q ∧ p ≤ q ∧ (f (a, posOf q)).value = some b ∧
      ∀ b', .bit b' ∈ (c >>= f).log →
        (∃ i < q, b' = posOf i) ∨ .bit b' ∈ (f (a, posOf q)).log := by
  obtain ⟨⟨a, br⟩, ha, hb⟩ := value_bind_eq_some.mp h
  obtain ⟨q, rfl, hR, hpq, hlog⟩ := hc a br ha
  refine ⟨a, q, hR, hpq, hb, fun b' hb' => ?_⟩
  obtain hb' | ⟨a', ha', hb'⟩ := mem_log_bind.mp hb'
  · exact Or.inl (hlog b' hb')
  · obtain rfl := Option.some.inj (ha.symm.trans ha')
    exact Or.inr hb'

theorem Yields.bind_value {f : α × BitPos → Logged Event β} (hc : Yields e c p a q)
    (hf : (f (a, posOf q)).value = some b ∧
      (q ≤ e → e < r → .bit (posOf e) ∈ (f (a, posOf q)).log)) :
    (c >>= f).value = some b ∧ (p ≤ e → e < r → .bit (posOf e) ∈ (c >>= f).log) := by
  refine ⟨value_bind_eq_some.mpr ⟨_, hc.value, hf.1⟩, fun hp hr => ?_⟩
  by_cases hq : e < q
  · exact mem_log_bind.mpr (Or.inl (hc.bit hp hq))
  · exact mem_log_bind.mpr (Or.inr ⟨_, hc.value, hf.2 (Nat.le_of_not_lt hq) hr⟩)

theorem Yields.after {f : γ → Logged Event (β × BitPos)} {c : γ} (hd : d.value = some c)
    (hf : Yields e (f c) p b r) : Yields e (d >>= f) p b r :=
  ⟨value_bind_eq_some.mpr ⟨_, hd, hf.value⟩, hf.le,
    fun hp hr => mem_log_bind.mpr (Or.inr ⟨_, hd, hf.bit hp hr⟩)⟩

end rules

variable {data : List UInt8} {outMax e p q : ℕ}

@[simp]
theorem value_add (m n : ℕ) :
    (add m n).value = some ⟨(m + n) % 2 ^ 32, Nat.mod_lt _ (Nat.two_pow_pos 32)⟩ := rfl

theorem silent_add (m n : ℕ) : Silent (add m n) :=
  .bind (.tell fun b => by simp) fun _ => .pure _

theorem silent_access (a : Table) (i : ℕ) : Silent (access a i) :=
  .bind (.tell fun b => by simp) fun _ => .require _

theorem silent_readByte {d : List UInt8} {e : Event} (h : ∀ b, e ≠ .bit b) (i : ℕ) :
    Silent (readByte d e i) :=
  .bind (.tell h) fun _ => .bind (.require _) fun _ => .pure _

theorem silent_peekBit (len : ℕ) (br : BitPos) : Silent (peekBit data len br) := by
  rw [peekBit]
  split
  · exact .bind (silent_readByte (fun b => by simp) _) fun _ => .pure _
  · exact .pure _

theorem silent_advance (br : BitPos) : Silent (advance br) := by
  rw [advance]
  split
  · exact .bind (silent_add _ _) fun _ => .pure _
  · exact .pure _

theorem value_peekBit (p : ℕ) :
    (peekBit data data.length (posOf p)).value = some (bitAt data p).toNat := by
  have hbit : (bitAt data p).toNat =
      ((data.getD (p / 8 % 2 ^ 32) 0).toNat >>> (p % 8)) &&& 1 := by
    rw [bitAt, byteAt, Nat.toNat_testBit, Nat.shiftRight_eq_div_pow, Nat.and_one_is_mod]
  rw [peekBit]
  split
  · next hlt =>
    refine value_bind_eq_some.mpr ⟨_, readByte_value_iff.mpr ⟨hlt, rfl⟩, ?_⟩
    exact congrArg some hbit.symm
  · next hge =>
    have hzero : data.getD (p / 8 % 2 ^ 32) 0 = 0 :=
      List.getD_eq_default _ _ (Nat.le_of_not_lt hge)
    rw [hbit, hzero]
    simp

theorem value_advance (p : ℕ) : (advance (posOf p)).value = some (posOf (p + 1)) := by
  rw [advance]
  split
  · next hlast =>
    rw [value_bind, value_add, Option.bind_some, value_pure]
    simp only [posOf, Option.some.injEq, BitPos.mk.injEq] at hlast ⊢
    omega
  · next hmore =>
    rw [value_pure]
    simp only [posOf, Option.some.injEq, BitPos.mk.injEq] at hmore ⊢
    omega

/-- The loop of `br_read_bits` never fails. -/
theorem brReadBitsLoop_eq (n i result p : ℕ) (hresult : result < 2 ^ i) :
    (brReadBitsLoop data data.length n i result (posOf p)).value =
        some (result + 2 ^ i * numberAt data p n, posOf (p + n)) ∧
      ∀ b, .bit b ∈ (brReadBitsLoop data data.length n i result (posOf p)).log ↔
        ∃ j < n, b = posOf (p + j) := by
  induction n generalizing i result p with
  | zero =>
    refine ⟨by simp [brReadBitsLoop, numberAt, bitsAt, lsbVal], fun b => ?_⟩
    refine iff_of_false List.not_mem_nil ?_
    rintro ⟨j, hj, -⟩
    exact absurd hj (Nat.not_lt_zero j)
  | succ n ih =>
    have hb := (bitAt data p).toNat_le
    have hlt : result + 2 ^ i * (bitAt data p).toNat < 2 ^ (i + 1) := by
      have hmul := Nat.mul_le_mul_left (2 ^ i) hb
      rw [pow_succ]
      omega
    obtain ⟨hvalue, hlog⟩ := ih (i + 1) _ (p + 1) hlt
    constructor
    · simp only [brReadBitsLoop, value_bind, value_tell, value_peekBit, value_advance,
        Option.bind_some, or_shiftLeft_of_lt hresult, hvalue]
      rw [numberAt, numberAt, bitsAt_succ', lsbVal, pow_succ, Nat.add_assoc p, Nat.add_comm 1 n]
      congr 2
      ring
    · intro b
      have hpeek := @silent_peekBit data data.length (posOf p) b
      have hadvance := silent_advance (posOf p) b
      simp only [brReadBitsLoop, mem_log_bind, value_tell, value_peekBit, value_advance,
        Option.some.injEq, exists_eq_left', log_tell, List.mem_singleton, Event.bit.injEq,
        or_shiftLeft_of_lt hresult, hlog, hpeek, hadvance, false_or, true_and, exists_const]
      constructor
      · rintro (rfl | ⟨j, hj, rfl⟩)
        · exact ⟨0, Nat.succ_pos n, rfl⟩
        · exact ⟨j + 1, Nat.succ_lt_succ hj, by rw [Nat.add_assoc, Nat.add_comm 1 j]⟩
      · rintro ⟨j, hj, rfl⟩
        cases j with
        | zero => exact Or.inl rfl
        | succ j =>
          exact Or.inr ⟨j, Nat.lt_of_succ_lt_succ hj, by rw [Nat.add_assoc, Nat.add_comm 1 j]⟩

theorem brReadBits_yields (e p n : ℕ) :
    Yields e (brReadBits data data.length (posOf p) n) p (numberAt data p n) (p + n) := by
  obtain ⟨hvalue, hlog⟩ := @brReadBitsLoop_eq data n 0 0 p Nat.one_pos
  rw [pow_zero, Nat.one_mul, Nat.zero_add] at hvalue
  refine ⟨hvalue, Nat.le_add_right p n, fun hp hq => (hlog _).mpr ⟨e - p, by omega, ?_⟩⟩
  rw [Nat.add_sub_cancel' hp]

theorem brReadBits_finds (p n : ℕ) :
    Finds (brReadBits data data.length (posOf p) n) p fun v q =>
      v = numberAt data p n ∧ q = p + n := by
  intro v br hv
  have hvalue := (@brReadBits_yields data 0 p n).value
  obtain ⟨rfl, rfl⟩ := Prod.mk.inj (Option.some.inj (hv.symm.trans hvalue))
  refine ⟨p + n, rfl, ⟨rfl, rfl⟩, Nat.le_add_right p n, fun b hb => ?_⟩
  obtain ⟨j, hj, rfl⟩ := ((@brReadBitsLoop_eq data n 0 0 p Nat.one_pos).2 b).mp hb
  exact ⟨p + j, Nat.add_lt_add_left hj p, rfl⟩

/-- The bits of a code so far, and the next one. -/
theorem code_succ {n : ℕ} (hn : n < maxHuffmanBits) (p : ℕ) :
    ((msbVal (bitsAt data p n) <<< 1) ||| numberAt data (p + n) 1) % 2 ^ 16 =
      msbVal (bitsAt data p (n + 1)) := by
  have hlt := msbVal_lt (bitsAt data p (n + 1))
  have hpow : 2 ^ (n + 1) ≤ 2 ^ 16 :=
    Nat.pow_le_pow_right (by decide) (by rw [maxHuffmanBits] at hn; omega)
  have hle := (bitAt data (p + n)).toNat_le
  have hvalue : (msbVal (bitsAt data p n) <<< 1) ||| (bitAt data (p + n)).toNat =
      msbVal (bitsAt data p (n + 1)) := by
    rw [bitsAt_succ, msbVal_append_singleton, Nat.shiftLeft_eq, pow_one, Nat.mul_comm]
    exact (Nat.two_pow_add_eq_or_of_lt (i := 1) (by omega) _).symm
  rw [numberAt_one, hvalue, Nat.mod_eq_of_lt]
  rw [length_bitsAt] at hlt
  exact hlt.trans_le hpow

theorem huffmanDecodeLoop_finds {t : HuffmanTable} {n l : ℕ} (hn : l + n = maxHuffmanBits)
    (hshort : ∀ k, 0 < k → k ≤ l → ∀ s, ¬ t.HasWord s (bitsAt data p k)) :
    Finds (huffmanDecodeLoop data data.length t n (l + 1) (msbVal (bitsAt data p l))
      (posOf (p + l)))
      (p + l) fun r q => ∀ sym, r = some sym → SymbolAt data t p sym q := by
  induction n generalizing l with
  | zero => exact .pure fun sym h => absurd h (by simp)
  | succ n ih =>
    have hcode := @code_succ data l (by omega) p
    refine Finds.bind (brReadBits_finds _ 1) fun v q hv => ?_
    obtain ⟨rfl, rfl⟩ := hv
    rw [hcode]
    refine Finds.after (.tellAll fun e he => mem_searchAccesses he) fun _ _ => ?_
    cases hsearch : huffmanSearch t (l + 1) (msbVal (bitsAt data p (l + 1))) with
    | some sym =>
      obtain ⟨hword, hlowest⟩ := huffmanSearch_eq_some_iff.mp hsearch
      refine Finds.pure fun s hs => ?_
      obtain rfl := Option.some.inj hs
      rw [Nat.add_assoc]
      exact .word (Nat.succ_pos l) (by omega) hword hlowest fun k hk hlt =>
        hshort k hk (Nat.le_of_lt_succ hlt)
    | none =>
      rw [Nat.add_assoc]
      refine ih (l := l + 1) (by omega) fun k hk hle => ?_
      obtain hlt | rfl := hle.lt_or_eq
      · exact hshort k hk (Nat.le_of_lt_succ hlt)
      · exact huffmanSearch_eq_none_iff.mp hsearch

theorem huffmanDecode_finds (t : HuffmanTable) (p : ℕ) :
    Finds (huffmanDecode data data.length t (posOf p)) p fun r q =>
      ∀ sym, r = some sym → SymbolAt data t p sym q :=
  huffmanDecodeLoop_finds (l := 0) (Nat.zero_add _) fun k hk hle => by omega

theorem huffmanDecodeLoop_yields {t : HuffmanTable} {sym len n l : ℕ}
    (hword : t.HasWord sym (bitsAt data p len))
    (hlowest : ∀ s < sym, ¬ t.HasWord s (bitsAt data p len))
    (hshortest : ∀ k, 0 < k → k < len → ∀ s, ¬ t.HasWord s (bitsAt data p k)) (hlt : l < len)
    (hle : len ≤ maxHuffmanBits) (hn : l + n = maxHuffmanBits) :
    Yields e (huffmanDecodeLoop data data.length t n (l + 1) (msbVal (bitsAt data p l))
      (posOf (p + l)))
      (p + l) (some sym) (p + len) := by
  induction n generalizing l with
  | zero => omega
  | succ n ih =>
    refine Yields.bind (brReadBits_yields e (p + l) 1) ?_
    refine Yields.after (value_tellAll _) ?_
    rw [code_succ (hlt.trans_le hle)]
    obtain hmore | rfl := (Nat.succ_le_of_lt hlt).lt_or_eq
    · rw [huffmanSearch_eq_none_iff.mpr (hshortest (l + 1) (Nat.succ_pos l) hmore), Nat.add_assoc]
      exact ih hmore (by omega)
    · rw [huffmanSearch_eq_some_iff.mpr ⟨hword, hlowest⟩, Nat.add_assoc]
      exact .pure e _ _

theorem huffmanDecode_yields {t : HuffmanTable} {sym : ℕ} (e : ℕ) (h : SymbolAt data t p sym q) :
    Yields e (huffmanDecode data data.length t (posOf p)) p (some sym) q := by
  obtain ⟨hpos, hle, hword, hlowest, hshortest⟩ := h
  exact huffmanDecodeLoop_yields hword hlowest hshortest hpos hle (Nat.zero_add _)

section lengths

/-- The loop of `clLengthsAt`. -/
theorem foldl_clLengths_succ (data : List UInt8) (p n i : ℕ) (clLengths : List ℕ) :
    (List.range (n + 1)).foldl
        (fun lengths j =>
          lengths.set (codeLengthOrder.getD (i + j) 0) (numberAt data (p + 3 * j) 3))
        clLengths =
      (List.range n).foldl
        (fun lengths j => lengths.set (codeLengthOrder.getD (i + 1 + j) 0)
          (numberAt data (p + 3 + 3 * j) 3))
        (clLengths.set (codeLengthOrder.getD i 0) (numberAt data p 3)) := by
  rw [List.range_succ_eq_map, List.foldl_cons, List.foldl_map, Nat.add_zero, Nat.mul_zero,
    Nat.add_zero]
  congr 1
  funext lengths j
  rw [Nat.succ_eq_add_one, Nat.mul_succ, Nat.add_comm j 1, Nat.add_comm (3 * j) 3, ← Nat.add_assoc,
    ← Nat.add_assoc]

theorem readClLengths_yields (e : ℕ) {n i : ℕ} (clLengths : List ℕ) (p : ℕ) (hi : i + n ≤ 19) :
    Yields e (readClLengths data data.length n i clLengths (posOf p)) p
      ((List.range n).foldl
        (fun lengths j =>
          lengths.set (codeLengthOrder.getD (i + j) 0) (numberAt data (p + 3 * j) 3))
        clLengths) (p + 3 * n) := by
  induction n generalizing i clLengths p with
  | zero => exact .pure e p clLengths
  | succ n ih =>
    rw [foldl_clLengths_succ, Nat.mul_succ, Nat.add_comm (3 * n) 3, ← Nat.add_assoc]
    refine Yields.bind (brReadBits_yields e p 3) ?_
    refine Yields.after (value_access (by rw [Table.size]; omega)) ?_
    refine Yields.after (value_access (codeLengthOrder_lt (by omega))) ?_
    exact ih _ (p + 3) (by omega)

theorem readClLengths_finds {n i : ℕ} (clLengths : List ℕ) (p : ℕ) :
    Finds (readClLengths data data.length n i clLengths (posOf p)) p fun lengths q =>
      lengths = (List.range n).foldl
        (fun lengths j =>
          lengths.set (codeLengthOrder.getD (i + j) 0) (numberAt data (p + 3 * j) 3))
        clLengths ∧ q = p + 3 * n := by
  induction n generalizing i clLengths p with
  | zero => exact .pure ⟨rfl, rfl⟩
  | succ n ih =>
    rw [foldl_clLengths_succ, Nat.mul_succ, Nat.add_comm (3 * n) 3, ← Nat.add_assoc]
    refine Finds.bind (brReadBits_finds p 3) fun v q hv => ?_
    obtain ⟨rfl, rfl⟩ := hv
    refine Finds.after (silent_access _ _) fun _ _ => ?_
    exact Finds.after (silent_access _ _) fun _ _ => ih _ (p + 3)

theorem silent_storeLoop (total value n : ℕ) (all : List ℕ) :
    Silent (storeLoop total value n all) := by
  induction n generalizing all with
  | zero => exact .pure _
  | succ n ih =>
    rw [storeLoop]
    split
    · exact .bind (silent_access _ _) fun _ => ih _
    · exact .pure _

theorem silent_readPrevious (sym : ℕ) (all : List ℕ) : Silent (readPrevious sym all) := by
  rw [readPrevious]
  split
  · exact silent_access _ _
  · exact .pure _

/-- The array holds what is stored, or the loop runs over its end. -/
theorem storeLoop_value_iff {total value n : ℕ} {all r : List ℕ}
    (hall : all.length ≤ allLengthsSize) :
    (storeLoop total value n all).value = some r ↔
      r = storeLengths total value n all ∧ r.length ≤ allLengthsSize := by
  induction n generalizing all with
  | zero =>
    rw [storeLoop, value_pure, storeLengths, Nat.zero_min, List.replicate_zero, List.append_nil,
      Option.some.injEq]
    constructor
    · rintro rfl
      exact ⟨rfl, hall⟩
    · rintro ⟨rfl, -⟩
      rfl
  | succ n ih =>
    rw [storeLoop]
    split
    · next hlt =>
      have hstep : storeLengths total value (n + 1) all =
          storeLengths total value n (all ++ [value]) := by
        have hmin : min (n + 1) (total - all.length) = min n (total - (all.length + 1)) + 1 := by
          omega
        rw [storeLengths, storeLengths, List.length_append, List.length_singleton, hmin,
          List.append_assoc, List.singleton_append, List.replicate_succ]
      rw [hstep, value_bind_eq_some]
      obtain hroom | hfull := hall.lt_or_eq
      · rw [← ih (by rw [List.length_append, List.length_singleton]; omega), value_access hroom]
        simp
      · have hnone : (access .allLengths all.length).value = none := by
          rw [access, value_bind, value_tell, Option.bind_some, value_require,
            if_neg (by rw [hfull, Table.size]; omega)]
        rw [hnone]
        refine iff_of_false (by simp) ?_
        rintro ⟨rfl, hle⟩
        rw [storeLengths, List.length_append, List.length_append, List.length_singleton] at hle
        omega
    · next hge =>
      rw [value_pure, storeLengths, Nat.sub_eq_zero_of_le (Nat.le_of_not_lt hge), Nat.min_zero,
        List.replicate_zero, List.append_nil, Option.some.injEq]
      constructor
      · rintro rfl
        exact ⟨rfl, hall⟩
      · rintro ⟨rfl, -⟩
        rfl

theorem storeSymbol_finds {total sym : ℕ} {all : List ℕ}
    (hall : all.length ≤ allLengthsSize) (p : ℕ) :
    Finds (storeSymbol data data.length total sym all (posOf p)) p fun lengths q =>
      ¬ (sym = 16 ∧ all = []) ∧ lengths = lengthsAfter data total sym all p ∧
        lengths.length ≤ allLengthsSize ∧ q = p + (repeatOf sym all).2.2 := by
  refine Finds.after (.require _) fun _ hrepeats => ?_
  refine Finds.bind (brReadBits_finds p _) fun v q hv => ?_
  obtain ⟨rfl, rfl⟩ := hv
  refine Finds.after (silent_readPrevious _ _) fun _ _ => ?_
  refine Finds.after (silent_storeLoop _ _ _ _) fun lengths hstored => ?_
  obtain ⟨hlengths, hle⟩ := (storeLoop_value_iff hall).mp hstored
  exact .pure ⟨of_value_require hrepeats, hlengths, hle, rfl⟩

theorem storeSymbol_yields {total sym : ℕ} {all : List ℕ} (hall : all.length ≤ allLengthsSize)
    (e p : ℕ) (hprevious : ¬ (sym = 16 ∧ all = []))
    (hfits : (lengthsAfter data total sym all p).length ≤ allLengthsSize) :
    Yields e (storeSymbol data data.length total sym all (posOf p)) p
      (lengthsAfter data total sym all p) (p + (repeatOf sym all).2.2) := by
  refine Yields.after (require_value hprevious) ?_
  refine Yields.bind (brReadBits_yields e p _) ?_
  refine Yields.after (value_readPrevious hprevious hall) ?_
  refine Yields.after ((storeLoop_value_iff hall).mpr ⟨rfl, hfits⟩) ?_
  exact .pure e _ _

theorem lengthsAfter_length_lt {total sym : ℕ} {all : List ℕ} (hroom : all.length < total) (q : ℕ) :
    all.length < (lengthsAfter data total sym all q).length := by
  have hpos := repeatOf_pos sym all
  have hgrows := @length_lt_storeLengths total (repeatOf sym all).1
    ((repeatOf sym all).2.1 + numberAt data q (repeatOf sym all).2.2) all hroom (by omega)
  rw [lengthsAfter]
  omega

theorem readLengths_finds {t : HuffmanTable} {total fuel : ℕ} {all : List ℕ}
    (hall : all.length ≤ allLengthsSize) (p : ℕ) :
    Finds (readLengths data data.length t total fuel all (posOf p)) p
      (LengthsAt data t total all p) := by
  induction fuel generalizing all p with
  | zero =>
    rw [readLengths]
    split
    · next hfull => exact .pure (.done hfull)
    · exact .after (.tell fun b => by simp) fun _ _ => .fail
  | succ fuel ih =>
    rw [readLengths]
    split
    · next hfull => exact .pure (.done hfull)
    · next hroom =>
      refine Finds.bind (huffmanDecode_finds t p) fun s q hs => ?_
      cases s with
      | none => exact .fail
      | some sym =>
        refine Finds.bind (storeSymbol_finds hall q) fun lengths r hr => ?_
        obtain ⟨hprevious, rfl, hle, rfl⟩ := hr
        exact (ih hle _).weaken fun _ _ hrest =>
          .symbol (Nat.lt_of_not_le hroom) (hs sym rfl) hprevious hle hrest

theorem readLengths_yields {t : HuffmanTable} {total fuel stop : ℕ} {all lengths : List ℕ} (e : ℕ)
    (h : LengthsAt data t total all p lengths stop) (hall : all.length ≤ allLengthsSize)
    (hfuel : total - all.length ≤ fuel) :
    Yields e (readLengths data data.length t total fuel all (posOf p)) p lengths stop := by
  induction h generalizing fuel with
  | done hfull =>
    cases fuel with
    | zero =>
      rw [readLengths, if_pos hfull]
      exact .pure e _ _
    | succ fuel =>
      rw [readLengths, if_pos hfull]
      exact .pure e _ _
  | @symbol all lengths p sym q stop hroom hsym hprevious hfits _ ih =>
    have hgrows := @lengthsAfter_length_lt data total sym all hroom q
    obtain ⟨fuel, rfl⟩ : ∃ k, fuel = k + 1 := Nat.exists_eq_add_one.mpr (by omega)
    rw [readLengths, if_neg (Nat.not_le_of_lt hroom)]
    refine Yields.bind (huffmanDecode_yields e hsym) ?_
    refine Yields.bind (storeSymbol_yields hall e q hprevious hfits) ?_
    exact ih hfits (by omega)

theorem silent_build (source : Table) (base : ℕ) (lengths : List ℕ) :
    Silent (build source base lengths) :=
  .bind (.tellAll fun _ he => mem_buildAccesses he) fun _ => .pure _

theorem readCounts_yields (e p : ℕ) :
    Yields e (readCounts data data.length (posOf p)) p
      (numberAt data p 5 + 257, numberAt data (p + 5) 5 + 1, numberAt data (p + 10) 4 + 4)
      (p + 14) := by
  refine Yields.bind (brReadBits_yields e p 5) ?_
  refine Yields.bind (brReadBits_yields e (p + 5) 5) ?_
  refine Yields.bind (brReadBits_yields e (p + 10) 4) ?_
  exact .pure e _ _

theorem readCounts_finds (p : ℕ) :
    Finds (readCounts data data.length (posOf p)) p fun counts q =>
      counts = (numberAt data p 5 + 257, numberAt data (p + 5) 5 + 1,
        numberAt data (p + 10) 4 + 4) ∧
        q = p + 14 := by
  refine Finds.bind (brReadBits_finds p 5) fun hlit q hlit' => ?_
  obtain ⟨rfl, rfl⟩ := hlit'
  refine Finds.bind (brReadBits_finds (p + 5) 5) fun hdist q hdist' => ?_
  obtain ⟨rfl, rfl⟩ := hdist'
  refine Finds.bind (brReadBits_finds (p + 10) 4) fun hclen q hclen' => ?_
  obtain ⟨rfl, rfl⟩ := hclen'
  exact .pure ⟨rfl, rfl⟩

theorem readDynamicHuffmanTables_finds (p : ℕ) :
    Finds (readDynamicHuffmanTables data data.length (posOf p)) p (TablesAt data p) := by
  refine Finds.bind (readCounts_finds p) fun counts q hcounts => ?_
  obtain ⟨rfl, rfl⟩ := hcounts
  refine Finds.bind (readClLengths_finds _ _) fun cl q hcl => ?_
  obtain ⟨rfl, rfl⟩ := hcl
  refine Finds.after (silent_build _ _ _) fun clTable hclTable => ?_
  obtain rfl : _ = clTable := Option.some.inj hclTable
  refine Finds.after (.tell fun b => by simp) fun _ _ => ?_
  refine Finds.bind (readLengths_finds (Nat.zero_le _) _) fun all stop hall => ?_
  refine Finds.after (silent_build _ _ _) fun lit hlit => ?_
  obtain rfl : _ = lit := Option.some.inj hlit
  refine Finds.after (silent_build _ _ _) fun dist hdist => ?_
  obtain rfl : _ = dist := Option.some.inj hdist
  refine Finds.pure (.header ?_)
  simpa only [clLengthsAt, Nat.zero_add] using hall

theorem readDynamicHuffmanTables_yields {tables : HuffmanTable × HuffmanTable} {stop : ℕ} (e : ℕ)
    (h : TablesAt data p tables stop) :
    Yields e (readDynamicHuffmanTables data data.length (posOf p)) p tables stop := by
  obtain ⟨hlengths⟩ := h
  have hclen := numberAt_lt data (p + 10) 4
  refine Yields.bind (readCounts_yields e p) ?_
  refine Yields.bind (readClLengths_yields e _ _ (by omega)) ?_
  refine Yields.after rfl (Yields.after rfl ?_)
  simp only [clLengthsAt] at hlengths
  simp only [Nat.zero_add]
  refine Yields.bind (readLengths_yields e hlengths (Nat.zero_le _) (Nat.sub_le _ _)) ?_
  exact .after rfl (.after rfl (.pure e _ _))

end lengths

section blocks

theorem silent_emit (value : UInt8) (out : List UInt8) : Silent (emit outMax value out) :=
  .bind (.tell fun b => by simp) fun _ => .bind (.require _) fun _ => .pure _

theorem emit_value_iff {value : UInt8} {out r : List UInt8} :
    (emit outMax value out).value = some r ↔ r = out ++ [value] ∧ out.length < outMax := by
  rw [emit, value_bind_eq_some]
  constructor
  · rintro ⟨_, -, h⟩
    obtain ⟨_, hroom, h⟩ := value_bind_eq_some.mp h
    exact ⟨(Option.some.inj h).symm, of_value_require hroom⟩
  · rintro ⟨rfl, hroom⟩
    exact ⟨(), rfl, value_bind_eq_some.mpr ⟨(), require_value hroom, rfl⟩⟩

theorem silent_copyLoop (n src : ℕ) (out : List UInt8) : Silent (copyLoop outMax n src out) := by
  induction n generalizing src out with
  | zero => exact .pure _
  | succ n ih =>
    exact .bind (.tell fun b => by simp) fun _ => .bind (silent_emit _ _) fun _ => ih _ _

theorem copyLoop_value_iff {n src : ℕ} {out r : List UInt8} (hout : out.length ≤ outMax) :
    (copyLoop outMax n src out).value = some r ↔
      r = Inflate.copyLoop n src out ∧ out.length + n ≤ outMax := by
  induction n generalizing src out with
  | zero =>
    rw [copyLoop, value_pure, Inflate.copyLoop, Option.some.injEq]
    constructor
    · rintro rfl
      exact ⟨rfl, hout⟩
    · rintro ⟨rfl, -⟩
      rfl
  | succ n ih =>
    have hlen : (out ++ [out.getD src 0]).length = out.length + 1 := by
      rw [List.length_append, List.length_singleton]
    rw [copyLoop, value_bind_eq_some, Inflate.copyLoop]
    constructor
    · rintro ⟨_, -, h⟩
      obtain ⟨out', hemit, h⟩ := value_bind_eq_some.mp h
      obtain ⟨rfl, hroom⟩ := emit_value_iff.mp hemit
      obtain ⟨hr, hle⟩ := (ih (hlen.trans_le hroom)).mp h
      exact ⟨hr, by omega⟩
    · rintro ⟨hr, hle⟩
      have hemit : (emit outMax (out.getD src 0) out).value = some (out ++ [out.getD src 0]) :=
        emit_value_iff.mpr ⟨rfl, by omega⟩
      refine ⟨(), rfl, value_bind_eq_some.mpr ⟨_, hemit, ?_⟩⟩
      exact (ih (by omega)).mpr ⟨hr, by omega⟩

theorem backReference_finds {dist : HuffmanTable} {sym : ℕ} {out : List UInt8}
    (hout : out.length ≤ outMax) (p : ℕ) :
    Finds (backReference data data.length outMax dist sym out (posOf p)) p fun out' r =>
      ∃ length distance, CopyAt data dist sym p length distance r ∧
        (0 < distance ∧ distance ≤ out.length) ∧ out.length + length ≤ outMax ∧
        out' = expandToken out (.copy length distance) := by
  unfold backReference
  refine Finds.after (.require _) fun _ hsym => ?_
  refine Finds.bind (brReadBits_finds p _) fun v q hv => ?_
  obtain ⟨rfl, rfl⟩ := hv
  refine Finds.bind (huffmanDecode_finds dist _) fun d q hd => ?_
  cases d with
  | none => exact .fail
  | some distSym =>
    refine Finds.after (.require _) fun _ hdist => ?_
    refine Finds.bind (brReadBits_finds q _) fun v r hv => ?_
    obtain ⟨rfl, rfl⟩ := hv
    refine Finds.after (.require _) fun _ hback => ?_
    refine Finds.after (silent_add _ _) fun outEnd _ => ?_
    refine Finds.after (.require _) fun _ _ => ?_
    refine Finds.after (silent_copyLoop _ _ _) fun out' hout' => ?_
    have hback := of_value_require hback
    obtain ⟨rfl, hroom⟩ := (copyLoop_value_iff hout).mp hout'
    refine Finds.pure ⟨_, _, .distance (of_value_require hsym) (hd _ rfl) (of_value_require hdist),
      ?_, hroom, ?_⟩
    · rw [valueAt]
      omega
    · rw [valueAt, valueAt]
      exact copyLoop_eq (by omega) (by omega)

theorem backReference_yields {dist : HuffmanTable} {sym length distance r : ℕ} {out : List UInt8}
    (e : ℕ) (hout : out.length ≤ outMax) (h : CopyAt data dist sym p length distance r)
    (hback : 0 < distance ∧ distance ≤ out.length) (hroom : out.length + length ≤ outMax) :
    Yields e (backReference data data.length outMax dist sym out (posOf p)) p
      (expandToken out (.copy length distance)) r := by
  obtain ⟨hsym, hdecode, hdist⟩ := h
  rw [← copyLoop_eq hback.1 hback.2]
  rw [valueAt] at hback hroom
  unfold backReference
  refine Yields.after (require_value hsym) ?_
  refine Yields.bind (brReadBits_yields e p _) ?_
  refine Yields.bind (huffmanDecode_yields e hdecode) ?_
  refine Yields.after (require_value hdist) ?_
  refine Yields.bind (brReadBits_yields e _ _) ?_
  refine Yields.after (require_value (by dsimp only; omega)) ?_
  refine Yields.after (value_add _ _) ?_
  refine Yields.after (require_value ((Nat.mod_le _ _).trans hroom)) ?_
  exact .after ((copyLoop_value_iff hout).mpr ⟨rfl, hroom⟩) (.pure e _ _)

theorem inflateBlockHuffman_finds {lit dist : HuffmanTable} {fuel : ℕ} {out : List UInt8}
    (hout : out.length ≤ outMax) (p : ℕ) :
    Finds (inflateBlockHuffman data data.length outMax lit dist fuel out (posOf p)) p
      (TokensAt data lit dist outMax out p) := by
  induction fuel generalizing out p with
  | zero => exact Finds.after (d := tell .exhausted) (.tell fun b => by simp) fun _ _ => .fail
  | succ fuel ih =>
    refine Finds.bind (huffmanDecode_finds lit p) fun s q hs => ?_
    cases s with
    | none => exact .fail
    | some sym =>
      have hsym := hs sym rfl
      dsimp only
      split
      · next hliteral =>
        refine Finds.after (.require _) fun _ hroom => ?_
        refine Finds.after (silent_emit _ _) fun out' hemit => ?_
        obtain ⟨rfl, hroom⟩ := emit_value_iff.mp hemit
        refine (ih ?_ q).weaken fun _ _ hrest => .literal hsym hliteral hroom hrest
        rw [List.length_append, List.length_singleton]
        exact hroom
      · split
        · next hstop =>
          rw [hstop] at hsym
          exact .pure (.stop hsym)
        · next hliteral hstop =>
          refine Finds.bind (backReference_finds hout q) fun out' r hr => ?_
          obtain ⟨length, distance, hcopy, hback, hroom, rfl⟩ := hr
          refine (ih ?_ r).weaken fun _ _ hrest =>
            .copy hsym (by omega) hcopy hback hroom hrest
          rwa [expandToken, List.length_append, List.length_map, List.length_range]

theorem inflateBlockHuffman_yields {lit dist : HuffmanTable} {fuel stop : ℕ} {out out' : List UInt8}
    (e : ℕ) (h : TokensAt data lit dist outMax out p out' stop) (hout : out.length ≤ outMax)
    (hfuel : outMax - out.length < fuel) :
    Yields e (inflateBlockHuffman data data.length outMax lit dist fuel out (posOf p)) p
      out' stop := by
  induction h generalizing fuel with
  | stop hsym =>
    obtain ⟨fuel, rfl⟩ : ∃ k, fuel = k + 1 := Nat.exists_eq_add_one.mpr (by omega)
    exact .bind (huffmanDecode_yields e hsym) (.pure e _ _)
  | @literal out _ _ sym _ _ hsym hliteral hroom _ ih =>
    have hlen : (out ++ [UInt8.ofNat sym]).length = out.length + 1 := by
      rw [List.length_append, List.length_singleton]
    obtain ⟨fuel, rfl⟩ : ∃ k, fuel = k + 1 := Nat.exists_eq_add_one.mpr (by omega)
    refine Yields.bind (huffmanDecode_yields e hsym) ?_
    dsimp only
    rw [if_pos hliteral]
    refine Yields.after (require_value hroom) (Yields.after (emit_value_iff.mpr ⟨rfl, hroom⟩) ?_)
    exact ih (by omega) (by omega)
  | @copy out _ _ sym _ length distance _ _ hsym hcopy hoperands hback hroom _ ih =>
    have hlen : (expandToken out (.copy length distance)).length = out.length + length := by
      rw [expandToken, List.length_append, List.length_map, List.length_range]
    have hpos : 0 < length := by
      obtain ⟨hcode, -, -⟩ := hoperands
      have := lengthBase_pos (Nat.not_le_of_lt hcode)
      rw [valueAt]
      omega
    obtain ⟨fuel, rfl⟩ : ∃ k, fuel = k + 1 := Nat.exists_eq_add_one.mpr (by omega)
    refine Yields.bind (huffmanDecode_yields e hsym) ?_
    dsimp only
    rw [if_neg (by omega), if_neg (by omega)]
    refine Yields.bind (backReference_yields e hout hoperands hback hroom) ?_
    exact ih (by omega) (by omega)

theorem value_brAlignToByte (p : ℕ) :
    (brAlignToByte (posOf p)).value = some (posOf (8 * ((p + 7) / 8))) := by
  rw [brAlignToByte]
  split
  · next hmiddle =>
    rw [value_bind, value_add, Option.bind_some, value_pure]
    simp only [posOf, Option.some.injEq, BitPos.mk.injEq, ne_eq] at hmiddle ⊢
    omega
  · next hwhole =>
    rw [value_pure]
    simp only [posOf, Option.some.injEq, BitPos.mk.injEq, ne_eq, not_not] at hwhole ⊢
    omega

theorem silent_brAlignToByte (br : BitPos) : Silent (brAlignToByte br) := by
  rw [brAlignToByte]
  split
  · exact .bind (silent_add _ _) fun _ => .pure _
  · exact .pure _

theorem readPair_value_iff {i v : ℕ} :
    (readPair data i).value = some v ↔
      (i % 2 ^ 32 < data.length ∧ (i + 1) % 2 ^ 32 < data.length) ∧ v = pairAt data i := by
  rw [readPair, value_bind_eq_some]
  constructor
  · rintro ⟨low, hlow, h⟩
    obtain ⟨high, hhigh, h⟩ := value_bind_eq_some.mp h
    obtain ⟨hfirst, rfl⟩ := readByte_value_iff.mp hlow
    obtain ⟨hsecond, rfl⟩ := readByte_value_iff.mp hhigh
    exact ⟨⟨hfirst, hsecond⟩, (Option.some.inj h).symm⟩
  · rintro ⟨⟨hfirst, hsecond⟩, rfl⟩
    refine ⟨_, readByte_value_iff.mpr ⟨hfirst, rfl⟩, value_bind_eq_some.mpr ?_⟩
    exact ⟨_, readByte_value_iff.mpr ⟨hsecond, rfl⟩, rfl⟩

theorem silent_readPair (i : ℕ) : Silent (readPair data i) :=
  .bind (silent_readByte (fun b => by simp) _) fun _ =>
    .bind (silent_readByte (fun b => by simp) _) fun _ => .pure _

theorem pairAt_mod (data : List UInt8) (i k : ℕ) :
    pairAt data (i % 2 ^ 32 + k) = pairAt data (i + k) := by
  rw [pairAt, pairAt, byteAt, byteAt, byteAt, byteAt, Nat.add_assoc, Nat.add_assoc, Nat.mod_add_mod,
    Nat.mod_add_mod]

theorem silent_storedLoop (n src : ℕ) (out : List UInt8) :
    Silent (storedLoop data outMax n src out) := by
  induction n generalizing src out with
  | zero => exact .pure _
  | succ n ih =>
    exact .bind (silent_readByte (fun b => by simp) _) fun _ =>
      .bind (silent_emit _ _) fun _ => ih _ _

theorem storedLoop_value_iff {n src : ℕ} {out r : List UInt8} (hsrc : src ≤ data.length)
    (hout : out.length ≤ outMax) :
    (storedLoop data outMax n src out).value = some r ↔
      src + n ≤ data.length ∧ out.length + n ≤ outMax ∧ r = out ++ (data.drop src).take n := by
  induction n generalizing src out with
  | zero =>
    rw [storedLoop, value_pure, List.take_zero, List.append_nil, Option.some.injEq]
    constructor
    · rintro rfl
      exact ⟨hsrc, hout, rfl⟩
    · rintro ⟨-, -, rfl⟩
      rfl
  | succ n ih =>
    have hlen : ∀ byte : UInt8, (out ++ [byte]).length = out.length + 1 := by
      intro byte
      rw [List.length_append, List.length_singleton]
    have hbyte : ∀ h : src < data.length, (data.drop src).take (n + 1) =
        UInt8.ofNat (data.getD src 0).toNat :: (data.drop (src + 1)).take n := by
      intro h
      rw [List.drop_eq_getElem_cons h, List.take_succ_cons, UInt8.ofNat_toNat,
        List.getD_eq_getElem _ _ h]
    rw [storedLoop, value_bind_eq_some]
    constructor
    · rintro ⟨byte, hread, h⟩
      obtain ⟨hlt, rfl⟩ := readByte_value_iff.mp hread
      obtain ⟨out', hemit, h⟩ := value_bind_eq_some.mp h
      obtain ⟨rfl, hroom⟩ := emit_value_iff.mp hemit
      obtain ⟨hinside, hle, rfl⟩ := (ih hlt ((hlen _).trans_le hroom)).mp h
      rw [hlen] at hle
      refine ⟨by omega, by omega, ?_⟩
      rw [hbyte hlt, List.append_assoc, List.singleton_append]
    · rintro ⟨hinside, hle, rfl⟩
      have hlt : src < data.length := by omega
      refine ⟨_, readByte_value_iff.mpr ⟨hlt, rfl⟩, value_bind_eq_some.mpr ?_⟩
      refine ⟨_, emit_value_iff.mpr ⟨rfl, by omega⟩, (ih hlt (by rw [hlen]; omega)).mpr ?_⟩
      rw [hlen, hbyte hlt, List.append_assoc, List.singleton_append]
      exact ⟨by omega, by omega, rfl⟩

theorem bytePos_posOf (i : ℕ) : (posOf (8 * i)).bytePos = i % 2 ^ 32 := by
  simp only [posOf]
  omega

/-- The four bytes in front of a stored block are inside the data, and so no position behind them
    wraps around. -/
theorem inflateStored_finds (hlen : data.length < 2 ^ 32) {out : List UInt8}
    (hout : out.length ≤ outMax) (p : ℕ) :
    Finds (inflateStored data data.length outMax out (posOf p)) p (StoredAt data outMax out p) := by
  refine Finds.after (silent_brAlignToByte _) fun br hbr => ?_
  obtain rfl := Option.some.inj ((value_brAlignToByte p).symm.trans hbr)
  generalize hi : (p + 7) / 8 = i
  refine Finds.after (silent_add _ _) fun start hstart => ?_
  refine Finds.after (.require _) fun _ hheader => ?_
  refine Finds.after (silent_readPair _) fun blockLen hblockLen => ?_
  refine Finds.after (silent_readPair _) fun nlen hnlen => ?_
  refine Finds.after (.require _) fun _ hcomplement => ?_
  refine Finds.after (silent_add _ _) fun stop hstop => ?_
  refine Finds.after (.require _) fun _ _ => ?_
  refine Finds.after (silent_add _ _) fun outEnd _ => ?_
  refine Finds.after (.require _) fun _ _ => ?_
  refine Finds.after (silent_storedLoop _ _ _) fun out' hout' => ?_
  have hbyte := bytePos_posOf i
  rw [hbyte] at hstart hblockLen hnlen
  have hstart := congrArg Subtype.val (Option.some.inj hstart)
  have hstop := congrArg Subtype.val (Option.some.inj hstop)
  have hheader := of_value_require hheader
  obtain ⟨⟨h₀, h₁⟩, hlength⟩ := readPair_value_iff.mp hblockLen
  obtain ⟨⟨h₂, h₃⟩, hnlen⟩ := readPair_value_iff.mp hnlen
  have hcomplement := of_value_require hcomplement
  obtain ⟨hbytes, hroom, rfl⟩ := (storedLoop_value_iff hheader hout).mp hout'
  have hpair := pairAt_mod data i 0
  rw [Nat.add_zero, Nat.add_zero] at hpair
  rw [hnlen, pairAt_mod] at hcomplement
  rw [hpair] at hlength
  dsimp only at hstart hstop
  have hheader : start.1 = i % 2 ^ 32 + 4 := by omega
  rw [hheader] at hbytes ⊢
  refine Finds.skip (q := 8 * (i + 4 + blockLen)) (by omega) ?_
  have hend : (⟨stop.1, (posOf (8 * i)).bitPos, stop.2, (posOf (8 * i)).bitPos_lt⟩ : BitPos) =
      posOf (8 * (i + 4 + blockLen)) := by
    refine posOf_eq ?_ ?_
    · dsimp only
      omega
    · simp only [posOf]
      omega
  rw [hend]
  exact .pure (.bytes hi.symm hlength.symm hcomplement hbytes hroom)

theorem inflateStored_yields (hlen : data.length < 2 ^ 32) {out out' : List UInt8} {stop : ℕ}
    (hout : out.length ≤ outMax) (h : StoredAt data outMax out p out' stop) :
    Yields (8 * data.length) (inflateStored data data.length outMax out (posOf p)) p out' stop := by
  obtain @⟨i, length, hi, hlength, hcomplement, hinside, hroom⟩ := h
  have hbyte := bytePos_posOf i
  have hpair := pairAt_mod data i 0
  rw [Nat.add_zero, Nat.add_zero] at hpair
  have hfirst : (readPair data (i % 2 ^ 32)).value = some length :=
    readPair_value_iff.mpr ⟨⟨by omega, by omega⟩, by rw [hpair, hlength]⟩
  have hsecond : (readPair data (i % 2 ^ 32 + 2)).value = some (pairAt data (i + 2)) :=
    readPair_value_iff.mpr ⟨⟨by omega, by omega⟩, by rw [pairAt_mod]⟩
  have hstart : (i % 2 ^ 32 + 4) % 2 ^ 32 = i % 2 ^ 32 + 4 := by omega
  have hstop : (i % 2 ^ 32 + 4 + length) % 2 ^ 32 = i % 2 ^ 32 + 4 + length := by omega
  refine ⟨?_, by omega, fun hp hq => by omega⟩
  have hend : posOf (8 * (i + 4 + length)) =
      ⟨i % 2 ^ 32 + 4 + length, (posOf (8 * i)).bitPos, by omega, (posOf (8 * i)).bitPos_lt⟩ := by
    refine (posOf_eq ?_ ?_).symm
    · dsimp only
      omega
    · simp only [posOf]
      omega
  rw [hend]
  refine value_bind_eq_some.mpr ⟨_, value_brAlignToByte p, ?_⟩
  rw [← hi]
  refine value_bind_eq_some.mpr ⟨_, value_add _ _, ?_⟩
  simp only [hbyte, hstart]
  refine value_bind_eq_some.mpr ⟨(), require_value (by omega), ?_⟩
  refine value_bind_eq_some.mpr ⟨_, hfirst, value_bind_eq_some.mpr ⟨_, hsecond, ?_⟩⟩
  refine value_bind_eq_some.mpr ⟨(), require_value hcomplement, ?_⟩
  refine value_bind_eq_some.mpr ⟨_, value_add _ _, ?_⟩
  simp only [hstop]
  refine value_bind_eq_some.mpr ⟨(), require_value hinside, ?_⟩
  refine value_bind_eq_some.mpr ⟨_, value_add _ _, ?_⟩
  refine value_bind_eq_some.mpr ⟨(), require_value ((Nat.mod_le _ _).trans hroom), ?_⟩
  have hbytes := (storedLoop_value_iff (show i % 2 ^ 32 + 4 ≤ data.length by omega) hout).mpr
    ⟨hinside, hroom, rfl⟩
  exact value_bind_eq_some.mpr ⟨_, hbytes, rfl⟩

theorem silent_buildFixedHuffmanTables : Silent buildFixedHuffmanTables := by
  have htell : ∀ n a, Silent (tellAll ((List.range n).map (Event.array a))) := by
    refine fun n a => .tellAll fun e he => ?_
    obtain ⟨i, -, rfl⟩ := List.mem_map.mp he
    exact ⟨a, i, rfl⟩
  refine Silent.bind (htell _ _) fun _ => .bind (silent_build _ _ _) fun _ => ?_
  exact .bind (htell _ _) fun _ => .bind (silent_build _ _ _) fun _ => .pure _

theorem inflateBlock_finds (hlen : data.length < 2 ^ 32) (fuel : ℕ) {out : List UInt8}
    (hout : out.length ≤ outMax) (p : ℕ) :
    Finds (inflateBlock data data.length outMax fuel (numberAt data (p + 1) 2) out (posOf (p + 3)))
      (p + 3) (BlockAt data outMax out p) := by
  rw [inflateBlock]
  split
  · next hstored => exact (inflateStored_finds hlen hout _).weaken fun _ _ h => .stored hstored h
  · split
    · next hfixed =>
      refine Finds.after silent_buildFixedHuffmanTables fun tables htables => ?_
      obtain rfl : _ = tables := Option.some.inj htables
      exact (inflateBlockHuffman_finds hout _).weaken fun _ _ h => .fixed hfixed h
    · split
      · next hdynamic =>
        refine Finds.bind (readDynamicHuffmanTables_finds _) fun tables q htables => ?_
        exact (inflateBlockHuffman_finds hout _).weaken fun _ _ h => .dynamic hdynamic htables h
      · exact .fail

theorem inflateBlock_yields (hlen : data.length < 2 ^ 32) {fuel stop : ℕ} {out out' : List UInt8}
    (hout : out.length ≤ outMax) (hfuel : outMax < fuel) (h : BlockAt data outMax out p out' stop) :
    Yields (8 * data.length)
      (inflateBlock data data.length outMax fuel (numberAt data (p + 1) 2) out (posOf (p + 3)))
      (p + 3)
      out' stop := by
  rw [inflateBlock]
  cases h with
  | stored htype hbody =>
    rw [if_pos htype]
    exact inflateStored_yields hlen hout hbody
  | fixed htype hbody =>
    rw [if_neg (by omega), if_pos htype]
    exact .after rfl (inflateBlockHuffman_yields _ hbody hout (by omega))
  | dynamic htype hheader hbody =>
    rw [if_neg (by omega), if_neg (by omega), if_pos htype]
    refine Yields.bind (readDynamicHuffmanTables_yields _ hheader) ?_
    exact inflateBlockHuffman_yields _ hbody hout (by omega)

/-- A stream that is decompressed is on the bits of the data, and no bit behind its end is read. -/
theorem inflateBlocks_finds (hlen : data.length < 2 ^ 32) {fuel blocks : ℕ} {out out' : List UInt8}
    (hout : out.length ≤ outMax)
    (h : (inflateBlocks data data.length outMax fuel blocks out (posOf p)).value = some out') :
    ∃ stop, StreamAt data outMax out p out' stop ∧ p ≤ stop ∧
      ∀ b, .bit b ∈ (inflateBlocks data data.length outMax fuel blocks out (posOf p)).log →
        ∃ i < stop, b = posOf i := by
  induction blocks generalizing out p with
  | zero =>
    obtain ⟨_, -, h⟩ := value_bind_eq_some.mp h
    exact absurd h (by simp)
  | succ blocks ih =>
    obtain ⟨_, _, ⟨rfl, rfl⟩, -, h, hlog⟩ := (brReadBits_finds p 1).bind_value h
    obtain ⟨_, _, ⟨rfl, rfl⟩, -, h, hlog'⟩ := (brReadBits_finds (p + 1) 2).bind_value h
    obtain ⟨mid, q, hblock, hpq, h, hlog''⟩ := (inflateBlock_finds hlen fuel hout p).bind_value h
    have hrest : ∀ stop, q ≤ stop →
        (∀ b, .bit b ∈ (if numberAt data p 1 ≠ 0 then pure mid else
          inflateBlocks data data.length outMax fuel blocks mid (posOf q)).log →
            ∃ i < stop, b = posOf i) →
        ∀ b, .bit b ∈ (inflateBlocks data data.length outMax fuel (blocks + 1) out (posOf p)).log →
          ∃ i < stop, b = posOf i := by
      intro stop hstop hlast b hb
      obtain ⟨i, hi, rfl⟩ | hb := hlog b hb
      · exact ⟨i, by omega, rfl⟩
      obtain ⟨i, hi, rfl⟩ | hb := hlog' b hb
      · exact ⟨i, by omega, rfl⟩
      obtain ⟨i, hi, rfl⟩ | hb := hlog'' b hb
      · exact ⟨i, by omega, rfl⟩
      · exact hlast b hb
    split at h
    · next hfinal =>
      obtain rfl := Option.some.inj h
      refine ⟨q, .final (numberAt_one_ne_zero_iff.mp hfinal) hblock, by omega, ?_⟩
      refine hrest q le_rfl fun b hb => ?_
      rw [if_pos hfinal] at hb
      exact absurd hb List.not_mem_nil
    · next hmore =>
      obtain ⟨stop, hstream, hle, hbits⟩ := ih (hblock.length_le hout) h
      have hbit : bitAt data p = false :=
        Bool.eq_false_iff.mpr fun hbit => hmore (numberAt_one_ne_zero_iff.mpr hbit)
      refine ⟨stop, .more hbit hblock hstream, by omega, hrest stop hle fun b hb => ?_⟩
      rw [if_neg hmore] at hb
      exact hbits b hb

/-- A stream on the bits of the data is decompressed, and the bit behind the data is read if the
    stream goes on there. -/
theorem inflateBlocks_yields (hlen : data.length < 2 ^ 32) {stop : ℕ} {out out' : List UInt8}
    (h : StreamAt data outMax out p out' stop) (hout : out.length ≤ outMax) :
    ∃ n, ∀ blocks ≥ n, ∀ fuel > outMax,
      (inflateBlocks data data.length outMax fuel blocks out (posOf p)).value = some out' ∧
        (p ≤ 8 * data.length → 8 * data.length < stop →
          .bit (posOf (8 * data.length)) ∈
            (inflateBlocks data data.length outMax fuel blocks out (posOf p)).log) := by
  induction h with
  | @final out out' p stop hbit hblock =>
    refine ⟨1, fun blocks hblocks fuel hfuel => ?_⟩
    obtain ⟨blocks, rfl⟩ : ∃ k, blocks = k + 1 := Nat.exists_eq_add_one.mpr hblocks
    refine Yields.bind_value (brReadBits_yields _ p 1) ?_
    refine Yields.bind_value (brReadBits_yields _ (p + 1) 2) ?_
    refine Yields.bind_value (inflateBlock_yields hlen hout hfuel hblock) ?_
    dsimp only
    rw [if_pos (numberAt_one_ne_zero_iff.mpr hbit)]
    exact ⟨rfl, fun hp hr => absurd hr (Nat.not_lt_of_le hp)⟩
  | @more out mid out' p q stop hbit hblock _ ih =>
    obtain ⟨n, hrest⟩ := ih (hblock.length_le hout)
    refine ⟨n + 1, fun blocks hblocks fuel hfuel => ?_⟩
    obtain ⟨blocks, rfl⟩ : ∃ k, blocks = k + 1 := Nat.exists_eq_add_one.mpr (by omega)
    have hmore : ¬ numberAt data p 1 ≠ 0 := by
      rw [numberAt_one_ne_zero_iff, hbit]
      exact Bool.false_ne_true
    refine Yields.bind_value (brReadBits_yields _ p 1) ?_
    refine Yields.bind_value (brReadBits_yields _ (p + 1) 2) ?_
    refine Yields.bind_value (inflateBlock_yields hlen hout hfuel hblock) ?_
    dsimp only
    rw [if_neg hmore]
    exact hrest blocks (by omega) fuel hfuel

end blocks

end AuroraOS.Inflate.Traced
