import AuroraOS.Inflate.TableBounds

/-!
# Data inside longer data

The decompressor over data inside a longer byte string, with the length of the data to check
against. It finishes over the data where it finishes over the longer string without stored bytes
from behind the data.

## Main definitions

- `StoredBelow` — stored blocks in the data
- `Follows` — a function of the decompressor over the data and over the longer string

## Main results

- `inflateStored_follows`, `inflateBlockHuffman_follows`
- `inflateRaw_follows`
-/

namespace AuroraOS.Inflate.Traced

open AuroraOS.Lib AuroraOS.Lib.Logged

/-- Stored blocks lie in the first `bound` bytes. -/
def StoredBelow (bound : ℕ) : Event → Prop
  | .stored i => i < bound
  | _ => True

variable {data rest : List UInt8} {outMax bound : ℕ} {br : BitPos}

variable (data rest) in
/-- A function of the decompressor over the data and over the longer string. -/
def Follows {α : Type} (p : List UInt8 → Logged Event α) : Prop :=
  Restricts (StoredBelow data.length) (p data) (p (data ++ rest))

/-- A function that does not look at the data. -/
abbrev Neutral {α : Type} (bound : ℕ) (p : Logged Event α) : Prop :=
  Restricts (StoredBelow bound) p p

theorem getD_front {i : ℕ} (h : i < data.length) : (data ++ rest).getD i 0 = data.getD i 0 :=
  List.getD_append _ _ _ _ h

theorem lt_length_front {i : ℕ} (h : i < data.length) : i < (data ++ rest).length := by
  rw [List.length_append]
  omega

theorem peekBit_follows : Follows data rest fun d => peekBit d data.length br := by
  simp only [Follows, peekBit]
  split
  · next hlt =>
    refine Restricts.bind (fun byte => ?_) fun _ _ => .pure _
    rw [readByte_value_iff, readByte_value_iff, getD_front hlt]
    constructor
    · rintro ⟨_, rfl⟩
      refine ⟨⟨lt_length_front hlt, rfl⟩, fun e he => ?_⟩
      rw [mem_log_readByte.mp he]
      trivial
    · rintro ⟨⟨_, rfl⟩, -⟩
      exact ⟨hlt, rfl⟩
  · exact .pure _

theorem add_neutral (m n : ℕ) : Neutral bound (add m n) :=
  .bind (.tell trivial) fun _ _ => .pure _

theorem access_neutral (a : Table) (i : ℕ) : Neutral bound (access a i) := by
  refine Restricts.bind (.tell trivial) fun _ _ => .refl fun e he => ?_
  rw [log_require] at he
  exact absurd he List.not_mem_nil

theorem advance_neutral : Neutral bound (advance br) := by
  rw [advance]
  split
  · exact .bind (add_neutral _ _) fun _ _ => .pure _
  · exact .pure _

theorem brAlignToByte_neutral : Neutral bound (brAlignToByte br) := by
  rw [brAlignToByte]
  split
  · exact .bind (add_neutral _ _) fun _ _ => .pure _
  · exact .pure _

theorem brReadBitsLoop_follows (n i result : ℕ) :
    Follows data rest fun d => brReadBitsLoop d data.length n i result br := by
  induction n generalizing i result br with
  | zero => exact .pure _
  | succ n ih =>
    refine Restricts.bind (.tell trivial) fun _ _ => Restricts.bind peekBit_follows fun bit _ => ?_
    exact .bind advance_neutral fun br' _ => ih _ _

theorem brReadBits_follows (count : ℕ) :
    Follows data rest fun d => brReadBits d data.length br count :=
  brReadBitsLoop_follows count 0 0

/-- Accesses to the tables are no accesses to the data. -/
theorem tellAll_neutral {es : List Event} (h : ∀ e ∈ es, ∃ a i, e = .array a i) :
    Neutral bound (tellAll es) := by
  refine Restricts.tellAll fun e he => ?_
  obtain ⟨a, i, rfl⟩ := h e he
  trivial

theorem huffmanDecodeLoop_follows (t : HuffmanTable) (n codeLen code : ℕ) :
    Follows data rest fun d => huffmanDecodeLoop d data.length t n codeLen code br := by
  induction n generalizing codeLen code br with
  | zero => exact .pure _
  | succ n ih =>
    refine Restricts.bind (brReadBits_follows 1) fun bit _ => ?_
    refine Restricts.bind (tellAll_neutral fun e he => mem_searchAccesses he) fun _ _ => ?_
    split
    · exact .pure _
    · exact ih _ _

theorem huffmanDecode_follows (t : HuffmanTable) :
    Follows data rest fun d => huffmanDecode d data.length t br :=
  huffmanDecodeLoop_follows t _ _ _

theorem build_neutral (source : Table) (base : ℕ) (lengths : List ℕ) :
    Neutral bound (build source base lengths) :=
  .bind (tellAll_neutral fun _ he => mem_buildAccesses he) fun _ _ => .pure _

theorem buildFixedHuffmanTables_neutral : Neutral bound buildFixedHuffmanTables := by
  refine Restricts.bind (tellAll_neutral fun e he => ?_) fun _ _ => ?_
  · obtain ⟨_, _, rfl⟩ := List.mem_map.mp he
    exact ⟨_, _, rfl⟩
  refine Restricts.bind (build_neutral _ _ _) fun lit _ => ?_
  refine Restricts.bind (tellAll_neutral fun e he => ?_) fun _ _ => ?_
  · obtain ⟨_, _, rfl⟩ := List.mem_map.mp he
    exact ⟨_, _, rfl⟩
  exact .bind (build_neutral _ _ _) fun dist _ => .pure _

theorem readClLengths_follows (n i : ℕ) (clLengths : List ℕ) :
    Follows data rest fun d => readClLengths d data.length n i clLengths br := by
  induction n generalizing i clLengths br with
  | zero => exact .pure _
  | succ n ih =>
    refine Restricts.bind (brReadBits_follows 3) fun r _ => ?_
    refine Restricts.bind (access_neutral _ _) fun _ _ => ?_
    exact .bind (access_neutral _ _) fun _ _ => ih _ _

theorem storeLoop_neutral (total value n : ℕ) (all : List ℕ) :
    Neutral bound (storeLoop total value n all) := by
  induction n generalizing all with
  | zero => exact .pure _
  | succ n ih =>
    rw [storeLoop]
    split
    · exact .bind (access_neutral _ _) fun _ _ => ih _
    · exact .pure _

/-- A test of something else than the data. -/
theorem require_neutral (c : Prop) [Decidable c] :
    Neutral bound (require c : Logged Event Unit) :=
  .refl fun e he => by
    rw [log_require] at he
    exact absurd he List.not_mem_nil

theorem storeSymbol_follows (total sym : ℕ) (all : List ℕ) :
    Follows data rest fun d => storeSymbol d data.length total sym all br := by
  refine Restricts.bind (require_neutral _) fun _ _ => ?_
  refine Restricts.bind (brReadBits_follows _) fun extra _ => ?_
  have hprevious : Neutral data.length (readPrevious sym all) := by
    rw [readPrevious]
    split
    · exact access_neutral _ _
    · exact .pure _
  refine Restricts.bind hprevious fun _ _ => ?_
  exact .bind (storeLoop_neutral _ _ _ _) fun r _ => .pure _

theorem readLengths_follows (t : HuffmanTable) (total fuel : ℕ) (all : List ℕ) :
    Follows data rest fun d => readLengths d data.length t total fuel all br := by
  induction fuel generalizing all br with
  | zero =>
    simp only [Follows, readLengths]
    split
    · exact .pure _
    · exact .bind (.tell trivial) fun _ _ => .fail
  | succ fuel ih =>
    simp only [Follows, readLengths]
    split
    · exact .pure _
    · refine Restricts.bind (huffmanDecode_follows t) fun s _ => ?_
      obtain ⟨sym, br'⟩ := s
      cases sym with
      | none => exact .fail
      | some sym => exact .bind (storeSymbol_follows _ _ _) fun r _ => ih _

theorem readDynamicHuffmanTables_follows :
    Follows data rest fun d => readDynamicHuffmanTables d data.length br := by
  have hcounts : Follows data rest fun d => readCounts d data.length br :=
    .bind (brReadBits_follows 5) fun _ _ => .bind (brReadBits_follows 5) fun _ _ =>
      .bind (brReadBits_follows 4) fun _ _ => .pure _
  refine Restricts.bind hcounts fun counts _ => ?_
  refine Restricts.bind (readClLengths_follows _ _ _) fun cl _ => ?_
  refine Restricts.bind (build_neutral _ _ _) fun clTable _ => ?_
  refine Restricts.bind (.tell trivial) fun _ _ => ?_
  refine Restricts.bind (readLengths_follows _ _ _ _) fun all _ => ?_
  refine Restricts.bind (build_neutral _ _ _) fun lit _ => ?_
  exact .bind (build_neutral _ _ _) fun dist _ => .pure _

theorem emit_neutral (value : UInt8) (out : List UInt8) :
    Neutral bound (emit outMax value out) :=
  .bind (.tell trivial) fun _ _ => .bind (require_neutral _) fun _ _ => .pure _

theorem copyLoop_neutral (n src : ℕ) (out : List UInt8) :
    Neutral bound (copyLoop outMax n src out) := by
  induction n generalizing src out with
  | zero => exact .pure _
  | succ n ih =>
    refine Restricts.bind (.tell trivial) fun _ _ => ?_
    exact .bind (emit_neutral _ _) fun _ _ => ih _ _

theorem backReference_follows (dist : HuffmanTable) (sym : ℕ) (out : List UInt8) :
    Follows data rest fun d => backReference d data.length outMax dist sym out br := by
  unfold backReference
  refine Restricts.bind (require_neutral _) fun _ _ => ?_
  refine Restricts.bind (brReadBits_follows _) fun lengthExtra _ => ?_
  refine Restricts.bind (huffmanDecode_follows dist) fun d _ => ?_
  obtain ⟨distSym, br'⟩ := d
  cases distSym with
  | none => exact .fail
  | some distSym =>
    refine Restricts.bind (require_neutral _) fun _ _ => ?_
    refine Restricts.bind (brReadBits_follows _) fun distExtra _ => ?_
    refine Restricts.bind (require_neutral _) fun _ _ => ?_
    refine Restricts.bind (add_neutral _ _) fun outEnd _ => ?_
    refine Restricts.bind (require_neutral _) fun _ _ => ?_
    exact .bind (copyLoop_neutral _ _ _) fun _ _ => .pure _

theorem inflateBlockHuffman_follows (lit dist : HuffmanTable) (fuel : ℕ) (out : List UInt8) :
    Follows data rest fun d => inflateBlockHuffman d data.length outMax lit dist fuel out br := by
  induction fuel generalizing out br with
  | zero => exact .bind (.tell trivial) fun _ _ => .fail
  | succ fuel ih =>
    refine Restricts.bind (huffmanDecode_follows lit) fun s _ => ?_
    obtain ⟨sym, br'⟩ := s
    cases sym with
    | none => exact .fail
    | some sym =>
      dsimp only
      split
      · refine Restricts.bind (require_neutral _) fun _ _ => ?_
        exact .bind (emit_neutral _ _) fun _ _ => ih _
      · split
        · exact .pure _
        · exact .bind (backReference_follows _ _ _) fun _ _ => ih _

/-- A stored byte from behind the data is an event that is not allowed. -/
theorem readStored_follows (i : ℕ) : Follows data rest fun d => readByte d (.stored i) i := by
  intro byte
  simp only [readByte_value_iff, mem_log_readByte, forall_eq]
  constructor
  · rintro ⟨hi, rfl⟩
    exact ⟨⟨lt_length_front hi, by rw [getD_front hi]⟩, hi⟩
  · rintro ⟨⟨-, rfl⟩, hi⟩
    exact ⟨hi, by rw [getD_front hi]⟩

theorem readPair_follows (pos : ℕ) : Follows data rest fun d => readPair d pos :=
  .bind (readStored_follows _) fun _ _ => .bind (readStored_follows _) fun _ _ => .pure _

theorem storedLoop_follows (n src : ℕ) (out : List UInt8) :
    Follows data rest fun d => storedLoop d outMax n src out := by
  induction n generalizing src out with
  | zero => exact .pure _
  | succ n ih =>
    refine Restricts.bind (readStored_follows _) fun _ _ => ?_
    exact .bind (emit_neutral _ _) fun _ _ => ih _ _

theorem inflateStored_follows (out : List UInt8) :
    Follows data rest fun d => inflateStored d data.length outMax out br := by
  refine Restricts.bind brAlignToByte_neutral fun br' _ => ?_
  refine Restricts.bind (add_neutral _ _) fun start _ => ?_
  refine Restricts.bind (require_neutral _) fun _ _ => ?_
  refine Restricts.bind (readPair_follows _) fun blockLen _ => ?_
  refine Restricts.bind (readPair_follows _) fun nlen _ => ?_
  refine Restricts.bind (require_neutral _) fun _ _ => ?_
  refine Restricts.bind (add_neutral _ _) fun stop _ => ?_
  refine Restricts.bind (require_neutral _) fun _ _ => ?_
  refine Restricts.bind (add_neutral _ _) fun outEnd _ => ?_
  refine Restricts.bind (require_neutral _) fun _ _ => ?_
  exact .bind (storedLoop_follows _ _ _) fun _ _ => .pure _

theorem inflateBlock_follows (fuel btype : ℕ) (out : List UInt8) :
    Follows data rest fun d => inflateBlock d data.length outMax fuel btype out br := by
  simp only [Follows, inflateBlock]
  split
  · exact inflateStored_follows out
  · split
    · exact .bind buildFixedHuffmanTables_neutral fun _ _ => inflateBlockHuffman_follows _ _ _ _
    · split
      · exact .bind readDynamicHuffmanTables_follows fun _ _ => inflateBlockHuffman_follows _ _ _ _
      · exact .fail

theorem inflateBlocks_follows (fuel blocks : ℕ) (out : List UInt8) :
    Follows data rest fun d => inflateBlocks d data.length outMax fuel blocks out br := by
  induction blocks generalizing out br with
  | zero => exact .bind (.tell trivial) fun _ _ => .fail
  | succ blocks ih =>
    refine Restricts.bind (brReadBits_follows 1) fun final _ => ?_
    refine Restricts.bind (brReadBits_follows 2) fun btype _ => ?_
    refine Restricts.bind (inflateBlock_follows _ _ _) fun r _ => ?_
    split
    · exact .pure _
    · exact ih _

/-- The data decodes as the longer string does, where stored blocks lie in the data. -/
theorem inflateRaw_follows (data rest : List UInt8) (outMax fuel : ℕ) :
    Restricts (StoredBelow data.length) (inflateRaw data data.length outMax fuel)
      (inflateRaw (data ++ rest) data.length outMax fuel) :=
  inflateBlocks_follows _ _ _

end AuroraOS.Inflate.Traced
