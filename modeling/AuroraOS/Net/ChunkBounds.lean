import AuroraOS.Net.Chunked
import Mathlib.Data.List.Chain
import Mathlib.Logic.Relation

/-!
# The limits of the chunk decoder

Where `http_decode_chunked` reads and writes, and how its read index moves. A chunk size is any
32-bit number; added to the index it can wrap around and then passes the test against the end of
the input.

## Main definitions

- `decodeIndices` — the values of the read index over a run
- `Wraps` — a size that passes the test only because of the wrap-around

## Main results

- `httpDecodeChunked_safe_iff`
-/

namespace AuroraOS.Net

/-- The size after the test against the end of the input. -/
def clampSize (input : List UInt8) (i chunkSize : ℕ) : ℕ :=
  if input.length < (i + chunkSize) % 2 ^ 32 then input.length - i else chunkSize

/-- The values that `i` takes after the copy. -/
def copyIndices (input : List UInt8) (i chunkSize : ℕ) : List ℕ :=
  let j := (i + clampSize input i chunkSize) % 2 ^ 32
  [j, skipByte input cr j, skipByte input lf (skipByte input cr j)]

/-- The values that `i` takes in a turn of the loop. -/
def turnIndices (input : List UInt8) (i : ℕ) : List ℕ :=
  match readChunkSize (input.drop i) i 0 false with
  | (_, false, i) => [i]
  | (chunkSize, true, i) =>
    let j := skipLine (input.drop i) i
    if chunkSize = 0 then [i, j] else i :: j :: copyIndices input j chunkSize

/-- The values that `i` takes in the loop of `http_decode_chunked`. -/
def decodeIndices (input : List UInt8) (hlen : input.length < 2 ^ 32) (outMax i : ℕ)
    (out : List UInt8) : List ℕ :=
  if i < input.length then
    match _h : chunkStep input outMax i out with
    | .next j out => turnIndices input i ++ decodeIndices input hlen outMax j out
    | _ => turnIndices input i
  else []
termination_by input.length - i
decreasing_by
  have := chunkStep_lt hlen _h
  omega

/-- A turn that another one follows. -/
def Turn (input : List UInt8) (outMax : ℕ) (s s' : ℕ × List UInt8) : Prop :=
  s.1 < input.length ∧ chunkStep input outMax s.1 s.2 = .next s'.1 s'.2

/-- The number in the line at `i` is too large for the test behind it to notice: added to the index
    after the line it wraps around, to something within the input. -/
def Wraps (input : List UInt8) (i : ℕ) : Prop :=
  match readChunkSize (input.drop i) i 0 false with
  | (_, false, _) => False
  | (chunkSize, true, i) =>
    let j := skipLine (input.drop i) i
    2 ^ 32 ≤ j + chunkSize ∧ j + chunkSize - 2 ^ 32 ≤ input.length

theorem readChunkSize_lt (s : List UInt8) (i : ℕ) {n : ℕ} (hn : n < 2 ^ 32) (anyDigit : Bool) :
    (readChunkSize s i n anyDigit).1 < 2 ^ 32 := by
  fun_induction readChunkSize s i n anyDigit with
  | case2 i n anyDigit c rest _ digit _ ih => exact ih (Nat.mod_lt _ (by decide))
  | _ => exact hn

theorem readChunkSize_le_length (s : List UInt8) (i n : ℕ) (anyDigit : Bool) :
    (readChunkSize s i n anyDigit).2.2 ≤ i + s.length := by
  fun_induction readChunkSize s i n anyDigit with
  | case2 i n anyDigit c rest _ digit _ ih =>
    rw [List.length_cons]
    omega
  | _ => exact Nat.le_add_right _ _

theorem skipLine_le_length (s : List UInt8) (i : ℕ) : skipLine s i ≤ i + s.length := by
  fun_induction skipLine s i with
  | case1 => exact Nat.le_add_right _ _
  | case2 _ _ _ _ ih =>
    rw [List.length_cons]
    omega
  | case3 =>
    rw [List.length_cons]
    omega

theorem skipByte_le_length {input : List UInt8} {i : ℕ} (hi : i ≤ input.length) (c : UInt8) :
    skipByte input c i ≤ input.length := by
  rw [skipByte]
  split
  · next h => exact h.1
  · exact hi

section turn

variable {input out : List UInt8} {outMax i chunkSize : ℕ}

/-- Without a wrap-around the chunk that is left ends within the input. -/
theorem clampSize_le (hi : i ≤ input.length) (hlen : input.length < 2 ^ 32)
    (hn : chunkSize < 2 ^ 32)
    (hwrap : ¬ (2 ^ 32 ≤ i + chunkSize ∧ i + chunkSize - 2 ^ 32 ≤ input.length)) :
    i + clampSize input i chunkSize ≤ input.length := by
  rw [clampSize]
  split
  · omega
  · next hle =>
    by_cases hover : 2 ^ 32 ≤ i + chunkSize
    · have hmod : (i + chunkSize) % 2 ^ 32 = i + chunkSize - 2 ^ 32 := by omega
      omega
    · rw [Nat.mod_eq_of_lt (Nat.lt_of_not_le hover)] at hle
      omega

/-- With one it falls. -/
theorem clampSize_wraps (hlen : input.length < 2 ^ 32) (hn : chunkSize < 2 ^ 32)
    (hwrap : 2 ^ 32 ≤ i + chunkSize ∧ i + chunkSize - 2 ^ 32 ≤ input.length) :
    (i + clampSize input i chunkSize) % 2 ^ 32 < i := by
  have hmod : (i + chunkSize) % 2 ^ 32 = i + chunkSize - 2 ^ 32 := by omega
  rw [clampSize, if_neg (by omega), hmod]
  omega

/-- The copy stays within both buffers. -/
theorem copyChunk_eq (hlen : input.length < 2 ^ 32)
    (hfits : i + clampSize input i chunkSize ≤ input.length) (hout : out.length ≤ i)
    (hmax : out.length ≤ outMax) :
    ∃ out', out'.length ≤ i + clampSize input i chunkSize ∧ out'.length ≤ outMax ∧
      copyChunk input outMax i chunkSize out =
        let k := skipByte input lf (skipByte input cr ((i + clampSize input i chunkSize) % 2 ^ 32))
        if outMax ≤ out'.length then .stop k out' else .next k out' := by
  have hcopy : copyChunk input outMax i chunkSize out =
      let n := clampSize input i chunkSize
      let copyLen := if outMax < (out.length + n) % 2 ^ 32 then outMax - out.length else n
      if input.length < i + copyLen ∨ outMax < out.length + copyLen then .overrun
      else
        let out := out ++ (input.drop i).take copyLen
        let k := skipByte input lf (skipByte input cr ((i + n) % 2 ^ 32))
        if outMax ≤ out.length then .stop k out else .next k out := rfl
  rw [hcopy]
  generalize clampSize input i chunkSize = n at hfits ⊢
  have hmod : (out.length + n) % 2 ^ 32 = out.length + n := Nat.mod_eq_of_lt (by omega)
  simp only [hmod]
  generalize hk : (if outMax < out.length + n then outMax - out.length else n) = copyLen
  have hle : copyLen ≤ n ∧ out.length + copyLen ≤ outMax := by
    split at hk
    · omega
    · omega
  refine ⟨out ++ (input.drop i).take copyLen, ?_, ?_, if_neg (by omega)⟩
  · rw [List.length_append, List.length_take]
    omega
  · rw [List.length_append, List.length_take]
    omega

theorem skip_chain (input : List UInt8) (j : ℕ) :
    [j, skipByte input cr j, skipByte input lf (skipByte input cr j)].IsChain (· ≤ ·) := by
  rw [List.isChain_cons_cons, List.isChain_cons_cons]
  exact ⟨le_skipByte _ _ _, le_skipByte _ _ _, List.isChain_singleton _⟩

/-- What is known of the variables when a turn begins. -/
structure Bounded (input : List UInt8) (outMax : ℕ) (s : ℕ × List UInt8) : Prop where
  index : s.1 ≤ input.length
  written : s.2.length ≤ s.1
  room : s.2.length ≤ outMax

/-- The two loops over the line at `i` stay within the input. -/
theorem line_le (hi : i ≤ input.length) {chunkSize j : ℕ} {anyDigit : Bool}
    (h : readChunkSize (input.drop i) i 0 false = (chunkSize, anyDigit, j)) :
    i ≤ j ∧ j ≤ skipLine (input.drop j) j ∧ skipLine (input.drop j) j ≤ input.length ∧
      chunkSize < 2 ^ 32 := by
  have hle := (readChunkSize_le (input.drop i) i 0 false).1
  have hlen := readChunkSize_le_length (input.drop i) i 0 false
  have hlt := readChunkSize_lt (input.drop i) i (n := 0) (by decide) false
  rw [h] at hle hlen hlt
  simp only [List.length_drop] at hle hlen hlt
  have hskip := skipLine_le_length (input.drop j) j
  rw [List.length_drop] at hskip
  exact ⟨hle, le_skipLine _ _, by omega, hlt⟩

/-- A turn without a wrap-around. -/
theorem turn_safe {s : ℕ × List UInt8} (hlen : input.length < 2 ^ 32)
    (hs : Bounded input outMax s) (hwrap : ¬ Wraps input s.1) :
    (s.1 :: turnIndices input s.1).IsChain (· ≤ ·) ∧
      ((∃ j out', chunkStep input outMax s.1 s.2 = .stop j out') ∨
        ∃ s', chunkStep input outMax s.1 s.2 = .next s'.1 s'.2 ∧ Bounded input outMax s' ∧
          (s.1 :: turnIndices input s.1).getLast? = some s'.1) := by
  obtain ⟨i, out⟩ := s
  obtain ⟨hi, hout, hroom⟩ := hs
  simp only at hi hout hroom hwrap ⊢
  rw [Wraps] at hwrap
  rw [turnIndices, chunkStep]
  rcases hread : readChunkSize (input.drop i) i 0 false with ⟨chunkSize, anyDigit, j⟩
  rw [hread] at hwrap
  obtain ⟨hij, hjk, hk, hn⟩ := line_le hi hread
  cases anyDigit with
  | false => exact ⟨List.isChain_pair.mpr hij, .inl ⟨j, out, rfl⟩⟩
  | true =>
    simp only at hwrap ⊢
    generalize skipLine (input.drop j) j = k at hjk hk hwrap ⊢
    by_cases hzero : chunkSize = 0
    · rw [if_pos hzero, if_pos hzero]
      exact ⟨by simp [hij, hjk], .inl ⟨k, out, rfl⟩⟩
    · rw [if_neg hzero, if_neg hzero]
      have hfits := clampSize_le hk hlen hn hwrap
      obtain ⟨out', hout', hroom', hcopy⟩ := copyChunk_eq hlen hfits (by omega) hroom
      have hmod : (k + clampSize input k chunkSize) % 2 ^ 32 = k + clampSize input k chunkSize :=
        Nat.mod_eq_of_lt (by omega)
      rw [hmod] at hcopy
      have hchain := skip_chain input (k + clampSize input k chunkSize)
      refine ⟨?_, ?_⟩
      · simp only [copyIndices, hmod]
        rw [List.isChain_cons_cons, List.isChain_cons_cons, List.isChain_cons_cons]
        exact ⟨hij, hjk, Nat.le_add_right _ _, hchain⟩
      · rw [hcopy]
        split
        · exact .inl ⟨_, _, rfl⟩
        · refine .inr ⟨(_, out'), rfl, ⟨?_, ?_, hroom'⟩, ?_⟩
          · exact skipByte_le_length (skipByte_le_length hfits cr) lf
          · exact hout'.trans ((le_skipByte _ _ _).trans (le_skipByte _ _ _))
          · simp only [copyIndices, hmod]
            rfl

/-- A turn in which the size wraps around. -/
theorem turn_wraps (hi : i ≤ input.length) (hlen : input.length < 2 ^ 32) (hwrap : Wraps input i) :
    ¬ (i :: turnIndices input i).IsChain (· ≤ ·) := by
  rw [Wraps] at hwrap
  rw [turnIndices]
  rcases hread : readChunkSize (input.drop i) i 0 false with ⟨chunkSize, anyDigit, j⟩
  rw [hread] at hwrap
  cases anyDigit with
  | false => exact absurd hwrap id
  | true =>
    obtain ⟨-, -, hk, hn⟩ := line_le hi hread
    simp only at hwrap ⊢
    generalize skipLine (input.drop j) j = k at hk hwrap ⊢
    rw [if_neg (by omega)]
    intro hchain
    simp only [copyIndices] at hchain
    rw [List.isChain_cons_cons, List.isChain_cons_cons, List.isChain_cons_cons] at hchain
    exact absurd hchain.2.2.1 (Nat.not_le_of_lt (clampSize_wraps hlen hn hwrap))

end turn

theorem isChain_cons_append_iff {a b : ℕ} {l l' : List ℕ} (h : (a :: l).getLast? = some b) :
    (a :: (l ++ l')).IsChain (· ≤ ·) ↔ (a :: l).IsChain (· ≤ ·) ∧ (b :: l').IsChain (· ≤ ·) := by
  induction l generalizing a with
  | nil =>
    obtain rfl := Option.some.inj h
    simp
  | cons c l ih =>
    rw [List.getLast?_cons_cons] at h
    rw [List.cons_append, List.isChain_cons_cons, List.isChain_cons_cons, ih h, and_assoc]

section step

variable {input out out' : List UInt8} (hlen : input.length < 2 ^ 32) {outMax i j : ℕ}

theorem decode_of_stop (hi : i < input.length) (h : chunkStep input outMax i out = .stop j out') :
    decodeChunks input hlen outMax i out = some out' ∧
      decodeIndices input hlen outMax i out = turnIndices input i := by
  rw [decodeChunks, decodeIndices, if_pos hi, if_pos hi]
  constructor
  · split
    · next heq => exact absurd (h.symm.trans heq) (by simp)
    · next heq => rw [(ChunkStep.stop.inj (h.symm.trans heq)).2]
    · next heq => exact absurd (h.symm.trans heq) (by simp)
  · split
    · next heq => exact absurd (h.symm.trans heq) (by simp)
    · rfl

theorem decode_of_next (hi : i < input.length) (h : chunkStep input outMax i out = .next j out') :
    decodeChunks input hlen outMax i out = decodeChunks input hlen outMax j out' ∧
      decodeIndices input hlen outMax i out =
        turnIndices input i ++ decodeIndices input hlen outMax j out' := by
  rw [decodeChunks, decodeIndices, if_pos hi, if_pos hi]
  constructor
  · split
    · next heq => exact absurd (h.symm.trans heq) (by simp)
    · next heq => exact absurd (h.symm.trans heq) (by simp)
    · next heq =>
      obtain ⟨rfl, rfl⟩ := ChunkStep.next.inj (h.symm.trans heq)
      rfl
  · split
    · next heq =>
      obtain ⟨rfl, rfl⟩ := ChunkStep.next.inj (h.symm.trans heq)
      rfl
    · next hnot => exact absurd h (hnot _ _)

/-- The values of a turn are the first ones. -/
theorem turnIndices_prefix (hi : i < input.length) :
    turnIndices input i <+: decodeIndices input hlen outMax i out := by
  rw [decodeIndices, if_pos hi]
  split
  · exact List.prefix_append _ _
  · exact List.prefix_rfl

end step

/-- The decoder comes back without having left one of its buffers and without its index having
    fallen exactly if the number in no line that it gets to wraps around. -/
theorem decodeChunks_safe_iff {input : List UInt8} (hlen : input.length < 2 ^ 32) {outMax : ℕ}
    {s : ℕ × List UInt8} (hs : Bounded input outMax s) :
    ((∃ out, decodeChunks input hlen outMax s.1 s.2 = some out) ∧
        (s.1 :: decodeIndices input hlen outMax s.1 s.2).IsChain (· ≤ ·)) ↔
      ∀ s', Relation.ReflTransGen (Turn input outMax) s s' → s'.1 < input.length →
        ¬ Wraps input s'.1 := by
  induction hn : input.length - s.1 using Nat.strong_induction_on generalizing s with
  | _ n ih =>
    by_cases hi : s.1 < input.length
    · by_cases hwrap : Wraps input s.1
      · refine iff_of_false ?_ fun h => h s .refl hi hwrap
        rintro ⟨-, hchain⟩
        obtain ⟨rest, hrest⟩ : turnIndices input s.1 <+: decodeIndices input hlen outMax s.1 s.2 :=
          turnIndices_prefix hlen hi
        rw [← hrest, ← List.cons_append] at hchain
        exact turn_wraps hi.le hlen hwrap hchain.left_of_append
      · obtain ⟨hchain, ⟨j, out', hstop⟩ | ⟨s', hnext, hs', hlast⟩⟩ := turn_safe hlen hs hwrap
        · obtain ⟨hrun, hindices⟩ := decode_of_stop hlen hi hstop
          refine iff_of_true ⟨⟨out', hrun⟩, hindices ▸ hchain⟩ fun s' hreach _ => ?_
          obtain rfl | ⟨t, ⟨-, ht⟩, -⟩ := hreach.cases_head
          · exact hwrap
          · exact absurd (hstop.symm.trans ht) (by simp)
        · obtain ⟨hrun, hindices⟩ := decode_of_next hlen hi hnext
          have hlt := chunkStep_lt hlen hnext
          rw [hrun, hindices, isChain_cons_append_iff hlast, and_left_comm,
            ih _ (by have := hs'.index; omega) hs' rfl]
          constructor
          · rintro ⟨-, hrest⟩ t hreach ht
            obtain rfl | ⟨u, ⟨-, hu⟩, hreach'⟩ := hreach.cases_head
            · exact hwrap
            · obtain ⟨h₁, h₂⟩ := ChunkStep.next.inj (hnext.symm.trans hu)
              obtain rfl : s' = u := Prod.ext h₁ h₂
              exact hrest t hreach' ht
          · intro h
            exact ⟨hchain, fun t hreach ht => h t (.head ⟨hi, hnext⟩ hreach) ht⟩
    · rw [decodeChunks, decodeIndices, if_neg hi, if_neg hi]
      refine iff_of_true ⟨⟨_, rfl⟩, List.isChain_singleton _⟩ fun s' hreach hs' => ?_
      obtain rfl | ⟨t, ⟨ht, -⟩, -⟩ := hreach.cases_head
      · exact absurd hs' hi
      · exact absurd ht hi

/-- The values of the read index of `http_decode_chunked`. -/
def httpDecodeIndices (input : List UInt8) (inLen : UInt32) (outMax : ℕ) : List ℕ :=
  0 :: decodeIndices (input.take inLen.toNat) (length_take_toNat_lt input inLen) outMax 0 []

/-- `http_decode_chunked` comes back without having left `in` or `out` and without its index having
    fallen exactly if no chunk size that it gets to, in the line at index `i`, wraps around when it
    is added to the index after the line. -/
theorem httpDecodeChunked_safe_iff (input : List UInt8) (inLen : UInt32) (outMax : ℕ) :
    ((∃ out, httpDecodeChunked input inLen outMax = some out) ∧
        (httpDecodeIndices input inLen outMax).IsChain (· ≤ ·)) ↔
      ∀ i out, Relation.ReflTransGen (Turn (input.take inLen.toNat) outMax) (0, []) (i, out) →
        i < (input.take inLen.toNat).length → ¬ Wraps (input.take inLen.toNat) i := by
  have hstart : Bounded (input.take inLen.toNat) outMax (0, []) :=
    ⟨Nat.zero_le _, Nat.le_refl _, Nat.zero_le _⟩
  have hiff := decodeChunks_safe_iff (length_take_toNat_lt input inLen) hstart
  exact hiff.trans ⟨fun h i out => h (i, out), fun h s => h s.1 s.2⟩

/-- A chunk size of 4294967287 in nine bytes of input: behind the line the test sees nine plus the
    size as zero, and the copy reads 65536 bytes. -/
theorem wrapped_size_overruns :
    httpDecodeChunked [0x66, 0x66, 0x66, 0x66, 0x66, 0x66, 0x66, 0x37, lf] 9 65536 = none := by
  have hstep : chunkStep [0x66, 0x66, 0x66, 0x66, 0x66, 0x66, 0x66, 0x37, lf] 65536 0 [] =
      .overrun := rfl
  rw [httpDecodeChunked, decodeChunks, if_pos (by decide)]
  split
  · rfl
  · next heq => exact absurd (hstep.symm.trans heq) (by simp)
  · next heq => exact absurd (hstep.symm.trans heq) (by simp)

end AuroraOS.Net
