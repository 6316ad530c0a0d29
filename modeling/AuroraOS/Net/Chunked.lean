import AuroraOS.Net.Tcp

/-!
# The chunked transfer coding

`http_decode_chunked` of `kernel/net.c`, with its 32-bit arithmetic, and the bodies that RFC 7230
calls chunked. A copy that would leave one of the two buffers is kept apart as `overrun`.

## Main definitions

- `httpDecodeChunked`
- `ChunkedBody` — a body of chunks, with any spelling of the sizes, extensions and a trailer

## Main results

- `httpDecodeChunked_encode` — such a body is decoded to the data of its chunks
-/

namespace AuroraOS.Net

/-- A carriage return. -/
def cr : UInt8 := 0x0d

/-- A line feed. -/
def lf : UInt8 := 0x0a

/-- The digit of a chunk size. -/
def hexDigit (c : UInt8) : Option ℕ :=
  if 0x30 ≤ c ∧ c ≤ 0x39 then some (c.toNat - 0x30)
  else if 0x61 ≤ c ∧ c ≤ 0x66 then some (c.toNat - 0x61 + 10)
  else if 0x41 ≤ c ∧ c ≤ 0x46 then some (c.toNat - 0x41 + 10)
  else none

/-- The loop over the digits of a chunk size, on the bytes from index `i` on: `chunk_size`,
    `any_digit` and the new `i`. -/
def readChunkSize : List UInt8 → ℕ → ℕ → Bool → ℕ × Bool × ℕ
  | [], i, chunkSize, anyDigit => (chunkSize, anyDigit, i)
  | c :: rest, i, chunkSize, anyDigit =>
    if c ≠ cr ∧ c ≠ lf ∧ c ≠ 0x3b then
      match hexDigit c with
      | some digit => readChunkSize rest (i + 1) ((chunkSize * 16 + digit) % 2 ^ 32) true
      | none => (chunkSize, anyDigit, i)
    else (chunkSize, anyDigit, i)

/-- The loop to the end of the line, and the step over its `\n`. -/
def skipLine : List UInt8 → ℕ → ℕ
  | [], i => i
  | c :: rest, i => if c ≠ lf then skipLine rest (i + 1) else i + 1

/-- The step over one byte `c`, if it is the next one. -/
def skipByte (input : List UInt8) (c : UInt8) (i : ℕ) : ℕ :=
  if i < input.length ∧ byteAt input i = c then i + 1 else i

/-- What a turn of the loop does. -/
inductive ChunkStep where
  | stop (i : ℕ) (out : List UInt8)
  | next (i : ℕ) (out : List UInt8)
  | overrun

/-- The rest of a turn, once the size of the chunk is known. -/
def copyChunk (input : List UInt8) (outMax i chunkSize : ℕ) (out : List UInt8) : ChunkStep :=
  let chunkSize := if input.length < (i + chunkSize) % 2 ^ 32 then input.length - i else chunkSize
  let copyLen :=
    if outMax < (out.length + chunkSize) % 2 ^ 32 then outMax - out.length else chunkSize
  if input.length < i + copyLen ∨ outMax < out.length + copyLen then .overrun
  else
    let out := out ++ (input.drop i).take copyLen
    let i := skipByte input lf (skipByte input cr ((i + chunkSize) % 2 ^ 32))
    if outMax ≤ out.length then .stop i out else .next i out

/-- A turn of the loop. -/
def chunkStep (input : List UInt8) (outMax i : ℕ) (out : List UInt8) : ChunkStep :=
  match readChunkSize (input.drop i) i 0 false with
  | (_, false, i) => .stop i out
  | (chunkSize, true, i) =>
    let i := skipLine (input.drop i) i
    if chunkSize = 0 then .stop i out else copyChunk input outMax i chunkSize out

theorem readChunkSize_le (s : List UInt8) (i chunkSize : ℕ) (anyDigit : Bool) :
    i ≤ (readChunkSize s i chunkSize anyDigit).2.2 ∧
      ((readChunkSize s i chunkSize anyDigit).2.1 = true →
        anyDigit = true ∨ i < (readChunkSize s i chunkSize anyDigit).2.2) := by
  fun_induction readChunkSize s i chunkSize anyDigit with
  | case1 => exact ⟨le_rfl, .inl⟩
  | case2 i chunkSize anyDigit c rest _ digit _ ih =>
    exact ⟨Nat.le_of_succ_le ih.1, fun _ => .inr ih.1⟩
  | case3 => exact ⟨le_rfl, .inl⟩
  | case4 => exact ⟨le_rfl, .inl⟩

theorem le_skipLine (s : List UInt8) (i : ℕ) : i ≤ skipLine s i := by
  fun_induction skipLine s i with
  | case1 => exact le_rfl
  | case2 i c rest _ ih => exact Nat.le_of_succ_le ih
  | case3 => exact Nat.le_succ _

theorem le_skipByte (input : List UInt8) (c : UInt8) (i : ℕ) : i ≤ skipByte input c i := by
  rw [skipByte]
  split
  · exact Nat.le_succ _
  · exact le_rfl

/-- The index does not fall in a turn that another one follows: if adding the size wraps around,
    the copy either leaves the input or fills the output. -/
theorem copyChunk_le {input out out' : List UInt8} (hlen : input.length < 2 ^ 32)
    {outMax i i' chunkSize : ℕ} (h : copyChunk input outMax i chunkSize out = .next i' out') :
    i ≤ i' := by
  simp only [copyChunk] at h
  generalize (if input.length < (i + chunkSize) % 2 ^ 32 then input.length - i else chunkSize) =
    n at h
  generalize hcopy :
    (if outMax < (out.length + n) % 2 ^ 32 then outMax - out.length else n) = k at h
  split at h
  · exact absurd h (by simp)
  · next hin =>
    split at h
    · exact absurd h (by simp)
    · next hroom =>
      obtain ⟨rfl, -⟩ := ChunkStep.next.inj h
      refine le_trans ?_ ((le_skipByte _ _ _).trans (le_skipByte _ _ _))
      rw [List.length_append, List.length_take, List.length_drop] at hroom
      split at hcopy
      · omega
      · rw [Nat.mod_eq_of_lt (by omega)]
        exact Nat.le_add_right _ _

theorem chunkStep_lt {input out out' : List UInt8} (hlen : input.length < 2 ^ 32) {outMax i i' : ℕ}
    (h : chunkStep input outMax i out = .next i' out') : i < i' := by
  rw [chunkStep] at h
  have hread := readChunkSize_le (input.drop i) i 0 false
  split at h
  · exact absurd h (by simp)
  · next chunkSize i₁ hsize =>
    rw [hsize] at hread
    have hlt : i < i₁ := (hread.2 rfl).resolve_left (by decide)
    split at h
    · exact absurd h (by simp)
    · exact hlt.trans_le ((le_skipLine _ _).trans (copyChunk_le hlen h))

/-- The loop of `http_decode_chunked`. -/
def decodeChunks (input : List UInt8) (hlen : input.length < 2 ^ 32) (outMax i : ℕ)
    (out : List UInt8) : Option (List UInt8) :=
  if i < input.length then
    match _h : chunkStep input outMax i out with
    | .overrun => none
    | .stop _ out => some out
    | .next i out => decodeChunks input hlen outMax i out
  else some out
termination_by input.length - i
decreasing_by
  have := chunkStep_lt hlen _h
  omega

theorem length_take_toNat_lt (input : List UInt8) (inLen : UInt32) :
    (input.take inLen.toNat).length < 2 ^ 32 :=
  lt_of_le_of_lt (List.length_take_le _ _) inLen.toNat_lt

/-- `http_decode_chunked`: the bytes written to `out`, whose number is returned; `none` if a copy
    leaves one of the buffers. -/
def httpDecodeChunked (input : List UInt8) (inLen : UInt32) (outMax : ℕ) : Option (List UInt8) :=
  decodeChunks (input.take inLen.toNat)
    (length_take_toNat_lt input inLen) outMax 0 []

/-- The character of a hexadecimal digit, in upper or lower case. -/
def hexChar (digit : Fin 16) (upper : Bool) : UInt8 :=
  if digit.val < 10 then UInt8.ofNat (0x30 + digit)
  else if upper then UInt8.ofNat (0x41 + (digit - 10)) else UInt8.ofNat (0x61 + (digit - 10))

theorem zero_lt_sixteen : 0 < 16 := by decide

/-- The text of a chunk size. -/
def sizeText (digits : List (Fin 16 × Bool)) : List UInt8 := digits.map fun d => hexChar d.1 d.2

/-- The number that the digits mean after others that mean `n`. -/
def hexValue (n : ℕ) (digits : List (Fin 16 × Bool)) : ℕ := digits.foldl (fun n d => n * 16 + d.1) n

/-- A chunk extension: nothing, or text after a semicolon or a blank, in the same line. -/
structure ChunkExt where
  text : List UInt8
  head_eq : ∀ c ∈ text.head?, c = 0x3b ∨ c = 0x20 ∨ c = 0x09
  one_line : lf ∉ text

/-- A chunk with the spelling of its size. -/
structure Chunk where
  digits : List (Fin 16 × Bool)
  ext : ChunkExt
  data : List UInt8
  data_ne : data ≠ []
  size_eq : hexValue 0 digits = data.length

/-- The bytes of a chunk. -/
def Chunk.encode (c : Chunk) : List UInt8 :=
  sizeText c.digits ++ (c.ext.text ++ cr :: lf :: (c.data ++ [cr, lf]))

/-- A body of chunks; the last chunk has the size zero, and `trailer` is all that follows its
    line. -/
structure ChunkedBody where
  chunks : List Chunk
  zeros : ℕ
  ext : ChunkExt
  trailer : List UInt8

/-- The bytes of the last chunk and the trailer. -/
def ChunkedBody.ending (b : ChunkedBody) : List UInt8 :=
  sizeText (List.replicate (b.zeros + 1) (⟨0, zero_lt_sixteen⟩, false)) ++
    (b.ext.text ++ cr :: lf :: b.trailer)

/-- The bytes of the body. -/
def ChunkedBody.encode (b : ChunkedBody) : List UInt8 := b.chunks.flatMap Chunk.encode ++ b.ending

/-- The data of the chunks. -/
def ChunkedBody.content (b : ChunkedBody) : List UInt8 := b.chunks.flatMap Chunk.data

theorem hexDigit_hexChar (digit : Fin 16) (upper : Bool) :
    hexDigit (hexChar digit upper) = some digit := by
  revert digit upper
  decide

theorem hexChar_ne (digit : Fin 16) (upper : Bool) :
    hexChar digit upper ≠ cr ∧ hexChar digit upper ≠ lf ∧ hexChar digit upper ≠ 0x3b := by
  revert digit upper
  decide

theorem le_hexValue (n : ℕ) (digits : List (Fin 16 × Bool)) : n ≤ hexValue n digits := by
  induction digits generalizing n with
  | nil => exact le_rfl
  | cons d ds ih =>
    refine le_trans ?_ (ih (n * 16 + d.1))
    omega

theorem hexValue_zeros (k : ℕ) : hexValue 0 (List.replicate k (0, false)) = 0 := by
  induction k with
  | zero => rfl
  | succ k ih => exact ih

theorem drop_add_length {α : Type*} {input a b : List α} {i : ℕ} (h : input.drop i = a ++ b) :
    input.drop (i + a.length) = b := by
  rw [← List.drop_drop, h, List.drop_left]

theorem readChunkSize_sizeText {digits : List (Fin 16 × Bool)} {s : List UInt8}
    (hs : ∀ c ∈ s.head?, hexDigit c = none) {n : ℕ} (hlt : hexValue n digits < 2 ^ 32) (i : ℕ)
    (anyDigit : Bool) :
    readChunkSize (sizeText digits ++ s) i n anyDigit =
      (hexValue n digits, anyDigit || !digits.isEmpty, i + digits.length) := by
  induction digits generalizing n i anyDigit with
  | nil =>
    cases s with
    | nil => simp [sizeText, readChunkSize, hexValue]
    | cons c s => simp [sizeText, readChunkSize, hexValue, hs c rfl]
  | cons d ds ih =>
    have hval : hexValue n (d :: ds) = hexValue (n * 16 + d.1) ds := rfl
    have hmod : (n * 16 + d.1) % 2 ^ 32 = n * 16 + d.1 :=
      Nat.mod_eq_of_lt ((le_hexValue _ _).trans_lt (hval ▸ hlt))
    have htext : sizeText (d :: ds) ++ s = hexChar d.1 d.2 :: (sizeText ds ++ s) := rfl
    rw [htext, readChunkSize, if_pos (hexChar_ne d.1 d.2), hexDigit_hexChar]
    change readChunkSize _ _ ((n * 16 + d.1) % 2 ^ 32) _ = _
    rw [hmod, ih (hval ▸ hlt), hval, Bool.true_or, List.isEmpty_cons, Bool.not_false, Bool.or_true,
      List.length_cons]
    congr 2
    omega

theorem skipLine_append {l s : List UInt8} (hl : lf ∉ l) (i : ℕ) :
    skipLine (l ++ lf :: s) i = i + l.length + 1 := by
  induction l generalizing i with
  | nil => simp [skipLine]
  | cons c l ih =>
    rw [List.mem_cons, not_or] at hl
    rw [List.cons_append, skipLine, if_pos (Ne.symm hl.1), ih hl.2, List.length_cons]
    omega

theorem ChunkExt.head_append (ext : ChunkExt) (s : List UInt8) :
    ∀ c ∈ (ext.text ++ cr :: s).head?, hexDigit c = none := by
  intro c hc
  have htext := ext.head_eq
  cases h : ext.text with
  | nil =>
    rw [h] at hc
    obtain rfl := Option.some.inj hc
    decide
  | cons d ds =>
    rw [h] at hc htext
    obtain rfl := Option.some.inj hc
    obtain rfl | rfl | rfl := htext d rfl
    all_goals decide

/-- The line with the size of a chunk. -/
theorem chunkStep_line {input s out : List UInt8} {i : ℕ} {digits : List (Fin 16 × Bool)}
    (hdigits : digits ≠ []) (hlt : hexValue 0 digits < 2 ^ 32) (ext : ChunkExt)
    (h : input.drop i = sizeText digits ++ (ext.text ++ cr :: lf :: s)) (outMax : ℕ) :
    ∃ j, input.drop j = s ∧ chunkStep input outMax i out =
      if hexValue 0 digits = 0 then .stop j out
      else copyChunk input outMax j (hexValue 0 digits) out := by
  have hsize := readChunkSize_sizeText (ext.head_append (lf :: s)) hlt i false
  rw [← h, Bool.false_or, show digits.isEmpty = false from List.isEmpty_eq_false_iff.mpr hdigits]
    at hsize
  have hline : input.drop (i + digits.length) = ext.text ++ [cr] ++ lf :: s := by
    have hdrop := drop_add_length h
    rw [sizeText, List.length_map] at hdrop
    rw [hdrop, List.append_assoc, List.singleton_append]
  have hcr : lf ∉ ext.text ++ [cr] := by
    rw [List.mem_append, not_or]
    exact ⟨ext.one_line, by decide⟩
  refine ⟨i + digits.length + (ext.text ++ [cr]).length + 1, ?_, ?_⟩
  · rw [add_assoc]
    refine (congrArg (fun n => input.drop (i + digits.length + n)) ?_).trans
      (drop_add_length (a := ext.text ++ [cr, lf]) ?_)
    · simp
    · rw [hline]
      simp
  · rw [chunkStep, hsize]
    simp only [Bool.not_false]
    rw [hline, skipLine_append hcr]

theorem skipByte_of_drop {input s : List UInt8} {c : UInt8} {i : ℕ} (h : input.drop i = c :: s) :
    skipByte input c i = i + 1 := by
  have hi : input[i]? = some c := by
    have hget := congrArg (fun l => l[0]?) h
    simpa using hget
  have hlt : i < input.length := (List.getElem?_eq_some_iff.mp hi).1
  rw [skipByte, if_pos ⟨hlt, by rw [byteAt, List.getD_eq_getElem?_getD, hi]; rfl⟩]

/-- The turn for a chunk. -/
theorem chunkStep_encode {input s out : List UInt8} (hlen : input.length < 2 ^ 32)
    {i : ℕ} (c : Chunk)
    (h : input.drop i = c.encode ++ s) {outMax : ℕ} (hmax : outMax < 2 ^ 32)
    (hroom : out.length + c.data.length ≤ outMax) :
    ∃ j, input.drop j = s ∧ chunkStep input outMax i out =
      if outMax ≤ out.length + c.data.length then .stop j (out ++ c.data)
      else .next j (out ++ c.data) := by
  have hpos : 0 < c.data.length := List.length_pos_iff.mpr c.data_ne
  have hdigits : c.digits ≠ [] := by
    intro hnil
    have hsize := c.size_eq
    rw [hnil] at hsize
    exact absurd hsize (Nat.ne_of_lt hpos)
  have hsmall : c.data.length ≤ input.length := by
    have hle := congrArg List.length h
    simp only [List.length_drop, List.length_append, Chunk.encode, List.length_cons] at hle
    omega
  obtain ⟨j, hj, hstep⟩ := @chunkStep_line input (c.data ++ cr :: lf :: s) out i c.digits hdigits
    (by rw [c.size_eq]; omega) c.ext (by rw [h, Chunk.encode]; simp) outMax
  have hfit : j + c.data.length ≤ input.length := by
    have hle := congrArg List.length hj
    simp only [List.length_drop, List.length_append, List.length_cons] at hle
    omega
  have hafter : input.drop (j + c.data.length) = cr :: lf :: s := drop_add_length hj
  have hafter' : input.drop (j + c.data.length + 1) = lf :: s := drop_add_length (a := [cr]) hafter
  refine ⟨j + c.data.length + 1 + 1, drop_add_length (a := [lf]) hafter', ?_⟩
  have hmod : (j + c.data.length) % 2 ^ 32 = j + c.data.length := Nat.mod_eq_of_lt (by omega)
  have hmod' : (out.length + c.data.length) % 2 ^ 32 = out.length + c.data.length :=
    Nat.mod_eq_of_lt (by omega)
  have hin : ¬ input.length < j + c.data.length := Nat.not_lt.mpr hfit
  have hout : ¬ outMax < out.length + c.data.length := Nat.not_lt.mpr hroom
  rw [hstep, c.size_eq, if_neg (Nat.ne_of_gt hpos)]
  simp only [copyChunk, hmod, hmod', or_self, if_false, hin, hout, hj,
    List.take_left, List.length_append, skipByte_of_drop hafter, skipByte_of_drop hafter']

/-- The loop over the chunks that are left. -/
theorem decodeChunks_encode {input out : List UInt8} (hlen : input.length < 2 ^ 32) {i outMax : ℕ}
    (hmax : outMax < 2 ^ 32) {chunks : List Chunk} {b : ChunkedBody}
    (h : input.drop i = chunks.flatMap Chunk.encode ++ b.ending)
    (hroom : out.length + (chunks.flatMap Chunk.data).length ≤ outMax) :
    decodeChunks input hlen outMax i out = some (out ++ chunks.flatMap Chunk.data) := by
  have hmore : i < input.length := by
    have hle := congrArg List.length h
    simp only [List.length_drop, List.length_append, ChunkedBody.ending, List.length_cons] at hle
    omega
  induction chunks generalizing i out with
  | nil =>
    obtain ⟨j, -, hstep⟩ := @chunkStep_line input b.trailer out i
      (List.replicate (b.zeros + 1) (0, false)) (by simp) (by rw [hexValue_zeros]; decide) b.ext h
      outMax
    rw [hexValue_zeros, if_pos rfl] at hstep
    rw [decodeChunks, if_pos hmore]
    split
    · next hover => exact absurd (hstep.symm.trans hover) (by simp)
    · next hstop =>
      obtain ⟨-, rfl⟩ := ChunkStep.stop.inj (hstep.symm.trans hstop)
      rw [List.flatMap_nil, List.append_nil]
    · next hnext => exact absurd (hstep.symm.trans hnext) (by simp)
  | cons c cs ih =>
    rw [List.flatMap_cons, List.append_assoc] at h
    rw [List.flatMap_cons, List.length_append] at hroom
    obtain ⟨j, hj, hstep⟩ := @chunkStep_encode input _ out hlen i c h outMax hmax (by omega)
    rw [decodeChunks, if_pos hmore, List.flatMap_cons, ← List.append_assoc]
    split
    · next hover =>
      rw [hover] at hstep
      split at hstep
      · exact absurd hstep (by simp)
      · exact absurd hstep (by simp)
    · next i' out' hstop =>
      rw [hstop] at hstep
      split at hstep
      · next hfull =>
        -- the output is full, so no chunk is left
        obtain ⟨-, rfl⟩ := ChunkStep.stop.inj hstep
        have hnil : cs.flatMap Chunk.data = [] := List.length_eq_zero_iff.mp (by omega)
        rw [hnil, List.append_nil]
      · exact absurd hstep (by simp)
    · next i' out' hnext =>
      rw [hnext] at hstep
      split at hstep
      · exact absurd hstep (by simp)
      · obtain ⟨rfl, rfl⟩ := ChunkStep.next.inj hstep
        refine ih hj ?_ ?_
        · rw [List.length_append]
          omega
        · have hle := congrArg List.length hj
          simp only [List.length_drop, List.length_append, ChunkedBody.ending,
            List.length_cons] at hle
          omega

/-- A chunked body is decoded to the data of its chunks. -/
theorem httpDecodeChunked_encode (b : ChunkedBody) (hlen : b.encode.length < 2 ^ 32) {outMax : ℕ}
    (hmax : outMax < 2 ^ 32) (hroom : b.content.length ≤ outMax) :
    httpDecodeChunked b.encode (UInt32.ofNat b.encode.length) outMax = some b.content := by
  have hin : (UInt32.ofNat b.encode.length).toNat = b.encode.length := by
    rw [UInt32.toNat_ofNat']
    exact Nat.mod_eq_of_lt hlen
  have hall : (b.encode.take (UInt32.ofNat b.encode.length).toNat).drop 0 =
      b.chunks.flatMap Chunk.encode ++ b.ending := by
    rw [hin, List.take_length, List.drop_zero, ChunkedBody.encode]
  rw [httpDecodeChunked]
  exact decodeChunks_encode _ hmax hall (by rw [List.length_nil, Nat.zero_add]; exact hroom)

/-- Ten digits and two letters, the sizes with a leading zero and in either case, the second one
    with an extension, and a field in the trailer. -/
def exampleBody : ChunkedBody where
  chunks := [{
    digits := [(⟨0, zero_lt_sixteen⟩, false), (⟨10, by decide⟩, true)]
    ext := ⟨[], by simp, by decide⟩
    data := [48, 49, 50, 51, 52, 53, 54, 55, 56, 57]
    data_ne := by decide
    size_eq := rfl },
    { digits := [(⟨2, by decide⟩, false)]
      ext := ⟨[0x3b, 0x78], by simp, by decide⟩
      data := [65, 66]
      data_ne := by decide
      size_eq := rfl }]
  zeros := 1
  ext := ⟨[0x20], by simp, by decide⟩
  trailer := [0x78, 0x3a, 0x79, cr, lf, cr, lf]

theorem httpDecodeChunked_example :
    exampleBody.encode.length < 2 ^ 32 ∧
      httpDecodeChunked exampleBody.encode (UInt32.ofNat exampleBody.encode.length) 12 =
        some [48, 49, 50, 51, 52, 53, 54, 55, 56, 57, 65, 66] :=
  ⟨by decide, httpDecodeChunked_encode exampleBody (by decide) (by decide) (by decide)⟩

end AuroraOS.Net
