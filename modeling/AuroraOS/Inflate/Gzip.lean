import AuroraOS.Inflate.Extension
import AuroraOS.Inflate.Sizes

/-!
# The gzip container

`gzip_decompress` of `kernel/inflate.c`: a header with optional fields, the compressed data and a
trailer of 8 bytes. The position behind the header is a number of 32 bits.

## Main definitions

- `gzipDecompress`
- `GzipHeader` — a header with its fields
- `GzipFits`, `Within` — no sum wraps around, and nothing behind the data is read

## Main results

- `gzipDecompress_member`
- `gzipDecompress_unwraps`
-/

namespace AuroraOS.Inflate.Traced

open AuroraOS.Lib AuroraOS.Lib.Logged

/-- What a run of `gzip_decompress` logs. -/
inductive GzipEvent where
  /-- `data[i]` is read -/
  | read (i : ℕ)
  /-- two unsigned numbers are added; `n` is their exact sum -/
  | sum (n : ℕ)
  /-- the decompressor, whose data starts at `pos`, logs `e` -/
  | inflate (pos : ℕ) (e : Event)
deriving DecidableEq

/-- The sum in 32 bits. -/
def addPos (m n : ℕ) : Logged GzipEvent ℕ := do
  tell (.sum (m + n))
  pure ((m + n) % 2 ^ 32)

section

variable (data : List UInt8)

/-- `data[i]`. -/
def readAt (i : ℕ) : Logged GzipEvent UInt8 := do
  tell (.read i)
  require (i < data.length)
  pure (data.getD i 0)

/-- The field FEXTRA. -/
def skipExtra (len : ℕ) (flg : UInt8) (pos : ℕ) : Logged GzipEvent ℕ :=
  if flg &&& 0x04 ≠ 0 then do
    let stop ← addPos pos 2
    require (stop ≤ len)
    let low ← readAt data pos
    let next ← addPos pos 1
    let high ← readAt data next
    addPos pos (2 + (low.toNat ||| (high.toNat <<< 8)))
  else pure pos

/-- `while (pos < data_len && data[pos] != 0) pos++`, for at most `n` bytes. -/
def skipLoop (len : ℕ) : ℕ → ℕ → Logged GzipEvent ℕ
  | 0, pos => pure pos
  | n + 1, pos =>
    if pos < len then do
      let byte ← readAt data pos
      if byte ≠ 0 then do
        let pos ← addPos pos 1
        skipLoop len n pos
      else pure pos
    else pure pos

/-- The fields FNAME and FCOMMENT, each with its bit of the flags. -/
def skipString (len : ℕ) (flag : UInt8) (pos : ℕ) : Logged GzipEvent ℕ :=
  if flag ≠ 0 then do
    let pos ← skipLoop data len len pos
    addPos pos 1
  else pure pos

/-- The field FHCRC. -/
def skipHcrc (flg : UInt8) (pos : ℕ) : Logged GzipEvent ℕ :=
  if flg &&& 0x02 ≠ 0 then addPos pos 2 else pure pos

/-- The header: the position behind it. -/
def skipHeader (len : ℕ) : Logged GzipEvent ℕ := do
  require (18 ≤ len)
  let id₁ ← readAt data 0
  require (id₁ = 0x1F)
  let id₂ ← readAt data 1
  require (id₂ = 0x8B)
  let cm ← readAt data 2
  require (cm = 8)
  let flg ← readAt data 3
  let pos ← skipExtra data len flg 10
  let pos ← skipString data len (flg &&& 0x08) pos
  let pos ← skipString data len (flg &&& 0x10) pos
  skipHcrc flg pos

/-- `gzip_decompress` of `len` bytes; there is no value where the source returns 0 on an error. -/
def gzipDecompress (len outMax fuel : ℕ) : Logged GzipEvent (List UInt8) := do
  let pos ← skipHeader data len
  let stop ← addPos pos 8
  require (stop ≤ len)
  -- `data_len - pos - 8`
  let deflateLen := (len + 2 * 2 ^ 32 - pos - 8) % 2 ^ 32
  (inflateRaw (data.drop pos) deflateLen outMax fuel).mapLog (.inflate pos)

end

/-- A field is there if its bit of the flags is set. -/
def field (flag : UInt8) (bytes : List UInt8) : List UInt8 := if flag ≠ 0 then bytes else []

/-- A header; `flg` says which of its fields are there. -/
structure GzipHeader where
  flg : UInt8
  /-- MTIME, XFL and OS -/
  fixed : List UInt8
  extra : List UInt8
  name : List UInt8
  comment : List UInt8
  hcrc : List UInt8
  length_fixed : fixed.length = 6
  length_extra : extra.length < 2 ^ 16
  name_ne : 0 ∉ name
  comment_ne : 0 ∉ comment
  length_hcrc : hcrc.length = 2

namespace GzipHeader

variable (h : GzipHeader)

/-- XLEN and the bytes it counts. -/
def extraField : List UInt8 :=
  field (h.flg &&& 0x04)
    (UInt8.ofNat (h.extra.length % 256) :: UInt8.ofNat (h.extra.length / 256) :: h.extra)

def nameField : List UInt8 := field (h.flg &&& 0x08) (h.name ++ [0])

def commentField : List UInt8 := field (h.flg &&& 0x10) (h.comment ++ [0])

def hcrcField : List UInt8 := field (h.flg &&& 0x02) h.hcrc

def bytes : List UInt8 :=
  [0x1F, 0x8B, 8, h.flg] ++ h.fixed ++ h.extraField ++ h.nameField ++ h.commentField ++ h.hcrcField

end GzipHeader

variable {data : List UInt8} {len pos : ℕ}

theorem value_addPos (m n : ℕ) : (addPos m n).value = some ((m + n) % 2 ^ 32) := rfl

theorem value_readAt {i : ℕ} (h : i < data.length) :
    (readAt data i).value = some (data.getD i 0) := by
  rw [readAt, value_bind_eq_some]
  exact ⟨(), rfl, value_bind_eq_some.mpr ⟨(), by rw [value_require, if_pos h], rfl⟩⟩

section Member

variable {front rest : List UInt8}

theorem value_readAt_front {x : UInt8} (hdata : data = front ++ x :: rest) :
    (readAt data front.length).value = some x := by
  have hlt : front.length < data.length := by
    rw [hdata, List.length_append, List.length_cons]
    omega
  rw [value_readAt hlt, hdata, List.getD_append_right _ _ _ _ le_rfl, Nat.sub_self]
  rfl

theorem skipLoop_value {name : List UInt8} (hname : 0 ∉ name)
    (hdata : data = front ++ (name ++ 0 :: rest)) (hlen : data.length < 2 ^ 32) {n : ℕ}
    (hn : name.length < n) :
    (skipLoop data data.length n front.length).value = some (front.length + name.length) := by
  induction name generalizing front n with
  | nil =>
    obtain ⟨n, rfl⟩ : ∃ m, n = m + 1 := ⟨n - 1, by omega⟩
    have hlt : front.length < data.length := by simp [hdata]
    rw [skipLoop, if_pos hlt]
    exact value_bind_eq_some.mpr ⟨0, value_readAt_front hdata, rfl⟩
  | cons x name ih =>
    obtain ⟨n, rfl⟩ : ∃ m, n = m + 1 := ⟨n - 1, by omega⟩
    rw [List.length_cons] at hn
    have hlt : front.length + 1 < data.length := by simp [hdata]
    have hx : x ≠ 0 := fun h => hname (h ▸ List.mem_cons_self)
    have hrest := @ih (front ++ [x]) (fun h => hname (List.mem_cons_of_mem x h)) (by simp [hdata]) n
      (by omega)
    rw [List.length_append, List.length_singleton] at hrest
    rw [skipLoop, if_pos (by omega)]
    refine value_bind_eq_some.mpr ⟨x, value_readAt_front hdata, ?_⟩
    rw [if_pos hx]
    refine value_bind_eq_some.mpr ⟨_, value_addPos _ _, ?_⟩
    rw [Nat.mod_eq_of_lt (hlt.trans hlen), hrest, List.length_cons, Nat.add_assoc,
      Nat.add_comm 1]

/-- A field that is absent is not skipped, one that is present is skipped with its zero. -/
theorem skipString_value {flag : UInt8} {name : List UInt8} (hname : 0 ∉ name)
    (hdata : data = front ++ (field flag (name ++ [0]) ++ rest)) (hlen : data.length < 2 ^ 32) :
    (skipString data data.length flag front.length).value =
      some (front ++ field flag (name ++ [0])).length := by
  rw [skipString]
  by_cases hflag : flag ≠ 0
  · rw [field, if_pos hflag, List.append_assoc, List.singleton_append] at hdata
    have hlong : front.length + name.length + 1 ≤ data.length := by
      rw [hdata, List.length_append, List.length_append, List.length_cons]
      omega
    rw [if_pos hflag, field, if_pos hflag]
    refine value_bind_eq_some.mpr ⟨_, skipLoop_value hname hdata hlen (by omega), ?_⟩
    rw [value_addPos, Nat.mod_eq_of_lt (hlong.trans_lt hlen), List.length_append,
      List.length_append, List.length_singleton, Nat.add_assoc]
  · rw [if_neg hflag, field, if_neg hflag, List.append_nil]
    rfl

theorem skipExtra_value {flg : UInt8} {extra : List UInt8} (hextra : extra.length < 2 ^ 16)
    (hdata : data = front ++ (field (flg &&& 0x04)
      (UInt8.ofNat (extra.length % 256) :: UInt8.ofNat (extra.length / 256) :: extra) ++ rest))
    (hlen : data.length < 2 ^ 32) :
    (skipExtra data data.length flg front.length).value = some (front ++ field (flg &&& 0x04)
      (UInt8.ofNat (extra.length % 256) :: UInt8.ofNat (extra.length / 256) :: extra)).length := by
  rw [skipExtra]
  by_cases hflag : flg &&& 0x04 ≠ 0
  · rw [field, if_pos hflag] at hdata
    rw [if_pos hflag, field, if_pos hflag]
    have hlong : front.length + (2 + extra.length) ≤ data.length := by
      simp [hdata]
      omega
    have hlow := value_readAt_front hdata
    have hhigh : (readAt data (front.length + 1)).value =
      some (UInt8.ofNat (extra.length / 256)) := by
      have hsplit : data = (front ++ [UInt8.ofNat (extra.length % 256)]) ++
          UInt8.ofNat (extra.length / 256) :: (extra ++ rest) := by simp [hdata]
      have hread := value_readAt_front hsplit
      rwa [List.length_append, List.length_singleton] at hread
    have hxlen : (UInt8.ofNat (extra.length % 256)).toNat |||
        ((UInt8.ofNat (extra.length / 256)).toNat <<< 8) = extra.length := by
      rw [UInt8.toNat_ofNat', UInt8.toNat_ofNat', Nat.mod_mod,
        or_shiftLeft_of_lt (show extra.length % 256 < 2 ^ 8 from Nat.mod_lt _ (by decide))]
      omega
    refine value_bind_eq_some.mpr ⟨_, value_addPos _ _, value_bind_eq_some.mpr ⟨(), ?_, ?_⟩⟩
    · rw [value_require, Nat.mod_eq_of_lt (by omega), if_pos (by omega)]
    refine value_bind_eq_some.mpr ⟨_, hlow, value_bind_eq_some.mpr ⟨_, value_addPos _ _, ?_⟩⟩
    rw [Nat.mod_eq_of_lt (show front.length + 1 < 2 ^ 32 by omega)]
    refine value_bind_eq_some.mpr ⟨_, hhigh, ?_⟩
    rw [hxlen, value_addPos, Nat.mod_eq_of_lt (hlong.trans_lt hlen)]
    simp only [List.length_append, List.length_cons]
    congr 1
    omega
  · rw [if_neg hflag, field, if_neg hflag, List.append_nil]
    rfl

theorem skipHcrc_value {flg : UInt8} {hcrc : List UInt8} (hhcrc : hcrc.length = 2)
    (hdata : data = front ++ (field (flg &&& 0x02) hcrc ++ rest)) (hlen : data.length < 2 ^ 32) :
    (skipHcrc flg front.length).value = some (front ++ field (flg &&& 0x02) hcrc).length := by
  rw [skipHcrc]
  by_cases hflag : flg &&& 0x02 ≠ 0
  · rw [field, if_pos hflag] at hdata
    have hlong : front.length + 2 ≤ data.length := by
      simp [hdata, hhcrc]
    rw [if_pos hflag, field, if_pos hflag, value_addPos, Nat.mod_eq_of_lt (hlong.trans_lt hlen),
      List.length_append, hhcrc]
  · rw [if_neg hflag, field, if_neg hflag, List.append_nil]
    rfl

/-- The header is skipped. -/
theorem skipHeader_value (h : GzipHeader) (hdata : data = h.bytes ++ rest)
    (hlen : data.length < 2 ^ 32) (hmin : 18 ≤ data.length) :
    (skipHeader data data.length).value = some h.bytes.length := by
  have hfixed : ([0x1F, 0x8B, 8, h.flg] ++ h.fixed).length = 10 := by
    rw [List.length_append, h.length_fixed]
    rfl
  have hextra : (skipExtra data data.length h.flg 10).value = some
      ([0x1F, 0x8B, 8, h.flg] ++ h.fixed ++ h.extraField).length := by
    have hsplit : data = [0x1F, 0x8B, 8, h.flg] ++ h.fixed ++
        (h.extraField ++ (h.nameField ++ h.commentField ++ h.hcrcField ++ rest)) := by
      simp only [hdata, GzipHeader.bytes, List.append_assoc]
    have hskip := skipExtra_value h.length_extra hsplit hlen
    rwa [hfixed] at hskip
  have hname : (skipString data data.length (h.flg &&& 0x08)
      ([0x1F, 0x8B, 8, h.flg] ++ h.fixed ++ h.extraField).length).value = some
      ([0x1F, 0x8B, 8, h.flg] ++ h.fixed ++ h.extraField ++ h.nameField).length := by
    have hsplit : data = [0x1F, 0x8B, 8, h.flg] ++ h.fixed ++ h.extraField ++
        (h.nameField ++ (h.commentField ++ h.hcrcField ++ rest)) := by
      simp only [hdata, GzipHeader.bytes, List.append_assoc]
    exact skipString_value h.name_ne hsplit hlen
  have hcomment : (skipString data data.length (h.flg &&& 0x10)
      ([0x1F, 0x8B, 8, h.flg] ++ h.fixed ++ h.extraField ++ h.nameField).length).value = some
      ([0x1F, 0x8B, 8, h.flg] ++ h.fixed ++ h.extraField ++ h.nameField ++
        h.commentField).length := by
    have hsplit : data = [0x1F, 0x8B, 8, h.flg] ++ h.fixed ++ h.extraField ++ h.nameField ++
        (h.commentField ++ (h.hcrcField ++ rest)) := by
      simp only [hdata, GzipHeader.bytes, List.append_assoc]
    exact skipString_value h.comment_ne hsplit hlen
  have hhcrc : (skipHcrc h.flg ([0x1F, 0x8B, 8, h.flg] ++ h.fixed ++ h.extraField ++ h.nameField ++
      h.commentField).length).value = some h.bytes.length := by
    have hsplit : data = [0x1F, 0x8B, 8, h.flg] ++ h.fixed ++ h.extraField ++ h.nameField ++
        h.commentField ++ (h.hcrcField ++ rest) := by
      simp only [hdata, GzipHeader.bytes, List.append_assoc]
    exact skipHcrc_value h.length_hcrc hsplit hlen
  have hread : ∀ i < 4, (readAt data i).value = some ([0x1F, 0x8B, 8, h.flg].getD i 0) := by
    intro i hi
    rw [value_readAt (by omega), hdata]
    simp only [GzipHeader.bytes, List.append_assoc]
    rw [List.getD_append _ _ _ _ (by exact hi)]
  refine value_bind_eq_some.mpr ⟨(), by rw [value_require, if_pos hmin], ?_⟩
  refine value_bind_eq_some.mpr ⟨_, hread 0 (by decide), value_bind_eq_some.mpr ⟨(), rfl, ?_⟩⟩
  refine value_bind_eq_some.mpr ⟨_, hread 1 (by decide), value_bind_eq_some.mpr ⟨(), rfl, ?_⟩⟩
  refine value_bind_eq_some.mpr ⟨_, hread 2 (by decide), value_bind_eq_some.mpr ⟨(), rfl, ?_⟩⟩
  refine value_bind_eq_some.mpr ⟨_, hread 3 (by decide), value_bind_eq_some.mpr ⟨_, hextra, ?_⟩⟩
  exact value_bind_eq_some.mpr ⟨_, hname, value_bind_eq_some.mpr ⟨_, hcomment, hhcrc⟩⟩

/-- The decompressor gets what is between header and trailer. -/
theorem gzipDecompress_member (h : GzipHeader) {d trailer : List UInt8}
    (htrailer : trailer.length = 8)
    (hdata : data = h.bytes ++ (d ++ trailer)) (hlen : data.length < 2 ^ 32) (outMax fuel : ℕ) :
    (gzipDecompress data data.length outMax fuel).value =
        (inflateRaw (d ++ trailer) d.length outMax fuel).value ∧
      ∀ e ∈ (inflateRaw (d ++ trailer) d.length outMax fuel).log,
        .inflate h.bytes.length e ∈ (gzipDecompress data data.length outMax fuel).log := by
  have hsize : data.length = h.bytes.length + d.length + 8 := by
    rw [hdata, List.length_append, List.length_append, htrailer, Nat.add_assoc]
  have hmin : 10 ≤ h.bytes.length := by
    simp only [GzipHeader.bytes, List.length_append, h.length_fixed, List.length_cons,
      List.length_nil]
    omega
  have hskip := skipHeader_value h hdata hlen (by omega)
  have hpos : (addPos h.bytes.length 8).value = some (h.bytes.length + 8) := by
    rw [value_addPos, Nat.mod_eq_of_lt (by omega)]
  have hroom : (require (h.bytes.length + 8 ≤ data.length) : Logged GzipEvent Unit).value =
    some () := by
    rw [value_require, if_pos (by omega)]
  have hdeflate : (data.length + 2 * 2 ^ 32 - h.bytes.length - 8) % 2 ^ 32 = d.length := by
    omega
  have hdrop : data.drop h.bytes.length = d ++ trailer := by rw [hdata, List.drop_left]
  constructor
  · rw [gzipDecompress, value_bind, hskip, Option.bind_some, value_bind, hpos, Option.bind_some,
      value_bind, hroom, Option.bind_some, hdeflate, hdrop]
    rfl
  · intro e he
    refine mem_log_bind.mpr (Or.inr ⟨_, hskip, mem_log_bind.mpr (Or.inr ⟨_, hpos, ?_⟩)⟩)
    refine mem_log_bind.mpr (Or.inr ⟨(), hroom, ?_⟩)
    simp only [hdeflate, hdrop]
    exact List.mem_map_of_mem he

end Member

section Bounds

/-- No sum wraps around, and no header asks for more than 318 code lengths. -/
def GzipFits : GzipEvent → Prop
  | .sum n => n < 2 ^ 32
  | .inflate _ e => Fits e
  | .read _ => True

/-- What is read lies in the first `len` bytes. -/
def Within (len : ℕ) : GzipEvent → Prop
  | .read i => i < len
  | .inflate pos (.data i) | .inflate pos (.stored i) => pos + i < len
  | _ => True

instance : DecidablePred GzipFits
  | .sum n => inferInstanceAs (Decidable (n < 2 ^ 32))
  | .inflate _ e => inferInstanceAs (Decidable (Fits e))
  | .read _ => isTrue trivial

theorem addPos_ensures (m n : ℕ) :
    Ensures GzipFits (Within len) (addPos m n) fun r => r = m + n := by
  have hsum : Within len (.sum (m + n)) := trivial
  refine Ensures.bind (Ensures.tell fun _ => hsum) fun _ h => ?_
  exact Ensures.pure (Nat.mod_eq_of_lt h)

theorem readAt_ensures {i : ℕ} (h : i < len) :
    Ensures GzipFits (Within len) (readAt data i) fun _ => True := by
  have hread : Within len (.read i) := h
  refine Ensures.bind (Ensures.tell fun _ => hread) fun _ _ => ?_
  exact Ensures.bind Ensures.require fun _ _ => Ensures.pure trivial

theorem skipLoop_ensures (n pos : ℕ) :
    Ensures GzipFits (Within len) (skipLoop data len n pos) fun _ => True := by
  induction n generalizing pos with
  | zero => exact Ensures.pure trivial
  | succ n ih =>
    rw [skipLoop]
    split
    · next hlt =>
      refine Ensures.bind (readAt_ensures hlt) fun byte _ => ?_
      split
      · exact Ensures.bind (addPos_ensures _ _) fun pos _ => ih pos
      · exact Ensures.pure trivial
    · exact Ensures.pure trivial

theorem skipString_ensures (flag : UInt8) (pos : ℕ) :
    Ensures GzipFits (Within len) (skipString data len flag pos) fun _ => True := by
  rw [skipString]
  split
  · refine Ensures.bind (skipLoop_ensures _ _) fun pos _ => ?_
    exact (addPos_ensures _ _).weaken fun _ _ => trivial
  · exact Ensures.pure trivial

theorem skipExtra_ensures (flg : UInt8) (pos : ℕ) :
    Ensures GzipFits (Within len) (skipExtra data len flg pos) fun _ => True := by
  rw [skipExtra]
  split
  · refine Ensures.bind (addPos_ensures _ _) fun stop hstop => ?_
    refine Ensures.bind Ensures.require fun _ hinside => ?_
    refine Ensures.bind (readAt_ensures (by omega)) fun low _ => ?_
    refine Ensures.bind (addPos_ensures _ _) fun next hnext => ?_
    refine Ensures.bind (readAt_ensures (by omega)) fun high _ => ?_
    exact (addPos_ensures _ _).weaken fun _ _ => trivial
  · exact Ensures.pure trivial

theorem skipHcrc_ensures (flg : UInt8) (pos : ℕ) :
    Ensures GzipFits (Within len) (skipHcrc flg pos) fun _ => True := by
  rw [skipHcrc]
  split
  · exact (addPos_ensures _ _).weaken fun _ _ => trivial
  · exact Ensures.pure trivial

theorem skipHeader_ensures :
    Ensures GzipFits (Within len) (skipHeader data len) fun _ => True := by
  refine Ensures.bind Ensures.require fun _ hmin => ?_
  have hread : ∀ i < 4, Ensures GzipFits (Within len) (readAt data i) fun _ => True :=
    fun i hi => readAt_ensures (by omega)
  refine Ensures.bind (hread 0 (by decide)) fun id₁ _ => Ensures.bind Ensures.require fun _ _ => ?_
  refine Ensures.bind (hread 1 (by decide)) fun id₂ _ => Ensures.bind Ensures.require fun _ _ => ?_
  refine Ensures.bind (hread 2 (by decide)) fun cm _ => Ensures.bind Ensures.require fun _ _ => ?_
  refine Ensures.bind (hread 3 (by decide)) fun flg _ => ?_
  refine Ensures.bind (skipExtra_ensures _ _) fun pos _ => ?_
  refine Ensures.bind (skipString_ensures _ _) fun pos _ => ?_
  exact Ensures.bind (skipString_ensures _ _) fun pos _ => skipHcrc_ensures _ _

theorem gzipDecompress_ensures {outMax fuel : ℕ} (hlen : len < 2 ^ 32)
    (hfuel : 8 * len + outMax < fuel) :
    Ensures GzipFits (Within len) (gzipDecompress data len outMax fuel) fun _ => True := by
  refine Ensures.bind skipHeader_ensures fun pos _ => ?_
  refine Ensures.bind (addPos_ensures _ _) fun stop hstop => ?_
  refine Ensures.bind Ensures.require fun _ hinside => ?_
  have hdeflate : (len + 2 * 2 ^ 32 - pos - 8) % 2 ^ 32 = len - pos - 8 := by omega
  simp only [hdeflate]
  refine Ensures.mapLog (A := Fits) (G := Confined (len - pos - 8) outMax) (fun _ h => h)
    (fun e he => ?_) ((inflateRaw_ensures (by omega)).weaken fun _ _ => trivial)
  cases e with
  | data i | stored i =>
    have hi : i < len - pos - 8 := he
    change pos + i < len
    omega
  | _ => trivial

end Bounds

section Sizes

/-- No header of a dynamic block asks for more than 318 code lengths. -/
def GzipHeaderFits : GzipEvent → Prop
  | .inflate _ e => HeaderFits e
  | .read _ | .sum _ => True

instance : DecidablePred GzipHeaderFits
  | .inflate _ e => inferInstanceAs (Decidable (HeaderFits e))
  | .read _ | .sum _ => isTrue trivial

variable {A : GzipEvent → Prop}

theorem addPos_fits {m n : ℕ} (h : m + n < 2 ^ 32) :
    Ensures A GzipFits (addPos m n) fun r => r = m + n := by
  refine Ensures.bind (Ensures.tell fun _ => h) fun _ _ => ?_
  exact Ensures.pure (Nat.mod_eq_of_lt h)

theorem readAt_fits (i : ℕ) : Ensures A GzipFits (readAt data i) fun _ => True := by
  have hread : GzipFits (.read i) := trivial
  refine Ensures.bind (Ensures.tell fun _ => hread) fun _ _ => ?_
  exact Ensures.bind Ensures.require fun _ _ => Ensures.pure trivial

theorem skipLoop_fits (hlen : len < 2 ^ 32) (n pos : ℕ) :
    Ensures A GzipFits (skipLoop data len n pos) fun r => r ≤ max len pos := by
  induction n generalizing pos with
  | zero => exact Ensures.pure (le_max_right _ _)
  | succ n ih =>
    rw [skipLoop]
    split
    · refine Ensures.bind (readAt_fits _) fun byte _ => ?_
      split
      · refine Ensures.bind (addPos_fits (by omega)) fun pos' hpos' => ?_
        exact (ih pos').weaken fun r hr => by omega
      · exact Ensures.pure (le_max_right _ _)
    · exact Ensures.pure (le_max_right _ _)

theorem skipString_fits (flag : UInt8) {pos : ℕ} (h : max len pos + 1 < 2 ^ 32) :
    Ensures A GzipFits (skipString data len flag pos) fun r => r ≤ max len pos + 1 := by
  rw [skipString]
  split
  · refine Ensures.bind (skipLoop_fits (by omega) _ _) fun pos' hpos' => ?_
    exact (addPos_fits (by omega)).weaken fun r hr => by omega
  · exact Ensures.pure (by omega)

theorem skipExtra_fits (flg : UInt8) {pos : ℕ} (h : pos + 2 ^ 17 < 2 ^ 32) :
    Ensures A GzipFits (skipExtra data len flg pos) fun r => r ≤ pos + 2 + 2 ^ 16 := by
  rw [skipExtra]
  split
  · refine Ensures.bind (addPos_fits (by omega)) fun stop _ => ?_
    refine Ensures.bind Ensures.require fun _ _ => ?_
    refine Ensures.bind (readAt_fits _) fun low _ => ?_
    refine Ensures.bind (addPos_fits (by omega)) fun next _ => ?_
    refine Ensures.bind (readAt_fits _) fun high _ => ?_
    have hlow := low.toNat_lt
    have hhigh := high.toNat_lt
    rw [or_shiftLeft_of_lt (show low.toNat < 2 ^ 8 from hlow)]
    exact (addPos_fits (by omega)).weaken fun r hr => by omega
  · exact Ensures.pure (by omega)

/-- The position behind the header. -/
theorem skipHeader_fits (h : len + 2 ^ 17 < 2 ^ 32) :
    Ensures A GzipFits (skipHeader data len) fun r => r + 8 < 2 ^ 32 := by
  refine Ensures.bind Ensures.require fun _ _ => ?_
  refine Ensures.bind (readAt_fits _) fun id₁ _ => Ensures.bind Ensures.require fun _ _ => ?_
  refine Ensures.bind (readAt_fits _) fun id₂ _ => Ensures.bind Ensures.require fun _ _ => ?_
  refine Ensures.bind (readAt_fits _) fun cm _ => Ensures.bind Ensures.require fun _ _ => ?_
  refine Ensures.bind (readAt_fits _) fun flg _ => ?_
  refine Ensures.bind (skipExtra_fits _ (by omega)) fun pos hpos => ?_
  refine Ensures.bind (skipString_fits _ (by omega)) fun pos' hpos' => ?_
  refine Ensures.bind (skipString_fits _ (by omega)) fun pos'' hpos'' => ?_
  rw [skipHcrc]
  split
  · exact (addPos_fits (by omega)).weaken fun r hr => by omega
  · exact Ensures.pure (by omega)

theorem gzipDecompress_fits {outMax fuel : ℕ} (hsize : len + 2 * outMax + 2 ^ 17 < 2 ^ 32)
    (hfuel : outMax < fuel) :
    Ensures GzipHeaderFits GzipFits (gzipDecompress data len outMax fuel) fun _ => True := by
  refine Ensures.bind (skipHeader_fits (by omega)) fun pos hpos => ?_
  refine Ensures.bind (addPos_fits hpos) fun stop hstop => ?_
  refine Ensures.bind Ensures.require fun _ hinside => ?_
  have hdeflate : (len + 2 * 2 ^ 32 - pos - 8) % 2 ^ 32 ≤ len := by omega
  exact Ensures.mapLog (fun _ h => h) (fun _ h => h) (inflateRaw_fits (by omega) hfuel)

/-- Within such sizes, or where no sum wraps around, `gzip_decompress` stays within its data, and a
    member of any header decodes to what its compressed data decodes to. -/
theorem gzipDecompress_unwraps (data : List UInt8) (outMax : ℕ) {fuel : ℕ}
    (hlen : data.length < 2 ^ 32) (hfuel : 8 * data.length + outMax < fuel)
    (hheaders : ∀ e ∈ (gzipDecompress data data.length outMax fuel).log, GzipHeaderFits e)
    (hsums : data.length + 2 * outMax + 2 ^ 17 < 2 ^ 32 ∨
      ∀ e ∈ (gzipDecompress data data.length outMax fuel).log, GzipFits e) :
    (∀ e ∈ (gzipDecompress data data.length outMax fuel).log, Within data.length e) ∧
      ∀ (h : GzipHeader) (d trailer : List UInt8), trailer.length = 8 →
        data = h.bytes ++ (d ++ trailer) →
        (gzipDecompress data data.length outMax fuel).value =
          (inflateRaw d d.length outMax fuel).value := by
  have hfits : ∀ e ∈ (gzipDecompress data data.length outMax fuel).log, GzipFits e := by
    obtain hsize | hfits := hsums
    · exact (gzipDecompress_fits hsize (by omega) hheaders).1
    · exact hfits
  refine ⟨(gzipDecompress_ensures hlen hfuel hfits).1, fun h d trailer htrailer hdata => ?_⟩
  obtain ⟨hvalue, hlog⟩ := gzipDecompress_member h htrailer hdata hlen outMax fuel
  have hd : d.length ≤ data.length := by
    rw [hdata, List.length_append, List.length_append]
    omega
  -- the bytes of the trailer are out of reach
  have hfollows := inflateRaw_follows d trailer outMax fuel
  have hconfined : Ensures Fits (Confined d.length outMax)
      (inflateRaw (d ++ trailer) d.length outMax fuel) fun r => r.length ≤ outMax :=
    inflateRaw_ensures (by omega)
  have hinner := hconfined fun e he => hfits _ (hlog e he)
  have hbelow : ∀ e ∈ (inflateRaw (d ++ trailer) d.length outMax fuel).log,
    StoredBelow d.length e := by
    intro e he
    cases e with
    | stored i => exact hinner.1 _ he
    | _ => trivial
  rw [hvalue]
  refine Option.ext fun out => ?_
  rw [hfollows out]
  exact (and_iff_left hbelow).symm

/-- Four letters, with an extra field, a name, a comment and a checksum of the header. -/
def fullMember : List UInt8 :=
  [0x1F, 0x8B, 8, 0x1E, 0, 0, 0, 0, 0, 3] ++ [2, 0, 0x41, 0x42] ++ [0x61, 0] ++
    [0x62, 0x63, 0] ++ [0x17, 0x49] ++ [0x4B, 4, 2, 0] ++ [69, 229, 152, 173, 4, 0, 0, 0]

theorem fullMember_unwraps :
    (∀ e ∈ (gzipDecompress fullMember 33 16 281).log, Within 33 e) ∧
      ∀ (h : GzipHeader) (d trailer : List UInt8), trailer.length = 8 →
        fullMember = h.bytes ++ (d ++ trailer) →
        (gzipDecompress fullMember 33 16 281).value = (inflateRaw d d.length 16 281).value := by
  have hheaders : (gzipDecompress fullMember 33 16 281).log.all
      (decide <| GzipHeaderFits ·) = true := by
    decide +kernel
  exact gzipDecompress_unwraps fullMember 16 (by decide) (by decide)
    (fun e he => of_decide_eq_true (List.all_eq_true.mp hheaders e he)) (Or.inl (by decide))

end Sizes

section Unterminated

theorem skipLoop_unterminated {front name : List UInt8} (hname : 0 ∉ name)
    (hdata : data = front ++ name) (hlen : data.length < 2 ^ 32) {n : ℕ} (hn : name.length ≤ n) :
    (skipLoop data data.length n front.length).value = some data.length := by
  induction name generalizing front n with
  | nil =>
    have hfront : front.length = data.length := by rw [hdata, List.append_nil]
    cases n with
    | zero => rw [skipLoop, hfront]; rfl
    | succ n => rw [skipLoop, if_neg (by omega), hfront]; rfl
  | cons x name ih =>
    obtain ⟨n, rfl⟩ : ∃ m, n = m + 1 := ⟨n - 1, by rw [List.length_cons] at hn; omega⟩
    rw [List.length_cons] at hn
    have hlt : front.length + 1 ≤ data.length := by simp [hdata]
    have hx : x ≠ 0 := fun h => hname (h ▸ List.mem_cons_self)
    have hrest := @ih (front ++ [x]) (fun h => hname (List.mem_cons_of_mem x h)) (by simp [hdata]) n
      (by omega)
    rw [List.length_append, List.length_singleton] at hrest
    rw [skipLoop, if_pos (by omega)]
    refine value_bind_eq_some.mpr ⟨x, value_readAt_front hdata, ?_⟩
    rw [if_pos hx]
    refine value_bind_eq_some.mpr ⟨_, value_addPos _ _, ?_⟩
    rw [Nat.mod_eq_of_lt (hlt.trans_lt hlen), hrest]

/-- A header with the flag FNAME and a name that does not end before the data does. -/
def unterminated (n : ℕ) : List UInt8 :=
  [0x1F, 0x8B, 8, 0x08, 0, 0, 0, 0, 0, 0] ++ List.replicate n 1

theorem length_unterminated (n : ℕ) : (unterminated n).length = 10 + n := by
  rw [unterminated, List.length_append, List.length_replicate]
  rfl

theorem skipHeader_unterminated {n : ℕ} (hmin : 8 ≤ n) (hmax : 10 + n + 1 < 2 ^ 32) :
    (skipHeader (unterminated n) (unterminated n).length).value = some (10 + n + 1) := by
  have hlen := length_unterminated n
  have hread : ∀ i < 4, (readAt (unterminated n) i).value =
      some ([0x1F, 0x8B, 8, 0x08, 0, 0, 0, 0, 0, 0].getD i 0) := by
    intro i hi
    rw [value_readAt (by omega), unterminated, List.getD_append _ _ _ _ (by simp; omega)]
  have hname : (skipString (unterminated n) (unterminated n).length (0x08 &&& 0x08) 10).value =
      some (10 + n + 1) := by
    have hskip := @skipLoop_unterminated (unterminated n) [0x1F, 0x8B, 8, 0x08, 0, 0, 0, 0, 0, 0]
      (List.replicate n 1) (fun h => absurd (List.mem_replicate.mp h).2 (by decide)) rfl (by omega)
      (unterminated n).length (by rw [List.length_replicate]; omega)
    refine value_bind_eq_some.mpr ⟨_, hskip, ?_⟩
    rw [value_addPos, hlen, Nat.mod_eq_of_lt hmax]
  refine value_bind_eq_some.mpr ⟨(), by rw [value_require, if_pos (by omega)], ?_⟩
  refine value_bind_eq_some.mpr ⟨_, hread 0 (by decide), value_bind_eq_some.mpr ⟨(), rfl, ?_⟩⟩
  refine value_bind_eq_some.mpr ⟨_, hread 1 (by decide), value_bind_eq_some.mpr ⟨(), rfl, ?_⟩⟩
  refine value_bind_eq_some.mpr ⟨_, hread 2 (by decide), value_bind_eq_some.mpr ⟨(), rfl, ?_⟩⟩
  refine value_bind_eq_some.mpr ⟨_, hread 3 (by decide), value_bind_eq_some.mpr ⟨10, rfl, ?_⟩⟩
  exact value_bind_eq_some.mpr ⟨_, hname, value_bind_eq_some.mpr ⟨_, rfl, rfl⟩⟩

/-- The first bit is taken from the first byte, whether it is there or not. -/
theorem inflateRaw_reads_first {bytes : List UInt8} (hlen : 0 < len) (outMax fuel : ℕ) :
    .data 0 ∈ (inflateRaw bytes len outMax (fuel + 1)).log := by
  have hpeek : .data 0 ∈ (peekBit bytes len brInit).log := by
    rw [peekBit, if_pos (show brInit.bytePos < len from hlen)]
    exact mem_log_bind.mpr (Or.inl (mem_log_readByte.mpr rfl))
  refine mem_log_bind.mpr (Or.inl (mem_log_bind.mpr (Or.inr ⟨(), rfl, ?_⟩)))
  exact mem_log_bind.mpr (Or.inl hpeek)

/-- With 2³² - 2 bytes the position behind the name passes the last test, and the decompressor reads
    behind the data. -/
theorem unterminated_not_within :
    ∃ data : List UInt8, data.length < 2 ^ 32 ∧ ∀ outMax fuel,
      ∃ e ∈ (gzipDecompress data data.length outMax (fuel + 1)).log, ¬ Within data.length e := by
  obtain ⟨n, hn⟩ : ∃ n, 12 + n = 2 ^ 32 := ⟨2 ^ 32 - 12, by decide⟩
  have hlen := length_unterminated n
  have hskip := skipHeader_unterminated (n := n) (by omega) (by omega)
  refine ⟨unterminated n, by omega, fun outMax fuel =>
    ⟨.inflate (10 + n + 1) (.data 0), ?_, fun h => ?_⟩⟩
  · have hpos : (addPos (10 + n + 1) 8).value = some 7 := by
      rw [value_addPos]
      congr 1
      omega
    have hroom : (require (7 ≤ (unterminated n).length) : Logged GzipEvent Unit).value =
      some () := by
      rw [value_require, if_pos (by omega)]
    refine mem_log_bind.mpr (Or.inr ⟨_, hskip, mem_log_bind.mpr (Or.inr ⟨_, hpos, ?_⟩)⟩)
    refine mem_log_bind.mpr (Or.inr ⟨(), hroom, List.mem_map_of_mem ?_⟩)
    exact inflateRaw_reads_first (by omega) _ _
  · have hlt : 10 + n + 1 + 0 < (unterminated n).length := h
    omega

end Unterminated

end AuroraOS.Inflate.Traced
