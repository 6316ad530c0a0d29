import AuroraOS.Crypto.Sha256Standard
import AuroraOS.Lib.KeyedHash
import AuroraOS.Tls.Handshake

/-!
# The keyed hash and the pseudorandom function

`kernel/hmac.c` with the buffers that its two functions fill and read. What they hold at the start
is arbitrary: a call may find there what another one left.

## Main definitions

- `hmacSha256InBuffers`, `tlsPrfInBuffers`

## Main results

- `hmac_eq`
- `tlsPrfInBuffers_eq`
-/

namespace AuroraOS.Tls

open Crypto Lib

section Model

/-- The buffers of `hmac_sha256` and `tls_prf`, of which `inner_buf` and `label_seed` are static. -/
structure Scratch where
  innerBuf : Buffer (64 + 16384)
  outerBuf : Buffer (64 + 32)
  labelSeed : Buffer 256
  aAndSeed : Buffer (32 + 256)

/-- `hmac_sha256`, `none` where a copy leaves its buffer. -/
def hmacSha256InBuffers (m : Scratch) (key data : List UInt8) :
    Option (List UInt8 × Scratch) := do
  let keyBlock : Buffer sha256BlockSize := ⟨List.replicate sha256BlockSize 0, rfl⟩
  let keyBlock ← keyBlock.store 0 (if key.length > sha256BlockSize then sha256 key else key)
  let ipad := keyBlock.bytes.map (· ^^^ 0x36)
  let opad := keyBlock.bytes.map (· ^^^ 0x5c)
  let innerLen := sha256BlockSize + data.length
  let innerBuf ← m.innerBuf.store 0 ipad
  let innerBuf ← innerBuf.store sha256BlockSize data
  let inner ← innerBuf.load 0 innerLen
  let innerHash := sha256 inner
  let outerBuf ← m.outerBuf.store 0 opad
  let outerBuf ← outerBuf.store sha256BlockSize innerHash
  let outer ← outerBuf.load 0 (sha256BlockSize + 32)
  some (sha256 outer, { m with innerBuf, outerBuf })

/-- The loop of `tls_prf`. -/
def prfLoop {outLen : ℕ} (secret : List UInt8) (labelSeedLen : ℕ) (m : Scratch)
    (a : List UInt8) (produced : ℕ) (out : Buffer outLen) : Option (Buffer outLen × Scratch) :=
  if produced < outLen then do
    let aAndSeed ← m.aAndSeed.store 0 a
    let labelSeed ← m.labelSeed.load 0 labelSeedLen
    let aAndSeed ← aAndSeed.store 32 labelSeed
    let text ← aAndSeed.load 0 (32 + labelSeedLen)
    let (chunk, m) ← hmacSha256InBuffers { m with aAndSeed } secret text
    let take := if outLen - produced > 32 then 32 else outLen - produced
    let out ← out.store produced (chunk.take take)
    let (nextA, m) ← hmacSha256InBuffers m secret a
    prfLoop secret labelSeedLen m nextA (produced + take) out
  else some (out, m)
termination_by outLen - produced
decreasing_by
  split <;> omega

/-- `tls_prf`, with the bytes of the label up to its end. -/
def tlsPrfInBuffers {outLen : ℕ} (m : Scratch) (secret label seed : List UInt8)
    (out : Buffer outLen) : Option (Buffer outLen × Scratch) := do
  let labelSeed ← m.labelSeed.store 0 label
  let labelSeed ← labelSeed.store label.length seed
  let m := { m with labelSeed }
  let labelSeedLen := label.length + seed.length
  let text ← m.labelSeed.load 0 labelSeedLen
  let (a, m) ← hmacSha256InBuffers m secret text
  prfLoop secret labelSeedLen m a 0 out

end Model

section Hmac

variable {key data : List UInt8}

/-- What `key_block` starts with: the key, or its hash where the key is too long. -/
theorem length_shortKey (key : List UInt8) :
    (if key.length > sha256BlockSize then sha256 key else key).length ≤ sha256BlockSize := by
  split
  · rw [length_sha256]
    decide
  · omega

theorem length_hmacKeyBlock (key : List UInt8) : (hmacKeyBlock key).length = sha256BlockSize := by
  have hlen := length_shortKey key
  rw [hmacKeyBlock, List.length_append, List.length_replicate]
  omega

theorem zipWith_replicate (f : UInt8 → UInt8 → UInt8) (l : List UInt8) (b : UInt8) :
    l.zipWith f (List.replicate l.length b) = l.map (f · b) := by
  induction l with
  | nil => rfl
  | cons a l ih =>
    rw [List.length_cons, List.replicate_succ, List.zipWith_cons_cons, ih, List.map_cons]

/-- The keyed hash of the model is the one of the standard. -/
theorem hmac_eq (key data : List UInt8) :
    hmac key data = KeyedHash.hmac SecureHash.sha256 64 key data := by
  have hhash : SecureHash.sha256 = sha256 := funext fun data => (sha256_eq data).symm
  have hpad : ∀ b, (hmacKeyBlock key).zipWith (· ^^^ ·) (List.replicate 64 b) =
      (hmacKeyBlock key).map (· ^^^ b) := by
    intro b
    have hlen : 64 = (hmacKeyBlock key).length := (length_hmacKeyBlock key).symm
    rw [hlen]
    exact zipWith_replicate _ _ b
  rw [hhash, hmac, ← hpad, ← hpad]
  rfl

theorem hmacSha256InBuffers_spec (m : Scratch) (key : List UInt8) (h : data.length ≤ 16384) :
    ∃ m', hmacSha256InBuffers m key data = some (hmac key data, m') ∧
      m'.labelSeed = m.labelSeed := by
  have hkey := length_shortKey key
  have hblock := length_hmacKeyBlock key
  obtain ⟨keyBlock, hstoreKey, hkeyBlock⟩ : ∃ keyBlock : Buffer sha256BlockSize,
      (⟨List.replicate sha256BlockSize 0, rfl⟩ : Buffer sha256BlockSize).store 0
        (if key.length > sha256BlockSize then sha256 key else key) = some keyBlock ∧
      keyBlock.bytes = hmacKeyBlock key := by
    obtain ⟨keyBlock, hstore, hbytes⟩ := Buffer.exists_store
      (⟨List.replicate sha256BlockSize 0, rfl⟩ : Buffer sha256BlockSize)
      (show 0 + _ ≤ sha256BlockSize from (Nat.zero_add _).trans_le hkey)
    refine ⟨keyBlock, hstore, ?_⟩
    rw [hbytes, List.take_zero, List.nil_append, List.drop_replicate, Nat.zero_add]
    rfl
  have hpad : ∀ b : UInt8, ((hmacKeyBlock key).map (· ^^^ b)).length = sha256BlockSize := fun b =>
    (List.length_map _).trans hblock
  obtain ⟨inner₁, hinner₁, hstart₁⟩ : ∃ buf',
      m.innerBuf.store 0 ((hmacKeyBlock key).map (· ^^^ 0x36)) = some buf' ∧
      buf'.StartsWith ((hmacKeyBlock key).map (· ^^^ 0x36)) :=
    m.innerBuf.startsWith_nil.store rfl (by rw [hpad]; decide)
  obtain ⟨inner₂, hinner₂, hstart₂⟩ := hstart₁.store (hpad _).symm
    (show sha256BlockSize + data.length ≤ 64 + 16384 from Nat.add_le_add_left h 64)
  obtain ⟨outer₁, houter₁, hfront₁⟩ : ∃ buf',
      m.outerBuf.store 0 ((hmacKeyBlock key).map (· ^^^ 0x5c)) = some buf' ∧
      buf'.StartsWith ((hmacKeyBlock key).map (· ^^^ 0x5c)) :=
    m.outerBuf.startsWith_nil.store rfl (by rw [hpad]; decide)
  obtain ⟨outer₂, houter₂, hfront₂⟩ := hfront₁.store (hpad _).symm
    (show sha256BlockSize + (sha256 ((hmacKeyBlock key).map (· ^^^ 0x36) ++ data)).length ≤ 64 + 32
      by rw [length_sha256]; decide)
  have hinner := hstart₂.load_front
    (show sha256BlockSize + data.length = _ by rw [List.length_append, hpad])
  have houter := hfront₂.load_front
    (show sha256BlockSize + 32 = _ by rw [List.length_append, hpad, length_sha256])
  refine ⟨{ m with innerBuf := inner₂, outerBuf := outer₂ }, ?_, rfl⟩
  rw [hmacSha256InBuffers]
  refine Option.bind_eq_some_iff.mpr ⟨keyBlock, hstoreKey, ?_⟩
  rw [hkeyBlock]
  refine Option.bind_eq_some_iff.mpr ⟨inner₁, hinner₁, ?_⟩
  refine Option.bind_eq_some_iff.mpr ⟨inner₂, hinner₂, ?_⟩
  refine Option.bind_eq_some_iff.mpr ⟨_, hinner, ?_⟩
  refine Option.bind_eq_some_iff.mpr ⟨outer₁, houter₁, ?_⟩
  refine Option.bind_eq_some_iff.mpr ⟨outer₂, houter₂, ?_⟩
  refine Option.bind_eq_some_iff.mpr ⟨_, houter, ?_⟩
  rw [hmac]

end Hmac

section Prf

variable {secret label seed labelSeed : List UInt8} {outLen : ℕ}

/-- From `A(i + 1)` on, with the blocks before it in the output. -/
theorem prfLoop_spec (m : Scratch) (i : ℕ) (out : Buffer outLen)
    (hlabel : m.labelSeed.StartsWith labelSeed) (hlen : labelSeed.length ≤ 256)
    (hout : out.StartsWith ((KeyedHash.pHashBlocks (hmac secret) labelSeed i).take outLen)) :
    ∃ out' m', prfLoop secret labelSeed.length m (KeyedHash.chain (hmac secret) labelSeed (i + 1))
        (min (32 * i) outLen) out = some (out', m') ∧
      out'.bytes = KeyedHash.pHash (hmac secret) labelSeed outLen := by
  have hmac32 : ∀ text, (hmac secret text).length = 32 := length_hmac secret
  have hblocks : (KeyedHash.pHashBlocks (hmac secret) labelSeed i).length = 32 * i :=
    KeyedHash.length_pHashBlocks hmac32 i
  induction hn : outLen - 32 * i using Nat.strongRecOn generalizing m i out with
  | ind n ih =>
    rw [prfLoop]
    by_cases hdone : min (32 * i) outLen < outLen
    · rw [if_pos hdone]
      have hmin : min (32 * i) outLen = 32 * i := by omega
      rw [hmin] at hdone ⊢
      have htake : (if outLen - 32 * i > 32 then 32 else outLen - 32 * i) =
          min 32 (outLen - 32 * i) := by
        split <;> omega
      have hchain : (KeyedHash.chain (hmac secret) labelSeed (i + 1)).length = 32 := hmac32 _
      obtain ⟨buf₁, hstore₁, hstart₁⟩ : ∃ buf',
          m.aAndSeed.store 0 (KeyedHash.chain (hmac secret) labelSeed (i + 1)) = some buf' ∧
          buf'.StartsWith (KeyedHash.chain (hmac secret) labelSeed (i + 1)) :=
        m.aAndSeed.startsWith_nil.store rfl (by rw [hchain]; decide)
      obtain ⟨buf₂, hstore₂, hstart₂⟩ := hstart₁.store hchain.symm
        (show 32 + labelSeed.length ≤ 32 + 256 from Nat.add_le_add_left hlen 32)
      have htext := hstart₂.load_front
        (show 32 + labelSeed.length = _ by rw [List.length_append, hchain])
      have htextLen : (KeyedHash.chain (hmac secret) labelSeed (i + 1) ++ labelSeed).length ≤
          16384 := by
        rw [List.length_append, hchain]
        omega
      obtain ⟨m₁, hchunk, hlabel₁⟩ :=
        hmacSha256InBuffers_spec { m with aAndSeed := buf₂ } secret htextLen
      obtain ⟨m₂, hnext, hlabel₂⟩ := hmacSha256InBuffers_spec m₁ secret
        (show (KeyedHash.chain (hmac secret) labelSeed (i + 1)).length ≤ 16384
          by rw [hchain]; decide)
      have hfront : ((KeyedHash.pHashBlocks (hmac secret) labelSeed i).take outLen).length =
          32 * i := by
        rw [List.length_take, hblocks]
        omega
      obtain ⟨out₁, hstore, hstart⟩ := hout.store hfront.symm
        (show 32 * i + ((hmac secret (KeyedHash.chain (hmac secret) labelSeed (i + 1) ++
            labelSeed)).take (min 32 (outLen - 32 * i))).length ≤ outLen
          by rw [List.length_take]; omega)
      -- the output now has one block more, as far as it fits
      have hblocks' : (KeyedHash.pHashBlocks (hmac secret) labelSeed i).take outLen ++
          (hmac secret (KeyedHash.chain (hmac secret) labelSeed (i + 1) ++ labelSeed)).take
            (min 32 (outLen - 32 * i)) =
          (KeyedHash.pHashBlocks (hmac secret) labelSeed (i + 1)).take outLen := by
        rw [KeyedHash.pHashBlocks_succ, List.take_append, hblocks, Nat.min_comm, ← hmac32,
          ← List.take_eq_take_min]
      rw [hblocks'] at hstart
      have hproduced : 32 * i + min 32 (outLen - 32 * i) = min (32 * (i + 1)) outLen := by omega
      obtain ⟨out', m', hrest, hbytes⟩ := ih (outLen - 32 * (i + 1)) (by omega) m₂ (i + 1) out₁
        (by rw [hlabel₂, hlabel₁]; exact hlabel) hstart
        (KeyedHash.length_pHashBlocks hmac32 _) rfl
      refine ⟨out', m', ?_, hbytes⟩
      refine Option.bind_eq_some_iff.mpr ⟨buf₁, hstore₁, ?_⟩
      refine Option.bind_eq_some_iff.mpr ⟨labelSeed, hlabel.load_front rfl, ?_⟩
      refine Option.bind_eq_some_iff.mpr ⟨buf₂, hstore₂, ?_⟩
      refine Option.bind_eq_some_iff.mpr ⟨_, htext, ?_⟩
      refine Option.bind_eq_some_iff.mpr ⟨_, hchunk, ?_⟩
      dsimp only
      rw [htake]
      refine Option.bind_eq_some_iff.mpr ⟨out₁, hstore, ?_⟩
      refine Option.bind_eq_some_iff.mpr ⟨_, hnext, ?_⟩
      dsimp only
      rw [hproduced]
      exact hrest
    · rw [if_neg hdone]
      have hle : outLen ≤ 32 * i := by omega
      refine ⟨out, m, rfl, ?_⟩
      rw [KeyedHash.pHash_eq_take hmac32 (by decide) hle]
      refine hout.bytes_eq ?_
      rw [List.length_take, hblocks]
      omega

theorem tlsPrfInBuffers_spec (m : Scratch) (out : Buffer outLen)
    (h : label.length + seed.length ≤ 256) :
    ∃ out' m', tlsPrfInBuffers m secret label seed out = some (out', m') ∧
      out'.bytes = KeyedHash.pHash (hmac secret) (label ++ seed) outLen := by
  obtain ⟨buf₁, hstore₁, hstart₁⟩ : ∃ buf', m.labelSeed.store 0 label = some buf' ∧
      buf'.StartsWith label :=
    m.labelSeed.startsWith_nil.store rfl (by omega)
  obtain ⟨buf₂, hstore₂, hstart₂⟩ := hstart₁.store rfl h
  have hlen : (label ++ seed).length ≤ 256 := by rwa [List.length_append]
  obtain ⟨m₁, hfirst, hlabel⟩ := hmacSha256InBuffers_spec { m with labelSeed := buf₂ } secret
    (show (label ++ seed).length ≤ 16384 by omega)
  have hstart : m₁.labelSeed.StartsWith (label ++ seed) := by
    rw [hlabel]
    exact hstart₂
  have hempty : out.StartsWith
      ((KeyedHash.pHashBlocks (hmac secret) (label ++ seed) 0).take outLen) := by
    rw [KeyedHash.pHashBlocks_zero, List.take_nil]
    exact out.startsWith_nil
  obtain ⟨out', m', hloop, hbytes⟩ := prfLoop_spec m₁ 0 out hstart hlen hempty
  have hzero : min (32 * 0) outLen = 0 := by omega
  rw [hzero, List.length_append] at hloop
  refine ⟨out', m', ?_, hbytes⟩
  rw [tlsPrfInBuffers]
  refine Option.bind_eq_some_iff.mpr ⟨buf₁, hstore₁, ?_⟩
  refine Option.bind_eq_some_iff.mpr ⟨buf₂, hstore₂, ?_⟩
  refine Option.bind_eq_some_iff.mpr
    ⟨label ++ seed, hstart₂.load_front (List.length_append).symm, ?_⟩
  refine Option.bind_eq_some_iff.mpr ⟨_, hfirst, ?_⟩
  exact hloop

/-- What the handshake computes is the expansion of the standard too. -/
theorem tlsPrf_eq (secret : List UInt8) (label : String) (seed : List UInt8) (outLen : ℕ) :
    tlsPrf secret label seed outLen =
      KeyedHash.pHash (hmac secret) (label.toUTF8.toList ++ seed) outLen := by
  have hchunks : ∀ (labelSeed : List UInt8) (n i : ℕ),
      KeyedHash.pHashBlocks (hmac secret) labelSeed i ++
        prfChunks secret labelSeed n (KeyedHash.chain (hmac secret) labelSeed (i + 1)) =
        KeyedHash.pHashBlocks (hmac secret) labelSeed (i + n) := by
    intro labelSeed n
    induction n with
    | zero => exact fun i => List.append_nil _
    | succ n ih =>
      intro i
      rw [prfChunks, ← List.append_assoc, ← KeyedHash.pHashBlocks_succ, Nat.add_comm n 1,
        ← Nat.add_assoc]
      exact ih (i + 1)
  have hrun := hchunks (label.toUTF8.toList ++ seed) ((outLen + 31) / 32) 0
  rw [Nat.zero_add ((outLen + 31) / 32), KeyedHash.pHashBlocks_zero, List.nil_append] at hrun
  rw [tlsPrf, KeyedHash.pHash_eq_take (length_hmac secret) (by decide)
    (show outLen ≤ 32 * ((outLen + 31) / 32) by omega), ← hrun]
  rfl

/-- In its buffers and as the handshake has it, what is computed is what the standards say. -/
theorem hmac_tlsPrf_standard {key data : List UInt8} (hdata : data.length ≤ 16384)
    (hlabel : label.length + seed.length ≤ 256) (m : Scratch) (out : Buffer outLen) :
    (∃ m', hmacSha256InBuffers m key data =
      some (KeyedHash.hmac SecureHash.sha256 64 key data, m')) ∧
    (∃ out' m', tlsPrfInBuffers m secret label seed out = some (out', m') ∧
      out'.bytes =
        KeyedHash.pHash (KeyedHash.hmac SecureHash.sha256 64 secret) (label ++ seed) outLen) ∧
    ∀ name : String, tlsPrf secret name seed outLen =
      KeyedHash.pHash (KeyedHash.hmac SecureHash.sha256 64 secret)
        (name.toUTF8.toList ++ seed) outLen := by
  obtain ⟨m', hrun, -⟩ := hmacSha256InBuffers_spec m key hdata
  have hmac' : hmac secret = KeyedHash.hmac SecureHash.sha256 64 secret :=
    funext fun text => hmac_eq secret text
  refine ⟨⟨m', by rw [hrun, hmac_eq]⟩, ?_⟩
  rw [← hmac']
  exact ⟨tlsPrfInBuffers_spec m out hlabel, fun name => tlsPrf_eq secret name seed outLen⟩

/-- Buffers that hold only zeros. -/
def Scratch.zero : Scratch :=
  ⟨⟨List.replicate _ 0, List.length_replicate⟩, ⟨List.replicate _ 0, List.length_replicate⟩,
    ⟨List.replicate _ 0, List.length_replicate⟩, ⟨List.replicate _ 0, List.length_replicate⟩⟩

theorem hmac_tlsPrf_standard_zero :
    (∃ m', hmacSha256InBuffers .zero [1] [2] =
      some (KeyedHash.hmac SecureHash.sha256 64 [1] [2], m')) ∧
    (∃ (out' : Buffer 5) (m' : Scratch),
      tlsPrfInBuffers .zero [1] [0x61] [3] ⟨[0, 0, 0, 0, 0], rfl⟩ = some (out', m') ∧
      out'.bytes = KeyedHash.pHash (KeyedHash.hmac SecureHash.sha256 64 [1]) ([0x61] ++ [3]) 5) ∧
    ∀ name : String, tlsPrf [1] name [3] 5 =
      KeyedHash.pHash (KeyedHash.hmac SecureHash.sha256 64 [1]) (name.toUTF8.toList ++ [3]) 5 :=
  hmac_tlsPrf_standard (by decide) (by decide) _ _

end Prf

end AuroraOS.Tls
