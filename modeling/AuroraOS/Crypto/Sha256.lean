import Mathlib.Data.List.Basic
import Mathlib.Tactic.Common

/-!
# SHA-256 and HMAC

`kernel/sha256.c` and the part of `kernel/hmac.c` that the TLS record layer uses. The static
buffer of `hmac_sha256` has a fixed size and no check, so the model returns `none` where the copy
would run past its end.

## Main definitions

- `sha256`, `hmacSha256`
-/

namespace AuroraOS.Crypto

set_option maxRecDepth 4096

/-- `sha256_k`. -/
def sha256K : Array UInt32 :=
  #[0x428a2f98, 0x71374491, 0xb5c0fbcf, 0xe9b5dba5, 0x3956c25b, 0x59f111f1, 0x923f82a4, 0xab1c5ed5,
    0xd807aa98, 0x12835b01, 0x243185be, 0x550c7dc3, 0x72be5d74, 0x80deb1fe, 0x9bdc06a7, 0xc19bf174,
    0xe49b69c1, 0xefbe4786, 0x0fc19dc6, 0x240ca1cc, 0x2de92c6f, 0x4a7484aa, 0x5cb0a9dc, 0x76f988da,
    0x983e5152, 0xa831c66d, 0xb00327c8, 0xbf597fc7, 0xc6e00bf3, 0xd5a79147, 0x06ca6351, 0x14292967,
    0x27b70a85, 0x2e1b2138, 0x4d2c6dfc, 0x53380d13, 0x650a7354, 0x766a0abb, 0x81c2c92e, 0x92722c85,
    0xa2bfe8a1, 0xa81a664b, 0xc24b8b70, 0xc76c51a3, 0xd192e819, 0xd6990624, 0xf40e3585, 0x106aa070,
    0x19a4c116, 0x1e376c08, 0x2748774c, 0x34b0bcb5, 0x391c0cb3, 0x4ed8aa4a, 0x5b9cca4f, 0x682e6ff3,
    0x748f82ee, 0x78a5636f, 0x84c87814, 0x8cc70208, 0x90befffa, 0xa4506ceb, 0xbef9a3f7, 0xc67178f2]

/-- `rotr32`. -/
def rotr32 (x : UInt32) (n : UInt32) : UInt32 := (x >>> n) ||| (x <<< (32 - n))

/-- A word from four bytes, the highest first. -/
def wordOfBytes (b : List UInt8) (i : ℕ) : UInt32 :=
  ((b.getD i 0).toUInt32 <<< 24) ||| ((b.getD (i + 1) 0).toUInt32 <<< 16) |||
    ((b.getD (i + 2) 0).toUInt32 <<< 8) ||| (b.getD (i + 3) 0).toUInt32

/-- The four bytes of a word, the highest first. -/
def bytesOfWord (x : UInt32) : List UInt8 :=
  [(x >>> 24).toUInt8, (x >>> 16).toUInt8, (x >>> 8).toUInt8, x.toUInt8]

/-- The eight words of the hash state. -/
structure Sha256State where
  a : UInt32
  b : UInt32
  c : UInt32
  d : UInt32
  e : UInt32
  f : UInt32
  g : UInt32
  h : UInt32

/-- The initial state. -/
def Sha256State.init : Sha256State :=
  ⟨0x6a09e667, 0xbb67ae85, 0x3c6ef372, 0xa54ff53a, 0x510e527f, 0x9b05688c, 0x1f83d9ab, 0x5be0cd19⟩

/-- One turn of the loop that extends the message schedule. -/
def scheduleTurn (w : Array UInt32) (i : ℕ) : Array UInt32 :=
  let w15 := w.getD (i - 15) 0
  let w2 := w.getD (i - 2) 0
  let s0 := rotr32 w15 7 ^^^ rotr32 w15 18 ^^^ (w15 >>> 3)
  let s1 := rotr32 w2 17 ^^^ rotr32 w2 19 ^^^ (w2 >>> 10)
  w.push (w.getD (i - 16) 0 + s0 + w.getD (i - 7) 0 + s1)

/-- The message schedule `w` of `sha256_transform`. -/
def sha256Schedule (block : List UInt8) : Array UInt32 :=
  (List.range' 16 48).foldl scheduleTurn
    ((List.range 16).map fun i => wordOfBytes block (i * 4)).toArray

/-- One round of `sha256_transform`, with `sha256_k[i]` and `w[i]`. -/
def sha256Round (st : Sha256State) (k w : UInt32) : Sha256State :=
  let s1 := rotr32 st.e 6 ^^^ rotr32 st.e 11 ^^^ rotr32 st.e 25
  let ch := (st.e &&& st.f) ^^^ (~~~ st.e &&& st.g)
  let temp1 := st.h + s1 + ch + k + w
  let s0 := rotr32 st.a 2 ^^^ rotr32 st.a 13 ^^^ rotr32 st.a 22
  let maj := (st.a &&& st.b) ^^^ (st.a &&& st.c) ^^^ (st.b &&& st.c)
  let temp2 := s0 + maj
  ⟨temp1 + temp2, st.a, st.b, st.c, st.d + temp1, st.e, st.f, st.g⟩

/-- `sha256_transform`. -/
def sha256Transform (st : Sha256State) (block : List UInt8) : Sha256State :=
  let w := sha256Schedule block
  let r := (List.range 64).foldl (fun r i => sha256Round r (sha256K.getD i 0) (w.getD i 0)) st
  ⟨st.a + r.a, st.b + r.b, st.c + r.c, st.d + r.d, st.e + r.e, st.f + r.f, st.g + r.g, st.h + r.h⟩

/-- The loops over the 64-byte blocks of a buffer. -/
def sha256Blocks (st : Sha256State) (bytes : List UInt8) (count : ℕ) : Sha256State :=
  (List.range count).foldl (fun st i => sha256Transform st ((bytes.drop (i * 64)).take 64)) st

/-- `pad_to`, where the length suffix starts in the last one or two blocks. -/
def padTo (tailLen : ℕ) : ℕ := if tailLen + 1 ≤ 56 then 56 else 120

/-- The buffer `tail`: what is left after the full blocks, the marker, zeros and the bit length. -/
def sha256Tail (data : List UInt8) : List UInt8 :=
  let tail := data.drop (data.length / 64 * 64)
  let bitLen := UInt64.ofNat data.length * 8
  tail ++ [0x80] ++ List.replicate (padTo tail.length - (tail.length + 1)) 0 ++
    (List.range 8).map fun i => (bitLen >>> (56 - UInt64.ofNat i * 8)).toUInt8

/-- `sha256`. -/
def sha256 (data : List UInt8) : List UInt8 :=
  let fullBlocks := data.length / 64
  let tailLen := data.length - fullBlocks * 64
  let st := sha256Blocks .init data fullBlocks
  let st := sha256Blocks st (sha256Tail data) ((padTo tailLen + 8) / 64)
  [st.a, st.b, st.c, st.d, st.e, st.f, st.g, st.h].flatMap bytesOfWord

@[simp]
theorem length_sha256 (data : List UInt8) : (sha256 data).length = 32 := by
  simp [sha256, bytesOfWord]

example : sha256 [0x61, 0x62, 0x63] =
    [0xba, 0x78, 0x16, 0xbf, 0x8f, 0x01, 0xcf, 0xea, 0x41, 0x41, 0x40, 0xde, 0x5d, 0xae, 0x22, 0x23,
      0xb0, 0x03, 0x61, 0xa3, 0x96, 0x17, 0x7a, 0x9c, 0xb4, 0x10, 0xff, 0x61, 0xf2, 0x00, 0x15,
      0xad] := by
  decide

/-- `SHA256_BLOCK_SIZE`. -/
def sha256BlockSize : ℕ := 64

/-- The room for data in `inner_buf`. -/
def innerDataSize : ℕ := 16384

/-- `key_block`. -/
def hmacKeyBlock (key : List UInt8) : List UInt8 :=
  let k := if key.length > sha256BlockSize then sha256 key else key
  k ++ List.replicate (sha256BlockSize - k.length) 0

/-- The hash that `hmac_sha256` computes. -/
def hmac (key data : List UInt8) : List UInt8 :=
  let keyBlock := hmacKeyBlock key
  let ipad := keyBlock.map (· ^^^ 0x36)
  let opad := keyBlock.map (· ^^^ 0x5c)
  sha256 (opad ++ sha256 (ipad ++ data))

/-- `hmac_sha256`, `none` where `inner_buf` is too small for the data. -/
def hmacSha256 (key data : List UInt8) : Option (List UInt8) :=
  if data.length ≤ innerDataSize then some (hmac key data) else none

@[simp]
theorem length_hmac (key data : List UInt8) : (hmac key data).length = 32 := by
  apply length_sha256

end AuroraOS.Crypto
