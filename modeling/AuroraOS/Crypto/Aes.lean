import Mathlib.Algebra.Group.Nat.Defs
import Mathlib.Data.List.Basic
import Mathlib.Tactic.Common

/-!
# AES-128 in CBC mode

`kernel/aes.c`. The state is the 16-byte block itself, column by column, as in the source.

## Main definitions

- `aes128CbcDecrypt`
- `aes128CbcEncrypt`
-/

namespace AuroraOS.Crypto

/-- `aes_sbox`. -/
def aesSbox : Array UInt8 :=
  #[0x63, 0x7c, 0x77, 0x7b, 0xf2, 0x6b, 0x6f, 0xc5, 0x30, 0x01, 0x67, 0x2b, 0xfe, 0xd7, 0xab, 0x76,
    0xca, 0x82, 0xc9, 0x7d, 0xfa, 0x59, 0x47, 0xf0, 0xad, 0xd4, 0xa2, 0xaf, 0x9c, 0xa4, 0x72, 0xc0,
    0xb7, 0xfd, 0x93, 0x26, 0x36, 0x3f, 0xf7, 0xcc, 0x34, 0xa5, 0xe5, 0xf1, 0x71, 0xd8, 0x31, 0x15,
    0x04, 0xc7, 0x23, 0xc3, 0x18, 0x96, 0x05, 0x9a, 0x07, 0x12, 0x80, 0xe2, 0xeb, 0x27, 0xb2, 0x75,
    0x09, 0x83, 0x2c, 0x1a, 0x1b, 0x6e, 0x5a, 0xa0, 0x52, 0x3b, 0xd6, 0xb3, 0x29, 0xe3, 0x2f, 0x84,
    0x53, 0xd1, 0x00, 0xed, 0x20, 0xfc, 0xb1, 0x5b, 0x6a, 0xcb, 0xbe, 0x39, 0x4a, 0x4c, 0x58, 0xcf,
    0xd0, 0xef, 0xaa, 0xfb, 0x43, 0x4d, 0x33, 0x85, 0x45, 0xf9, 0x02, 0x7f, 0x50, 0x3c, 0x9f, 0xa8,
    0x51, 0xa3, 0x40, 0x8f, 0x92, 0x9d, 0x38, 0xf5, 0xbc, 0xb6, 0xda, 0x21, 0x10, 0xff, 0xf3, 0xd2,
    0xcd, 0x0c, 0x13, 0xec, 0x5f, 0x97, 0x44, 0x17, 0xc4, 0xa7, 0x7e, 0x3d, 0x64, 0x5d, 0x19, 0x73,
    0x60, 0x81, 0x4f, 0xdc, 0x22, 0x2a, 0x90, 0x88, 0x46, 0xee, 0xb8, 0x14, 0xde, 0x5e, 0x0b, 0xdb,
    0xe0, 0x32, 0x3a, 0x0a, 0x49, 0x06, 0x24, 0x5c, 0xc2, 0xd3, 0xac, 0x62, 0x91, 0x95, 0xe4, 0x79,
    0xe7, 0xc8, 0x37, 0x6d, 0x8d, 0xd5, 0x4e, 0xa9, 0x6c, 0x56, 0xf4, 0xea, 0x65, 0x7a, 0xae, 0x08,
    0xba, 0x78, 0x25, 0x2e, 0x1c, 0xa6, 0xb4, 0xc6, 0xe8, 0xdd, 0x74, 0x1f, 0x4b, 0xbd, 0x8b, 0x8a,
    0x70, 0x3e, 0xb5, 0x66, 0x48, 0x03, 0xf6, 0x0e, 0x61, 0x35, 0x57, 0xb9, 0x86, 0xc1, 0x1d, 0x9e,
    0xe1, 0xf8, 0x98, 0x11, 0x69, 0xd9, 0x8e, 0x94, 0x9b, 0x1e, 0x87, 0xe9, 0xce, 0x55, 0x28, 0xdf,
    0x8c, 0xa1, 0x89, 0x0d, 0xbf, 0xe6, 0x42, 0x68, 0x41, 0x99, 0x2d, 0x0f, 0xb0, 0x54, 0xbb, 0x16]

/-- `aes_inv_sbox`, as `aes_build_inv_sbox` fills it. -/
def aesInvSbox : Array UInt8 :=
  (List.range 256).foldl (fun t i => t.setIfInBounds (aesSbox.getD i 0).toNat (UInt8.ofNat i))
    (Array.replicate 256 0)

/-- `aes_rcon`. -/
def aesRcon : Array UInt8 := #[0x00, 0x01, 0x02, 0x04, 0x08, 0x10, 0x20, 0x40, 0x80, 0x1b, 0x36]

/-- `AES_ROUNDS`. -/
def aesRounds : ℕ := 10

/-- `AES_KEY_WORDS`. -/
def aesKeyWords : ℕ := 4

/-- A table lookup for one byte of a word. -/
def aesSubByte (x : UInt32) : UInt32 := (aesSbox.getD (x &&& 0xFF).toNat 0).toUInt32

/-- `aes_sub_word`. -/
def aesSubWord (w : UInt32) : UInt32 :=
  (aesSubByte (w >>> 24) <<< 24) ||| (aesSubByte (w >>> 16) <<< 16) |||
    (aesSubByte (w >>> 8) <<< 8) ||| aesSubByte w

/-- `aes_rot_word`. -/
def aesRotWord (w : UInt32) : UInt32 := (w <<< 8) ||| (w >>> 24)

/-- `aes_key_expansion`: the words of the eleven round keys. -/
def aesKeyExpansion (key : List UInt8) : Array UInt32 :=
  let byte := fun i => (key.getD i 0).toUInt32
  (List.range' aesKeyWords ((aesRounds + 1) * 4 - aesKeyWords)).foldl
    (fun w i =>
      let temp := w.getD (i - 1) 0
      let temp := if i % aesKeyWords = 0 then
          aesSubWord (aesRotWord temp) ^^^ ((aesRcon.getD (i / aesKeyWords) 0).toUInt32 <<< 24)
        else temp
      w.push (w.getD (i - aesKeyWords) 0 ^^^ temp))
    ((List.range aesKeyWords).map fun i => (byte (i * 4) <<< 24) ||| (byte (i * 4 + 1) <<< 16) |||
      (byte (i * 4 + 2) <<< 8) ||| byte (i * 4 + 3)).toArray

/-- One turn of the loop of `gf_mul`. -/
def gfMulStep (r : UInt8 × UInt8 × UInt8) : UInt8 × UInt8 × UInt8 :=
  let (result, a, b) := r
  (if b &&& 1 ≠ 0 then result ^^^ a else result,
    if a &&& 0x80 ≠ 0 then (a <<< 1) ^^^ 0x1b else a <<< 1, b >>> 1)

/-- `gf_mul`. -/
def gfMul (a b : UInt8) : UInt8 := ((List.range 8).foldl (fun r _ => gfMulStep r) (0, a, b)).1

/-- A 16-byte block, column by column. -/
abbrev AesState := Vector UInt8 16

/-- The block with byte `r` of column `c` computed by `f c r`. -/
def AesState.ofColumns (f : Fin 4 → Fin 4 → UInt8) : AesState :=
  Vector.ofFn fun i => f ⟨i / 4, by omega⟩ ⟨i % 4, by omega⟩

/-- Byte `r` of column `c`. -/
def AesState.at (s : AesState) (c r : Fin 4) : UInt8 := s.get ⟨c * 4 + r, by omega⟩

/-- `aes_add_round_key` with round key number `round`. -/
def aesAddRoundKey (roundKey : Array UInt32) (round : ℕ) (s : AesState) : AesState :=
  .ofColumns fun c r =>
    s.at c r ^^^ (roundKey.getD (round * 4 + c) 0 >>> (24 - 8 * UInt32.ofNat r)).toUInt8

/-- `aes_inv_sub_bytes`. -/
def aesInvSubBytes (s : AesState) : AesState := s.map fun x => aesInvSbox.getD x.toNat 0

/-- `aes_inv_shift_rows`: row `r` moves right by `r` columns. -/
def aesInvShiftRows (s : AesState) : AesState := .ofColumns fun c r => s.at (c - r) r

/-- `aes_inv_mix_columns`. -/
def aesInvMixColumns (s : AesState) : AesState :=
  .ofColumns fun c r =>
    gfMul (s.at c r) 14 ^^^ gfMul (s.at c (r + 1)) 11 ^^^ gfMul (s.at c (r + 2)) 13 ^^^
      gfMul (s.at c (r + 3)) 9

/-- `aes_decrypt_block`. -/
def aesDecryptBlock (roundKey : Array UInt32) (s : AesState) : AesState :=
  let s := aesAddRoundKey roundKey aesRounds s
  let s := (List.range (aesRounds - 1)).foldl
    (fun s i => aesInvMixColumns (aesAddRoundKey roundKey (aesRounds - 1 - i)
      (aesInvSubBytes (aesInvShiftRows s)))) s
  aesAddRoundKey roundKey 0 (aesInvSubBytes (aesInvShiftRows s))

/-- 16 bytes of a buffer as a block. -/
def AesState.ofBytes (bytes : List UInt8) : AesState := Vector.ofFn fun i => bytes.getD i 0

/-- The loop of `aes128_cbc_decrypt`, for `n` blocks. -/
def cbcDecryptLoop (roundKey : Array UInt32) : ℕ → AesState → List UInt8 → List UInt8
  | 0, _, _ => []
  | n + 1, prev, ciphertext =>
    let block := AesState.ofBytes ciphertext
    ((aesDecryptBlock roundKey block).zipWith (· ^^^ ·) prev).toList ++
      cbcDecryptLoop roundKey n block (ciphertext.drop 16)

/-- `aes128_cbc_decrypt`. -/
def aes128CbcDecrypt (key iv ciphertext : List UInt8) : List UInt8 :=
  cbcDecryptLoop (aesKeyExpansion key) ((ciphertext.length + 15) / 16) (.ofBytes iv) ciphertext

/-- `aes_sub_bytes`. -/
def aesSubBytes (s : AesState) : AesState := s.map fun x => aesSbox.getD x.toNat 0

/-- `aes_shift_rows`: row `r` moves left by `r` columns. -/
def aesShiftRows (s : AesState) : AesState := .ofColumns fun c r => s.at (c + r) r

/-- `aes_mix_columns`. -/
def aesMixColumns (s : AesState) : AesState :=
  .ofColumns fun c r =>
    gfMul (s.at c r) 2 ^^^ gfMul (s.at c (r + 1)) 3 ^^^ s.at c (r + 2) ^^^ s.at c (r + 3)

/-- The body of the loop of `aes_encrypt_block`, in round `i + 1`. -/
def aesRound (roundKey : Array UInt32) (s : AesState) (i : ℕ) : AesState :=
  aesAddRoundKey roundKey (i + 1) (aesMixColumns (aesShiftRows (aesSubBytes s)))

/-- `aes_encrypt_block`. -/
def aesEncryptBlock (roundKey : Array UInt32) (s : AesState) : AesState :=
  let s := aesAddRoundKey roundKey 0 s
  let s := (List.range (aesRounds - 1)).foldl (aesRound roundKey) s
  aesAddRoundKey roundKey aesRounds (aesShiftRows (aesSubBytes s))

/-- The loop of `aes128_cbc_encrypt`, for `n` blocks. -/
def cbcEncryptLoop (roundKey : Array UInt32) : ℕ → AesState → List UInt8 → List UInt8
  | 0, _, _ => []
  | n + 1, prev, plaintext =>
    let block := aesEncryptBlock roundKey ((AesState.ofBytes plaintext).zipWith (· ^^^ ·) prev)
    block.toList ++ cbcEncryptLoop roundKey n block (plaintext.drop 16)

/-- `aes128_cbc_encrypt`. -/
def aes128CbcEncrypt (key iv plaintext : List UInt8) : List UInt8 :=
  cbcEncryptLoop (aesKeyExpansion key) ((plaintext.length + 15) / 16) (.ofBytes iv) plaintext

theorem length_cbcDecryptLoop (roundKey : Array UInt32) (n : ℕ) (prev : AesState)
    (ciphertext : List UInt8) : (cbcDecryptLoop roundKey n prev ciphertext).length = 16 * n := by
  induction n generalizing prev ciphertext with
  | zero => rfl
  | succ n ih =>
    rw [cbcDecryptLoop, List.length_append, ih, Vector.length_toList]
    omega

/-- Whole blocks decrypt to as many bytes. -/
theorem length_aes128CbcDecrypt (key iv : List UInt8) {ciphertext : List UInt8}
    (h : ciphertext.length % 16 = 0) :
    (aes128CbcDecrypt key iv ciphertext).length = ciphertext.length := by
  rw [aes128CbcDecrypt, length_cbcDecryptLoop]
  omega

end AuroraOS.Crypto
