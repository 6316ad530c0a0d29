import AuroraOS.Crypto.Bignum

/-!
# The curve P-256

`kernel/ecc.c`. Field elements are 32 bytes, the highest first, and every operation on them is one
of `kernel/bignum.c`; what its uninitialised variable holds is a parameter for each call. A function
that returns `false` is `none` here.

## Main definitions

- `jpointDouble`, `jpointAdd`, `jpointToAffine`
- `eccScalarMult`
- `eccP256GenerateKeypair`, `eccP256ComputeSharedSecret`
-/

namespace AuroraOS.Crypto

section Parameters

/-- `P256_P`. -/
def p256P : List UInt8 :=
  [0xff, 0xff, 0xff, 0xff, 0x00, 0x00, 0x00, 0x01, 0x00, 0x00, 0x00, 0x00, 0x00, 0x00, 0x00, 0x00,
    0x00, 0x00, 0x00, 0x00, 0xff, 0xff, 0xff, 0xff, 0xff, 0xff, 0xff, 0xff, 0xff, 0xff, 0xff, 0xff]

/-- `P256_A`. -/
def p256A : List UInt8 :=
  [0xff, 0xff, 0xff, 0xff, 0x00, 0x00, 0x00, 0x01, 0x00, 0x00, 0x00, 0x00, 0x00, 0x00, 0x00, 0x00,
    0x00, 0x00, 0x00, 0x00, 0xff, 0xff, 0xff, 0xff, 0xff, 0xff, 0xff, 0xff, 0xff, 0xff, 0xff, 0xfc]

/-- `P256_B`. -/
def p256B : List UInt8 :=
  [0x5a, 0xc6, 0x35, 0xd8, 0xaa, 0x3a, 0x93, 0xe7, 0xb3, 0xeb, 0xbd, 0x55, 0x76, 0x98, 0x86, 0xbc,
    0x65, 0x1d, 0x06, 0xb0, 0xcc, 0x53, 0xb0, 0xf6, 0x3b, 0xce, 0x3c, 0x3e, 0x27, 0xd2, 0x60, 0x4b]

/-- `P256_GX`. -/
def p256Gx : List UInt8 :=
  [0x6b, 0x17, 0xd1, 0xf2, 0xe1, 0x2c, 0x42, 0x47, 0xf8, 0xbc, 0xe6, 0xe5, 0x63, 0xa4, 0x40, 0xf2,
    0x77, 0x03, 0x7d, 0x81, 0x2d, 0xeb, 0x33, 0xa0, 0xf4, 0xa1, 0x39, 0x45, 0xd8, 0x98, 0xc2, 0x96]

/-- `P256_GY`. -/
def p256Gy : List UInt8 :=
  [0x4f, 0xe3, 0x42, 0xe2, 0xfe, 0x1a, 0x7f, 0x9b, 0x8e, 0xe7, 0xeb, 0x4a, 0x7c, 0x0f, 0x9e, 0x16,
    0x2b, 0xce, 0x33, 0x57, 0x6b, 0x31, 0x5e, 0xce, 0xcb, 0xb6, 0x40, 0x68, 0x37, 0xbf, 0x51, 0xf5]

/-- `P256_N`. -/
def p256N : List UInt8 :=
  [0xff, 0xff, 0xff, 0xff, 0x00, 0x00, 0x00, 0x00, 0xff, 0xff, 0xff, 0xff, 0xff, 0xff, 0xff, 0xff,
    0xbc, 0xe6, 0xfa, 0xad, 0xa7, 0x17, 0x9e, 0x84, 0xf3, 0xb9, 0xca, 0xc2, 0xfc, 0x63, 0x25, 0x51]

end Parameters

/-- `struct ecc_point`. -/
structure EccPoint where
  x : List UInt8
  y : List UInt8
  infinity : Bool
deriving DecidableEq

/-- `struct ecc_jpoint`. -/
structure EccJpoint where
  x : List UInt8
  y : List UInt8
  z : List UInt8

section Field

/-- `fmod_add`. -/
def fmodAdd (a b : List UInt8) : Option (List UInt8) := bignumAddmodBytes a b p256P 32

/-- `fmod_sub`. -/
def fmodSub (a b : List UInt8) : Option (List UInt8) := bignumSubmodBytes a b p256P 32

/-- `fmod_mul`. -/
def fmodMul (stale : ℕ → Bignum) (a b : List UInt8) : Option (List UInt8) :=
  bignumMulmodBytes stale a b p256P 32

/-- `fmod_inv`. -/
def fmodInv (stale : ℕ → ℕ → Bignum) (a : List UInt8) : Option (List UInt8) :=
  bignumInvmodBytes stale a p256P 32

/-- `fmod_is_zero`. -/
def fmodIsZero (a : List UInt8) : Bool := a.all (· == 0)

/-- 32 bytes with the value of the last. -/
def fieldByte (b : UInt8) : List UInt8 := List.replicate 31 0 ++ [b]

end Field

section Points

/-- `jpoint_set_infinity`. -/
def jpointInfinity : EccJpoint := ⟨fieldByte 0, fieldByte 0, fieldByte 0⟩

/-- `jpoint_is_infinity`. -/
def jpointIsInfinity (p : EccJpoint) : Bool := fmodIsZero p.z

/-- `jpoint_double`. -/
def jpointDouble (stale : ℕ → ℕ → Bignum) (p : EccJpoint) : Option EccJpoint :=
  if jpointIsInfinity p then some p
  else if fmodIsZero p.y then some jpointInfinity
  else do
    let xx ← fmodMul (stale 0) p.x p.x
    let yy ← fmodMul (stale 1) p.y p.y
    let yyyy ← fmodMul (stale 2) yy yy
    let zz ← fmodMul (stale 3) p.z p.z
    let xPlusYy ← fmodAdd p.x yy
    let sq ← fmodMul (stale 4) xPlusYy xPlusYy
    let t1 ← fmodSub sq xx
    let t2 ← fmodSub t1 yyyy
    let s ← fmodAdd t2 t2
    let threeXx ← fmodMul (stale 5) (fieldByte 3) xx
    let zzzz ← fmodMul (stale 6) zz zz
    let aZzzz ← fmodMul (stale 7) p256A zzzz
    let m ← fmodAdd threeXx aZzzz
    let m2 ← fmodMul (stale 8) m m
    let twoS ← fmodAdd s s
    let t ← fmodSub m2 twoS
    let sMinusT ← fmodSub s t
    let mTimes ← fmodMul (stale 9) m sMinusT
    let twoYyyy ← fmodAdd yyyy yyyy
    let fourYyyy ← fmodAdd twoYyyy twoYyyy
    let eightYyyy ← fmodAdd fourYyyy fourYyyy
    let y3 ← fmodSub mTimes eightYyyy
    let yPlusZ ← fmodAdd p.y p.z
    let sq ← fmodMul (stale 10) yPlusZ yPlusZ
    let t1 ← fmodSub sq yy
    let z3 ← fmodSub t1 zz
    some ⟨t, y3, z3⟩

/-- `jpoint_add`. -/
def jpointAdd (stale : ℕ → ℕ → Bignum) (p q : EccJpoint) : Option EccJpoint :=
  if jpointIsInfinity p then some q
  else if jpointIsInfinity q then some p
  else do
    let z1z1 ← fmodMul (stale 0) p.z p.z
    let z2z2 ← fmodMul (stale 1) q.z q.z
    let u1 ← fmodMul (stale 2) p.x z2z2
    let u2 ← fmodMul (stale 3) q.x z1z1
    let y1Z2 ← fmodMul (stale 4) p.y q.z
    let s1 ← fmodMul (stale 5) y1Z2 z2z2
    let z1z1Z1 ← fmodMul (stale 6) q.y p.z
    let s2 ← fmodMul (stale 7) z1z1Z1 z1z1
    if u1 = u2 then
      if s1 ≠ s2 then some jpointInfinity else jpointDouble (fun i => stale (8 + i)) p
    else
      let h ← fmodSub u2 u1
      let twoH ← fmodAdd h h
      let i ← fmodMul (stale 8) twoH twoH
      let j ← fmodMul (stale 9) h i
      let s2MinusS1 ← fmodSub s2 s1
      let r ← fmodAdd s2MinusS1 s2MinusS1
      let v ← fmodMul (stale 10) u1 i
      let r2 ← fmodMul (stale 11) r r
      let t1 ← fmodSub r2 j
      let twoV ← fmodAdd v v
      let x3 ← fmodSub t1 twoV
      let vMinusX3 ← fmodSub v x3
      let rTimes ← fmodMul (stale 12) r vMinusX3
      let twoS1 ← fmodAdd s1 s1
      let twoS1J ← fmodMul (stale 13) twoS1 j
      let y3 ← fmodSub rTimes twoS1J
      let z1PlusZ2 ← fmodAdd p.z q.z
      let sq ← fmodMul (stale 14) z1PlusZ2 z1PlusZ2
      let t1 ← fmodSub sq z1z1
      let t2 ← fmodSub t1 z2z2
      let z3 ← fmodMul (stale 15) t2 h
      some ⟨x3, y3, z3⟩

/-- `jpoint_to_affine`, where `out` is the point before. -/
def jpointToAffine (stale : ℕ → ℕ → ℕ → Bignum) (p : EccJpoint) (out : EccPoint) :
    Option EccPoint :=
  if jpointIsInfinity p then some { out with infinity := true }
  else do
    let zinv ← fmodInv (stale 0) p.z
    let zinv2 ← fmodMul (stale 1 0) zinv zinv
    let zinv3 ← fmodMul (stale 1 1) zinv2 zinv
    let x ← fmodMul (stale 1 2) p.x zinv2
    let y ← fmodMul (stale 1 3) p.y zinv3
    some ⟨x, y, false⟩

end Points

section Multiplication

/-- The bits of a scalar in the order of the two loops of `ecc_scalar_mult`. -/
def scalarBits (scalar : List UInt8) : List Bool :=
  scalar.flatMap fun b => (List.range 8).map fun i => b.toNat.testBit (7 - i)

/-- The loops of `ecc_scalar_mult`, from turn `i` on. -/
def scalarLoop (stale : ℕ → ℕ → ℕ → Bignum) (base : EccJpoint) :
    List Bool → ℕ → EccJpoint → Option EccJpoint
  | [], _, result => some result
  | bit :: bits, i, result => do
    let doubled ← jpointDouble (stale (2 * i)) result
    if bit then
      let sum ← jpointAdd (stale (2 * i + 1)) doubled base
      scalarLoop stale base bits (i + 1) sum
    else scalarLoop stale base bits (i + 1) doubled

/-- `ecc_scalar_mult`. -/
def eccScalarMult (stale : ℕ → ℕ → ℕ → Bignum) (scalar : List UInt8) (p out : EccPoint) :
    Option EccPoint := do
  let result ← scalarLoop stale ⟨p.x, p.y, fieldByte 1⟩ (scalarBits scalar) 0 jpointInfinity
  jpointToAffine (fun i => stale (2 * 256 + i)) result out

end Multiplication

section EntryPoints

/-- `ecc_p256_generate_keypair`: the private key and the public point, where `pub` holds the
uninitialised variable. -/
def eccP256GenerateKeypair (stale : ℕ → ℕ → ℕ → Bignum) (pub : EccPoint)
    (randomSeed : List UInt8) : Option (List UInt8 × List UInt8) := do
  let privateKey ← bignumAddmodBytes randomSeed (fieldByte 0) p256N 32
  let pub ← eccScalarMult stale privateKey ⟨p256Gx, p256Gy, false⟩ pub
  some (privateKey, 0x04 :: (pub.x ++ pub.y))

/-- `ecc_p256_compute_shared_secret`, where `result` holds the uninitialised variable. -/
def eccP256ComputeSharedSecret (stale : ℕ → ℕ → ℕ → Bignum) (result : EccPoint)
    (privateKey peerPublicPoint : List UInt8) : Option (List UInt8) :=
  if peerPublicPoint.head? ≠ some 0x04 then none
  else do
    let peer : EccPoint :=
      ⟨(peerPublicPoint.drop 1).take 32, (peerPublicPoint.drop 33).take 32, false⟩
    let y2 ← fmodMul (stale 1024 0) peer.y peer.y
    let x2 ← fmodMul (stale 1024 1) peer.x peer.x
    let x3 ← fmodMul (stale 1024 2) x2 peer.x
    let ax ← fmodMul (stale 1024 3) p256A peer.x
    let tmp ← fmodAdd x3 ax
    let rhs ← fmodAdd tmp p256B
    if y2 ≠ rhs then none
    else do
      let result ← eccScalarMult stale privateKey peer result
      if result.infinity then none else some result.x

end EntryPoints

end AuroraOS.Crypto
