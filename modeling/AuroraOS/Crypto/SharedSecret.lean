import AuroraOS.Crypto.P256

/-!
# Key agreement on P-256

What `ecc_p256_compute_shared_secret` hands out is the first coordinate of a multiple of the peer's
point, and a peer's point that is not on the curve gets nothing. Two parties that exchange what
`ecc_p256_generate_keypair` gave them multiply the generator by both scalars, in either order.

## Main definitions

- `secretOf` — the secret that stands for a point
- `uncompressed` — the bytes of a point that are sent

## Main results

- `eccP256ComputeSharedSecret_eq`, `eccP256ComputeSharedSecret_offCurve`
- `eccP256GenerateKeypair_eq`
- `eccP256ComputeSharedSecret_comm`
-/

namespace AuroraOS.Crypto

open Lib WeierstrassCurve

/-- The secret that a point stands for; the point at infinity has none. -/
def secretOf : p256Curve.Point → Option (List UInt8)
  | .zero => none
  | .some x _ _ => some (encodeElem x)

/-- The bytes of a point that are sent. -/
def uncompressed (p : EccPoint) : List UInt8 := 0x04 :: (p.x ++ p.y)

section Peer

variable {peer : EccPoint}

theorem take_uncompressed (hx : peer.x.length = 32) :
    ((uncompressed peer).drop 1).take 32 = peer.x := by
  rw [uncompressed, List.drop_succ_cons, List.drop_zero, List.take_left' hx]

theorem drop_uncompressed (hx : peer.x.length = 32) (hy : peer.y.length = 32) :
    ((uncompressed peer).drop 33).take 32 = peer.y := by
  rw [uncompressed, List.drop_succ_cons, List.drop_left' hx, List.take_of_length_le hy.le]

theorem p256B_eq : p256B = encodeElem p256CurveB :=
  eq_encodeElem rfl (by decide)

/-- The test of the equation, and the multiple of the point if it is passed. -/
theorem eccP256ComputeSharedSecret_uncompressed (hx : peer.x.length = 32)
    (hy : peer.y.length = 32) (stale : ℕ → ℕ → ℕ → Bignum) (result : EccPoint)
    (privateKey : List UInt8) :
    eccP256ComputeSharedSecret stale result privateKey (uncompressed peer) =
      if (beValue peer.y : ZMod p256) ^ 2 =
          (beValue peer.x : ZMod p256) ^ 3 + p256CurveA * beValue peer.x + p256CurveB then
        (eccScalarMult stale privateKey ⟨peer.x, peer.y, false⟩ result).bind fun result =>
          if result.infinity then none else some result.x
      else none := by
  have hmulx : ∀ (stale : ℕ → Bignum) (f : ZMod p256), fmodMul stale (encodeElem f) peer.x =
      some (encodeElem (f * beValue peer.x)) := by
    intro stale f
    rw [fmodMul_eq stale (length_encodeElem f) hx, beValue_encodeElem, ZMod.natCast_zmod_val]
  have hform : ¬(uncompressed peer).head? ≠ some 0x04 := not_not.mpr rfl
  rw [eccP256ComputeSharedSecret, if_neg hform, take_uncompressed hx, drop_uncompressed hx hy]
  dsimp only
  rw [fmodMul_eq _ hy hy, fmodMul_eq _ hx hx, p256A_eq, p256B_eq]
  simp only [Option.bind_eq_bind, Option.bind_some, hmulx, fmodAdd_encodeElem, encodeElem_inj,
    ne_eq, ite_not, pow_succ, pow_zero, one_mul]

theorem OnCurve.zmod_equation (h : OnCurve peer) : (beValue peer.y : ZMod p256) ^ 2 =
    (beValue peer.x : ZMod p256) ^ 3 + p256CurveA * beValue peer.x + p256CurveB := by
  have hcast := (ZMod.natCast_eq_natCast_iff _ _ _).mpr h.equation
  push_cast at hcast
  exact hcast

/-- A point that is not on the curve gets no secret: nothing is multiplied with the private key. -/
theorem eccP256ComputeSharedSecret_offCurve (hx : peer.x.length = 32) (hy : peer.y.length = 32)
    (hoff : (beValue peer.y : ZMod p256) ^ 2 ≠
      (beValue peer.x : ZMod p256) ^ 3 + p256CurveA * beValue peer.x + p256CurveB)
    (stale : ℕ → ℕ → ℕ → Bignum) (result : EccPoint) (privateKey : List UInt8) :
    eccP256ComputeSharedSecret stale result privateKey (uncompressed peer) = none := by
  rw [eccP256ComputeSharedSecret_uncompressed hx hy, if_neg hoff]

theorem eccP256ComputeSharedSecret_eq (hpeer : OnCurve peer)
    (stale : ℕ → ℕ → ℕ → Bignum) (result : EccPoint) (privateKey : List UInt8) :
    eccP256ComputeSharedSecret stale result privateKey (uncompressed peer) =
      secretOf (beValue privateKey • hpeer.point) := by
  obtain ⟨q, hmult, hloop⟩ := hpeer.scalarLoop_eq stale privateKey
  rw [eccP256ComputeSharedSecret_uncompressed hpeer.x_length hpeer.y_length,
    if_pos hpeer.zmod_equation, eccScalarMult, hloop, Option.bind_eq_bind, Option.bind_some]
  obtain ⟨out, hout, hpoint⟩ := jpointToAffine_encodePoint (fun i => stale (2 * 256 + i)) result
    hmult
  rw [hout, Option.bind_some]
  cases hP : beValue privateKey • hpeer.point with
  | zero =>
    rw [hP] at hpoint
    have hinf : out.infinity = true := hpoint
    rw [if_pos hinf, secretOf]
  | some x y h =>
    rw [hP] at hpoint
    obtain ⟨hnot, hx, -⟩ := hpoint
    rw [if_neg (by simp [hnot]), hx, secretOf]

end Peer

section Keypair

/-- The generator of the group. -/
def p256G : p256Curve.Point := onCurve_generator.point

/-- Coordinates that stand for a point other than the one at infinity are on the curve. -/
theorem EccPoint.IsPoint.onCurve {p : EccPoint} {P : p256Curve.Point} (h : p.IsPoint P)
    (hne : P ≠ 0) : ∃ hon : OnCurve p, hon.point = P := by
  cases P with
  | zero => exact absurd rfl hne
  | some x y hns =>
    obtain ⟨-, hx, hy⟩ := h
    have hxval : beValue p.x = x.val := by rw [hx, beValue_encodeElem]
    have hyval : beValue p.y = y.val := by rw [hy, beValue_encodeElem]
    refine ⟨⟨by rw [hx, length_encodeElem], by rw [hy, length_encodeElem], ?_, ?_, ?_⟩, ?_⟩
    · rw [hxval]
      exact x.val_lt
    · rw [hyval]
      exact y.val_lt
    · rw [← ZMod.natCast_eq_natCast_iff, hxval, hyval]
      push_cast
      rw [ZMod.natCast_zmod_val, ZMod.natCast_zmod_val]
      exact equation_shortCurve.mp hns.1
    · simp only [OnCurve.point, hxval, hyval, ZMod.natCast_zmod_val]

/-- The private key is the residue of the seed, and unless its multiple of the generator is the
    point at infinity, that multiple is sent. -/
theorem eccP256GenerateKeypair_eq {seed : List UInt8} (hseed : seed.length = 32)
    (stale : ℕ → ℕ → ℕ → Bignum) (pub : EccPoint) :
    ∃ privateKey point, eccP256GenerateKeypair stale pub seed = some (privateKey, point) ∧
      beValue privateKey = beValue seed % beValue p256N ∧
      (beValue privateKey • p256G ≠ 0 → ∃ (peer : EccPoint) (h : OnCurve peer),
        point = uncompressed peer ∧ h.point = beValue privateKey • p256G) := by
  have hargs : ModArgs seed (fieldByte 0) p256N 32 :=
    ⟨by rw [hseed]; decide, by decide, by decide, by decide, by decide⟩
  have hlt := Nat.mod_lt (beValue seed) (show 0 < beValue p256N by decide)
  have hzero : beValue (fieldByte 0) = 0 := by decide
  have hcap : beValue p256N < (2 ^ 32) ^ bignumWords := by decide
  have hreduce := hargs.bignumAddmodBytes_of_lt (by rw [hzero, Nat.zero_mod]; omega)
  rw [hzero, Nat.add_zero] at hreduce
  have hkey : beValue (beFixed 32 (beValue seed % beValue p256N)) =
      beValue seed % beValue p256N := by
    rw [beValue_beFixed, Nat.mod_eq_of_lt (hlt.trans (by decide))]
  generalize beFixed 32 (beValue seed % beValue p256N) = privateKey at hreduce hkey
  obtain ⟨q, hmult, hloop⟩ := onCurve_generator.scalarLoop_eq stale privateKey
  obtain ⟨out, hout, hpoint⟩ := jpointToAffine_encodePoint (fun i => stale (2 * 256 + i)) pub hmult
  refine ⟨privateKey, uncompressed out, ?_, hkey, fun hne => ?_⟩
  · rw [eccP256GenerateKeypair, hreduce, Option.bind_eq_bind, Option.bind_some, eccScalarMult,
      hloop]
    simp only [Option.bind_eq_bind, Option.bind_some, hout, uncompressed]
  · obtain ⟨hon, hP⟩ := hpoint.onCurve hne
    exact ⟨out, hon, rfl, hP⟩

/-- Two parties that send each other their public points compute the same secret. -/
theorem eccP256ComputeSharedSecret_comm {seed seed' : List UInt8} (hseed : seed.length = 32)
    (hseed' : seed'.length = 32) {stale stale' stale₁ stale₁' : ℕ → ℕ → ℕ → Bignum}
    {pub pub' result result' : EccPoint} {privateKey privateKey' point point' : List UInt8}
    (hkeys : eccP256GenerateKeypair stale pub seed = some (privateKey, point))
    (hkeys' : eccP256GenerateKeypair stale' pub' seed' = some (privateKey', point'))
    (hne : beValue privateKey • p256G ≠ 0) (hne' : beValue privateKey' • p256G ≠ 0) :
    eccP256ComputeSharedSecret stale₁ result privateKey point' =
      eccP256ComputeSharedSecret stale₁' result' privateKey' point := by
  obtain ⟨key, sent, hrun, -, hsent⟩ := eccP256GenerateKeypair_eq hseed stale pub
  obtain ⟨key', sent', hrun', -, hsent'⟩ := eccP256GenerateKeypair_eq hseed' stale' pub'
  obtain ⟨rfl, rfl⟩ : key = privateKey ∧ sent = point := by
    simpa [hrun] using hkeys
  obtain ⟨rfl, rfl⟩ : key' = privateKey' ∧ sent' = point' := by
    simpa [hrun'] using hkeys'
  obtain ⟨peer, hpeer, rfl, hpoint⟩ := hsent hne
  obtain ⟨peer', hpeer', rfl, hpoint'⟩ := hsent' hne'
  rw [eccP256ComputeSharedSecret_eq hpeer', eccP256ComputeSharedSecret_eq hpeer, hpoint, hpoint',
    smul_smul, smul_smul, Nat.mul_comm]

end Keypair

end AuroraOS.Crypto
