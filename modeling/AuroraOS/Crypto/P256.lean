import AuroraOS.Crypto.Addmod
import AuroraOS.Crypto.Ecc
import AuroraOS.Crypto.Modexp
import AuroraOS.Lib.JacobianPoint
import Mathlib.Tactic.ReduceModChar

/-!
# Scalar multiplication on P-256

The prime of the curve is prime, so its residues are a field. Every field element has one encoding
in 32 bytes, the operations of `kernel/ecc.c` compute on the encodings what the field has, and the
comparison of two buffers is equality in the field. What is left is the general fact about Jacobian
coordinates.

## Main results

- `prime_p256`
- `eccScalarMult_correct`
-/

namespace AuroraOS.Crypto

set_option maxRecDepth 4096

open Lib WeierstrassCurve

section Prime

theorem prime_34282281433 : Nat.Prime 34282281433 := by
  refine prime_of_lucas 17 [2, 2, 2, 3, 7, 204061199] ?_ (by norm_num)
    (by reduce_mod_char) ?_
  · exact ⟨Nat.prime_two, Nat.prime_two, Nat.prime_two, Nat.prime_three, by norm_num, by norm_num⟩
  · simp only [List.Forall, Nat.reduceSub, Nat.reduceDiv]
    reduce_mod_char
    decide

theorem prime_66417393611 : Nat.Prime 66417393611 := by
  refine prime_of_lucas 6 [2, 5, 53, 173, 197, 3677] ?_ (by norm_num)
    (by reduce_mod_char) ?_
  · exact ⟨Nat.prime_two, Nat.prime_five, by norm_num, by norm_num, by norm_num, by norm_num⟩
  · simp only [List.Forall, Nat.reduceSub, Nat.reduceDiv]
    reduce_mod_char
    decide

theorem prime_11290956913871 : Nat.Prime 11290956913871 := by
  refine prime_of_lucas 13 [2, 5, 17, 66417393611] ?_ (by norm_num)
    (by reduce_mod_char) ?_
  · exact ⟨Nat.prime_two, Nat.prime_five, by norm_num, prime_66417393611⟩
  · simp only [List.Forall, Nat.reduceSub, Nat.reduceDiv]
    reduce_mod_char
    decide

theorem prime_46076956964474543 : Nat.Prime 46076956964474543 := by
  refine prime_of_lucas 5 [2, 23, 18169, 78283, 704251] ?_ (by norm_num)
    (by reduce_mod_char) ?_
  · exact ⟨Nat.prime_two, by norm_num, by norm_num, by norm_num, by norm_num⟩
  · simp only [List.Forall, Nat.reduceSub, Nat.reduceDiv]
    reduce_mod_char
    decide

theorem prime_774023187263532362759620327192479577272145303 :
    Nat.Prime 774023187263532362759620327192479577272145303 := by
  refine prime_of_lucas 3 [2, 3, 3, 2411, 34282281433, 11290956913871, 46076956964474543] ?_
    (by norm_num) (by reduce_mod_char) ?_
  · exact ⟨Nat.prime_two, Nat.prime_three, Nat.prime_three, by norm_num, prime_34282281433,
      prime_11290956913871, prime_46076956964474543⟩
  · simp only [List.Forall, Nat.reduceSub, Nat.reduceDiv]
    reduce_mod_char
    decide

theorem prime_835945042244614951780389953367877943453916927241 :
    Nat.Prime 835945042244614951780389953367877943453916927241 := by
  refine prime_of_lucas 11 [2, 2, 2, 3, 3, 3, 5, 774023187263532362759620327192479577272145303]
    ?_ (by norm_num) (by reduce_mod_char) ?_
  · exact ⟨Nat.prime_two, Nat.prime_two, Nat.prime_two, Nat.prime_three, Nat.prime_three,
      Nat.prime_three, Nat.prime_five, prime_774023187263532362759620327192479577272145303⟩
  · simp only [List.Forall, Nat.reduceSub, Nat.reduceDiv]
    reduce_mod_char
    decide

/-- The prime of the field. -/
def p256 : ℕ := 115792089210356248762697446949407573530086143415290314195533631308867097853951

theorem prime_p256 : p256.Prime := by
  change Nat.Prime
    115792089210356248762697446949407573530086143415290314195533631308867097853951
  refine prime_of_lucas 6 [2, 3, 5, 5, 17, 257, 641, 1531, 65537, 490463, 6700417,
    835945042244614951780389953367877943453916927241] ?_ (by norm_num) (by reduce_mod_char) ?_
  · exact ⟨Nat.prime_two, Nat.prime_three, Nat.prime_five, Nat.prime_five, by norm_num,
      by norm_num, by norm_num, by norm_num, by norm_num, by norm_num, by norm_num,
      prime_835945042244614951780389953367877943453916927241⟩
  · simp only [List.Forall, Nat.reduceSub, Nat.reduceDiv]
    reduce_mod_char
    decide

end Prime

section Field

instance : Fact p256.Prime := ⟨prime_p256⟩

/-- The 32 bytes of a field element. -/
def encodeElem (f : ZMod p256) : List UInt8 := beFixed 32 f.val

theorem beValue_p256P : beValue p256P = p256 := rfl

theorem p256_lt : p256 < 256 ^ 32 := by norm_num [p256]

theorem numWords_p256 : numWords p256 = 8 := by
  have hlog : Nat.log (2 ^ 32) p256 = 7 :=
    Nat.log_eq_of_pow_le_of_lt_pow (by norm_num [p256]) (by norm_num [p256])
  rw [numWords, hlog]

theorem isModulus_p256P : IsModulus p256P :=
  ⟨by decide, 0xff, p256P.tail, rfl, by decide⟩

@[simp]
theorem length_encodeElem (f : ZMod p256) : (encodeElem f).length = 32 := length_beFixed _ _

@[simp]
theorem beValue_encodeElem (f : ZMod p256) : beValue (encodeElem f) = f.val := by
  rw [encodeElem, beValue_beFixed, Nat.mod_eq_of_lt (f.val_lt.trans p256_lt)]

theorem encodeElem_inj {f g : ZMod p256} : encodeElem f = encodeElem g ↔ f = g := by
  refine ⟨fun h => ZMod.val_injective p256 ?_, congrArg encodeElem⟩
  rw [← beValue_encodeElem, h, beValue_encodeElem]

/-- Bytes below the prime are the encoding of their number. -/
theorem eq_encodeElem {bs : List UInt8} (hlen : bs.length = 32) (hlt : beValue bs < p256) :
    bs = encodeElem (beValue bs) := by
  rw [encodeElem, ZMod.val_natCast_of_lt hlt, ← hlen, beFixed_beValue]

variable (f g : ZMod p256)

theorem modArgs_encodeElem : ModArgs (encodeElem f) (encodeElem g) p256P 32 := by
  refine ⟨?_, ?_, by decide, by decide, ?_⟩
  · rw [length_encodeElem]
    decide
  · rw [length_encodeElem]
    decide
  · rw [beValue_p256P]
    exact prime_p256.ne_zero

theorem fmodAdd_encodeElem : fmodAdd (encodeElem f) (encodeElem g) = some (encodeElem (f + g)) := by
  have hf := f.val_lt
  have hg := g.val_lt
  have hsmall : p256 + p256 < (2 ^ 32) ^ bignumWords := by norm_num [p256, bignumWords]
  rw [fmodAdd, (modArgs_encodeElem f g).bignumAddmodBytes_of_lt, beValue_encodeElem,
    beValue_encodeElem, beValue_p256P, ← ZMod.val_add, encodeElem]
  rw [beValue_encodeElem, beValue_encodeElem, beValue_p256P, Nat.mod_eq_of_lt hf,
    Nat.mod_eq_of_lt hg]
  omega

theorem fmodSub_encodeElem : fmodSub (encodeElem f) (encodeElem g) = some (encodeElem (f - g)) := by
  have hval : (((f.val : ℤ) - g.val) % p256).toNat = (f - g).val := by
    have hcast : (((f.val : ℤ) - g.val : ℤ) : ZMod p256) = f - g := by simp
    rw [← hcast, ← ZMod.val_intCast, Int.toNat_natCast]
  rw [fmodSub, (modArgs_encodeElem f g).bignumSubmodBytes_eq, beValue_encodeElem,
    beValue_encodeElem, beValue_p256P, subResidue, hval, encodeElem]

/-- A product of any 32 bytes is a field element. -/
theorem fmodMul_eq {a b : List UInt8} (stale : ℕ → Bignum) (ha : a.length = 32)
    (hb : b.length = 32) :
    fmodMul stale a b = some (encodeElem ((beValue a : ZMod p256) * (beValue b : ZMod p256))) := by
  have hcap : ∀ {l : List UInt8}, l.length = 32 → beValue l < (2 ^ 32) ^ 8 := by
    intro l hl
    have hlt := beValue_lt l
    rw [hl] at hlt
    exact hlt
  have hwords : 32 ≤ 4 * numWords (beValue p256P) := by
    rw [beValue_p256P, numWords_p256]
  have hargs : ModArgs a b p256P 32 :=
    ⟨by rw [ha]; decide, by rw [hb]; decide, by decide, by decide,
      beValue_p256P ▸ prime_p256.ne_zero⟩
  rw [fmodMul, hargs.bignumMulmodBytes_of_le hwords, beValue_p256P, boundedProduct, numWords_p256,
    Nat.mod_eq_of_lt (hcap ha), Nat.mod_eq_of_lt (hcap hb), encodeElem, ← Nat.cast_mul,
    ZMod.val_natCast]

theorem fmodMul_encodeElem (stale : ℕ → Bignum) :
    fmodMul stale (encodeElem f) (encodeElem g) = some (encodeElem (f * g)) := by
  rw [fmodMul_eq stale (length_encodeElem f) (length_encodeElem g), beValue_encodeElem,
    beValue_encodeElem, ZMod.natCast_zmod_val, ZMod.natCast_zmod_val]

theorem bind_fmodAdd {α : Type} (k : List UInt8 → Option α) :
    (fmodAdd (encodeElem f) (encodeElem g) >>= k) = k (encodeElem (f + g)) := by
  rw [fmodAdd_encodeElem]
  rfl

theorem bind_fmodSub {α : Type} (k : List UInt8 → Option α) :
    (fmodSub (encodeElem f) (encodeElem g) >>= k) = k (encodeElem (f - g)) := by
  rw [fmodSub_encodeElem]
  rfl

theorem bind_fmodMul {α : Type} (stale : ℕ → Bignum) (k : List UInt8 → Option α) :
    (fmodMul stale (encodeElem f) (encodeElem g) >>= k) = k (encodeElem (f * g)) := by
  rw [fmodMul_encodeElem]
  rfl

theorem fmodInv_encodeElem (stale : ℕ → ℕ → Bignum) (hf : f ≠ 0) :
    fmodInv stale (encodeElem f) = some (encodeElem f⁻¹) := by
  have hpow : f ^ (p256 - 2) = f⁻¹ := by
    refine eq_inv_of_mul_eq_one_left ?_
    have hexp : p256 - 2 + 1 = p256 - 1 := by
      have htwo := prime_p256.two_le
      omega
    rw [← pow_succ, hexp, ZMod.pow_card_sub_one_eq_one hf]
  have hval : f.val ^ (p256 - 2) % p256 = f⁻¹.val := by
    rw [← hpow, ← ZMod.val_natCast, Nat.cast_pow, ZMod.natCast_zmod_val]
  have hinv := isModulus_p256P.bignumInvmodBytes_eq (a := encodeElem f)
    (beValue_p256P.symm ▸ prime_p256.one_lt) (length_encodeElem f).le stale
  rw [beValue_encodeElem, beValue_p256P, hval] at hinv
  exact hinv

theorem fmodIsZero_encodeElem : fmodIsZero (encodeElem f) = true ↔ f = 0 := by
  rw [fmodIsZero, List.all_eq_true, ← ZMod.val_eq_zero, ← beValue_encodeElem, beValue_eq_zero_iff]
  simp only [beq_iff_eq]

end Field

section Curve

def p256CurveA : ZMod p256 := (beValue p256A : ℕ)

def p256CurveB : ZMod p256 := (beValue p256B : ℕ)

/-- The curve of `P256_A` and `P256_B`. -/
def p256Curve : Affine (ZMod p256) := shortCurve p256CurveA p256CurveB

theorem beValue_p256A : beValue p256A = p256 - 3 := rfl

theorem p256A_eq : p256A = encodeElem p256CurveA := by
  refine eq_encodeElem rfl ?_
  rw [beValue_p256A]
  exact Nat.sub_lt prime_p256.pos (by decide)

theorem fieldByte_eq (b : UInt8) : fieldByte b = encodeElem (b.toNat : ℕ) := by
  have hzero : beValue (List.replicate 31 0) = 0 :=
    beValue_eq_zero_iff.mpr fun _ => List.eq_of_mem_replicate
  have hvalue : beValue (fieldByte b) = b.toNat := by
    rw [fieldByte, beValue_concat, hzero, Nat.mul_zero, Nat.zero_add]
  have hlt : b.toNat < p256 := b.toNat_lt.trans (by norm_num [p256])
  rw [← hvalue]
  exact eq_encodeElem (by simp [fieldByte]) (hvalue.trans_lt hlt)

theorem p256Curve_Δ_ne : p256Curve.Δ ≠ 0 := by
  have hb : beValue p256B =
      41058363725152142129326129780047268409114441015993725554835256314039467401291 := rfl
  have hnat : (64 * beValue p256A ^ 3 + 432 * beValue p256B ^ 2) % p256 ≠ 0 := by
    rw [beValue_p256A, hb, p256]
    norm_num
  rw [p256Curve, shortCurve_Δ, neg_ne_zero, p256CurveA, p256CurveB]
  intro hzero
  have hcast : ((64 * beValue p256A ^ 3 + 432 * beValue p256B ^ 2 : ℕ) : ZMod p256) = 0 := by
    push_cast
    exact hzero
  rw [ZMod.natCast_eq_zero_iff] at hcast
  exact hnat (Nat.mod_eq_zero_of_dvd hcast)

theorem two_ne_zero_p256 : (2 : ZMod p256) ≠ 0 := by
  have hdvd : ¬ p256 ∣ 2 := Nat.not_dvd_of_pos_of_lt (by decide) (by norm_num [p256])
  rwa [← ZMod.natCast_eq_zero_iff, Nat.cast_ofNat] at hdvd

theorem p256Curve_nonsingular {x y : ZMod p256}
    (h : y ^ 2 = x ^ 3 + p256CurveA * x + p256CurveB) : p256Curve.Nonsingular x y :=
  (p256Curve.equation_iff_nonsingular_of_Δ_ne_zero p256Curve_Δ_ne).mp (equation_shortCurve.mpr h)

end Curve

section Points

/-- The buffers of Jacobian coordinates. -/
def encodePoint (p : JPoint (ZMod p256)) : EccJpoint :=
  ⟨encodeElem p.x, encodeElem p.y, encodeElem p.z⟩

theorem jpointInfinity_eq : jpointInfinity = encodePoint JPoint.infinity := by
  rw [jpointInfinity, fieldByte_eq, UInt8.toNat_zero, Nat.cast_zero]
  rfl

theorem jpointIsInfinity_encodePoint (p : JPoint (ZMod p256)) :
    jpointIsInfinity (encodePoint p) = true ↔ p.z = 0 := fmodIsZero_encodeElem p.z

theorem jpointDouble_encodePoint (stale : ℕ → ℕ → Bignum) (p : JPoint (ZMod p256)) :
    jpointDouble stale (encodePoint p) = some (encodePoint (p.double p256CurveA)) := by
  have hthree : fieldByte 3 = encodeElem 3 := fieldByte_eq 3
  rw [jpointDouble, JPoint.double]
  by_cases hz : p.z = 0
  · rw [if_pos ((jpointIsInfinity_encodePoint p).mpr hz), if_pos hz]
  · rw [if_neg (mt (jpointIsInfinity_encodePoint p).mp hz), if_neg hz]
    have hzero : fmodIsZero (encodePoint p).y = true ↔ p.y = 0 := fmodIsZero_encodeElem p.y
    by_cases hy : p.y = 0
    · rw [if_pos (hzero.mpr hy), if_pos hy, jpointInfinity_eq]
    · rw [if_neg (mt hzero.mp hy), if_neg hy, encodePoint, p256A_eq, hthree]
      dsimp only
      -- one operation of the formula after another
      repeat first | rw [bind_fmodMul] | rw [bind_fmodAdd] | rw [bind_fmodSub]
      rw [encodePoint, JPoint.doubleFormula]

theorem jpointAdd_encodePoint (stale : ℕ → ℕ → Bignum) (p q : JPoint (ZMod p256)) :
    jpointAdd stale (encodePoint p) (encodePoint q) =
      some (encodePoint (p.add p256CurveA q)) := by
  rw [jpointAdd, JPoint.add]
  by_cases hp : p.z = 0
  · rw [if_pos ((jpointIsInfinity_encodePoint p).mpr hp), if_pos hp]
  · rw [if_neg (mt (jpointIsInfinity_encodePoint p).mp hp), if_neg hp]
    by_cases hq : q.z = 0
    · rw [if_pos ((jpointIsInfinity_encodePoint q).mpr hq), if_pos hq]
    · rw [if_neg (mt (jpointIsInfinity_encodePoint q).mp hq), if_neg hq]
      have hdouble := jpointDouble_encodePoint (fun i => stale (8 + i)) p
      rw [encodePoint] at hdouble ⊢
      rw [encodePoint]
      dsimp only
      repeat first | rw [bind_fmodMul] | rw [bind_fmodAdd] | rw [bind_fmodSub]
      simp only [encodeElem_inj, ne_eq]
      split
      · split
        · rw [jpointInfinity_eq]
        · next hs =>
          rw [if_pos (not_not.mp hs)]
          exact hdouble
      · rw [encodePoint, JPoint.addFormula]

theorem scalarLoop_encodePoint (stale : ℕ → ℕ → ℕ → Bignum) (base : JPoint (ZMod p256))
    (bits : List Bool) (i : ℕ) (result : JPoint (ZMod p256)) :
    scalarLoop stale (encodePoint base) bits i (encodePoint result) =
      some (encodePoint (bits.foldl (JPoint.multStep p256CurveA base) result)) := by
  induction bits generalizing i result with
  | nil => rfl
  | cons bit bits ih =>
    rw [scalarLoop, List.foldl_cons, jpointDouble_encodePoint, JPoint.multStep]
    cases bit with
    | false => exact ih _ _
    | true =>
      simp only [Option.bind_eq_bind, Option.bind_some, if_true, jpointAdd_encodePoint]
      exact ih _ _

/-- The bits of a scalar, taken byte by byte, are those of its number. -/
theorem msbVal_scalarBits (scalar : List UInt8) : msbVal (scalarBits scalar) = beValue scalar := by
  have hbyte : ∀ b : UInt8, ∀ n,
      (((List.range 8).map fun i => b.toNat.testBit (7 - i)).foldl
        (fun n bit => 2 * n + bit.toNat) n) = 256 * n + b.toNat := by
    intro b n
    have hb := b.toNat_lt
    simp only [List.range_succ, List.range_zero, List.nil_append, List.map_append, List.map_cons,
      List.map_nil, List.foldl_append, List.foldl_cons, List.foldl_nil, Nat.toNat_testBit]
    omega
  induction scalar using List.reverseRecOn with
  | nil => rfl
  | append_singleton scalar b ih =>
    rw [scalarBits, List.flatMap_append, List.flatMap_singleton, msbVal, List.foldl_append, hbyte,
      beValue_concat, ← ih]
    rfl

/-- A point with coordinates below the prime that satisfies the equation of the curve. -/
structure OnCurve (p : EccPoint) : Prop where
  x_length : p.x.length = 32
  y_length : p.y.length = 32
  x_lt : beValue p.x < p256
  y_lt : beValue p.y < p256
  equation : beValue p.y ^ 2 ≡
    beValue p.x ^ 3 + beValue p256A * beValue p.x + beValue p256B [MOD p256]

/-- The point of the curve with the given coordinates. -/
def OnCurve.point {p : EccPoint} (h : OnCurve p) : p256Curve.Point :=
  .some (beValue p.x : ZMod p256) (beValue p.y : ZMod p256) (p256Curve_nonsingular (by
    have hcast := (ZMod.natCast_eq_natCast_iff _ _ _).mpr h.equation
    push_cast at hcast
    exact hcast))

/-- The output stands for a point of the curve. -/
def EccPoint.IsPoint (p : EccPoint) : p256Curve.Point → Prop
  | .zero => p.infinity = true
  | .some x y _ => p.infinity = false ∧ p.x = encodeElem x ∧ p.y = encodeElem y

theorem jpointToAffine_encodePoint (stale : ℕ → ℕ → ℕ → Bignum) (out : EccPoint)
    {p : JPoint (ZMod p256)} {P : p256Curve.Point} (h : p.Represents P) :
    ∃ result, jpointToAffine stale (encodePoint p) out = some result ∧ result.IsPoint P := by
  rw [jpointToAffine]
  cases P with
  | zero =>
    have hz : p.z = 0 := h
    rw [if_pos ((jpointIsInfinity_encodePoint p).mpr hz)]
    exact ⟨_, rfl, rfl⟩
  | some x y hns =>
    obtain ⟨hz, hx, hy⟩ := h
    rw [if_neg (mt (jpointIsInfinity_encodePoint p).mp hz), encodePoint]
    dsimp only
    rw [fmodInv_encodeElem _ _ hz]
    simp only [Option.bind_eq_bind, Option.bind_some, fmodMul_encodeElem]
    refine ⟨_, rfl, rfl, ?_, ?_⟩
    · rw [encodeElem_inj, hx]
      field_simp
    · rw [encodeElem_inj, hy]
      field_simp

/-- The loops compute the multiple in Jacobian coordinates. -/
theorem OnCurve.scalarLoop_eq {p : EccPoint} (hp : OnCurve p) (stale : ℕ → ℕ → ℕ → Bignum)
    (scalar : List UInt8) :
    ∃ q : JPoint (ZMod p256), q.Represents (beValue scalar • hp.point) ∧
      scalarLoop stale ⟨p.x, p.y, fieldByte 1⟩ (scalarBits scalar) 0 jpointInfinity =
        some (encodePoint q) := by
  have htwo := two_ne_zero_p256
  have hbase : JPoint.Represents (⟨beValue p.x, beValue p.y, 1⟩ : JPoint (ZMod p256)) hp.point :=
    ⟨one_ne_zero, by rw [one_pow, mul_one], by rw [one_pow, mul_one]⟩
  have hencode : (⟨p.x, p.y, fieldByte 1⟩ : EccJpoint) =
      encodePoint ⟨beValue p.x, beValue p.y, 1⟩ := by
    rw [encodePoint, ← eq_encodeElem hp.x_length hp.x_lt, ← eq_encodeElem hp.y_length hp.y_lt,
      fieldByte_eq, UInt8.toNat_one, Nat.cast_one]
  have hmult := hbase.scalarMult htwo (scalarBits scalar)
  rw [msbVal_scalarBits] at hmult
  refine ⟨_, hmult, ?_⟩
  rw [hencode, jpointInfinity_eq, scalarLoop_encodePoint]
  rfl

theorem eccScalarMult_correct {scalar : List UInt8} {p : EccPoint} (hp : OnCurve p)
    (stale : ℕ → ℕ → ℕ → Bignum) (out : EccPoint) :
    ∃ result, eccScalarMult stale scalar p out = some result ∧
      result.IsPoint (beValue scalar • hp.point) := by
  obtain ⟨q, hmult, hloop⟩ := hp.scalarLoop_eq stale scalar
  rw [eccScalarMult, hloop, Option.bind_eq_bind, Option.bind_some]
  exact jpointToAffine_encodePoint _ out hmult

theorem onCurve_generator : OnCurve ⟨p256Gx, p256Gy, false⟩ where
  x_length := rfl
  y_length := rfl
  x_lt := by decide
  y_lt := by decide
  equation := by
    rw [Nat.ModEq]
    decide

theorem eccScalarMult_correct_generator :
    ∃ result, eccScalarMult (fun _ _ _ => bnZero) (fieldByte 2) ⟨p256Gx, p256Gy, false⟩
        ⟨[], [], false⟩ = some result ∧
      result.IsPoint (beValue (fieldByte 2) • onCurve_generator.point) :=
  eccScalarMult_correct onCurve_generator _ _

end Points

end AuroraOS.Crypto
