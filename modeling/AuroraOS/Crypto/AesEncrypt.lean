import AuroraOS.Crypto.Aes

/-!
# AES-128: decryption undoes encryption

The two halves of `kernel/aes.c` undo each other, whatever the round keys are.

## Main results

- `aesDecryptBlock_encryptBlock`
- `aes128CbcDecrypt_encrypt`
-/

namespace AuroraOS.Crypto

set_option maxRecDepth 4096

section field

/-- One doubling in the field. -/
def xtime (a : UInt8) : UInt8 := if a &&& 0x80 ≠ 0 then (a <<< 1) ^^^ 0x1b else a <<< 1

/-- A byte has a single bit or has it not. -/
theorem and_bit (x : UInt8) :
    ∀ m ∈ [(1 : UInt8), 2, 4, 8, 16, 32, 64, 128], x &&& m = 0 ∨ x &&& m = m := by
  intro m hm
  have hbit : ∃ i, m.toBitVec = BitVec.twoPow 8 i := by
    simp only [List.mem_cons, List.not_mem_nil, or_false] at hm
    obtain rfl | rfl | rfl | rfl | rfl | rfl | rfl | rfl := hm
    exacts [⟨0, rfl⟩, ⟨1, rfl⟩, ⟨2, rfl⟩, ⟨3, rfl⟩, ⟨4, rfl⟩, ⟨5, rfl⟩, ⟨6, rfl⟩, ⟨7, rfl⟩]
  obtain ⟨i, hi⟩ := hbit
  rw [← UInt8.toBitVec_inj, ← UInt8.toBitVec_inj, UInt8.toBitVec_and, hi, BitVec.and_twoPow]
  cases x.toBitVec.getLsbD i
  · exact .inl rfl
  · exact .inr rfl

theorem and_msb (a : UInt8) : a &&& 0x80 = 0 ∨ a &&& 0x80 = 0x80 :=
  and_bit a 0x80 (by decide)

theorem xor_and (a b c : UInt8) : (a ^^^ b) &&& c = (a &&& c) ^^^ (b &&& c) := by
  refine UInt8.toBitVec_inj.1 ?_
  ext i
  simp [Bool.and_xor_distrib_right]

theorem xor_left_comm (a b c : UInt8) : a ^^^ (b ^^^ c) = b ^^^ (a ^^^ c) := by
  rw [← UInt8.xor_assoc, UInt8.xor_comm a b, UInt8.xor_assoc]

theorem xtime_xor (a b : UInt8) : xtime (a ^^^ b) = xtime a ^^^ xtime b := by
  have hxx : (0x1b : UInt8) ^^^ 0x1b = 0 := by decide
  rw [xtime, xtime, xtime, xor_and, UInt8.shiftLeft_xor]
  obtain ha | ha := and_msb a <;> obtain hb | hb := and_msb b <;> rw [ha, hb]
  · simp
  · simp [UInt8.xor_assoc]
  · simp [UInt8.xor_assoc, UInt8.xor_comm, xor_left_comm]
  · simp only [UInt8.xor_self, ne_eq, not_true_eq_false, if_false]
    rw [if_pos (by decide), if_pos (by decide), UInt8.xor_assoc, xor_left_comm _ (b <<< 1), hxx,
      UInt8.xor_zero]

theorem gfMulStep_mk (result a b : UInt8) :
    gfMulStep (result, a, b) = (if b &&& 1 ≠ 0 then result ^^^ a else result, xtime a, b >>> 1) :=
  rfl

/-- Multiplication by a constant is additive. -/
theorem gfMul_xor (a b k : UInt8) : gfMul (a ^^^ b) k = gfMul a k ^^^ gfMul b k := by
  have hloop : ∀ (l : List ℕ) (r₁ r₂ a b k : UInt8),
      (l.foldl (fun r _ => gfMulStep r) (r₁ ^^^ r₂, a ^^^ b, k)).1 =
        (l.foldl (fun r _ => gfMulStep r) (r₁, a, k)).1 ^^^
          (l.foldl (fun r _ => gfMulStep r) (r₂, b, k)).1 := by
    intro l
    induction l with
    | nil => intros; rfl
    | cons i l ih =>
      intro r₁ r₂ a b k
      simp only [List.foldl_cons, gfMulStep_mk, xtime_xor]
      split
      · rw [← ih]
        congr 3
        rw [UInt8.xor_assoc, UInt8.xor_assoc, xor_left_comm r₂ a b]
      · exact ih ..
  have h := hloop (List.range 8) 0 0 a b k
  rwa [UInt8.xor_zero] at h

/-- A byte is the sum of its bits. -/
theorem eq_xor_bits (x : UInt8) : x = (x &&& 1) ^^^ (x &&& 2) ^^^ (x &&& 4) ^^^ (x &&& 8) ^^^
    (x &&& 16) ^^^ (x &&& 32) ^^^ (x &&& 64) ^^^ (x &&& 128) := by
  have hmask : (255 : UInt8) = 1 ^^^ 2 ^^^ 4 ^^^ 8 ^^^ 16 ^^^ 32 ^^^ 64 ^^^ 128 := by decide
  have hall : x &&& 255 = x := UInt8.and_neg_one
  calc x = x &&& 255 := hall.symm
    _ = _ := by
      rw [hmask]
      simp only [xor_and, UInt8.and_comm x]

/-- Two additive functions that agree on the single bits agree. -/
theorem eq_of_bits {f g : UInt8 → UInt8} (hf : ∀ a b, f (a ^^^ b) = f a ^^^ f b)
    (hg : ∀ a b, g (a ^^^ b) = g a ^^^ g b) (hzero : f 0 = g 0)
    (hbits : [(1 : UInt8), 2, 4, 8, 16, 32, 64, 128].all (fun m => f m == g m) = true) (x : UInt8) :
    f x = g x := by
  have hand : ∀ m ∈ [(1 : UInt8), 2, 4, 8, 16, 32, 64, 128], f (x &&& m) = g (x &&& m) := by
    intro m hm
    obtain h | h := and_bit x m hm <;> rw [h]
    · exact hzero
    · exact eq_of_beq (List.all_eq_true.mp hbits m hm)
  rw [eq_xor_bits x]
  simp only [hf, hg]
  simp only [List.mem_cons, forall_eq_or_imp] at hand
  obtain ⟨h₁, h₂, h₄, h₈, h₁₆, h₃₂, h₆₄, h₁₂₈, -⟩ := hand
  rw [h₁, h₂, h₄, h₈, h₁₆, h₃₂, h₆₄, h₁₂₈]

/-- The products of the two matrices of `MixColumns`, entry by entry. -/
theorem gfMul_entries (x : UInt8) :
    gfMul (gfMul x 2) 14 ^^^ gfMul x 11 ^^^ gfMul x 13 ^^^ gfMul (gfMul x 3) 9 = x ∧
    gfMul (gfMul x 3) 14 ^^^ gfMul (gfMul x 2) 11 ^^^ gfMul x 13 ^^^ gfMul x 9 = 0 ∧
    gfMul x 14 ^^^ gfMul (gfMul x 3) 11 ^^^ gfMul (gfMul x 2) 13 ^^^ gfMul x 9 = 0 ∧
    gfMul x 14 ^^^ gfMul x 11 ^^^ gfMul (gfMul x 3) 13 ^^^ gfMul (gfMul x 2) 9 = 0 := by
  refine ⟨?_, ?_, ?_, ?_⟩ <;> revert x <;>
    refine eq_of_bits (fun a b => ?_) (fun _ _ => rfl) (by decide) (by decide)
  all_goals
    simp only [gfMul_xor]
    ac_rfl

end field

section rounds

theorem AesState.at_ofColumns (f : Fin 4 → Fin 4 → UInt8) (c r : Fin 4) :
    (AesState.ofColumns f).at c r = f c r := by
  have h₁ : (⟨(c.val * 4 + r.val) / 4, by omega⟩ : Fin 4) = c := Fin.ext (by simp only; omega)
  have h₂ : (⟨(c.val * 4 + r.val) % 4, by omega⟩ : Fin 4) = r := Fin.ext (by simp only; omega)
  change (Vector.ofFn _)[c.val * 4 + r.val] = _
  rw [Vector.getElem_ofFn]
  simp only [h₁, h₂]

/-- A block is what its columns are. -/
theorem AesState.ext_at {s s' : AesState} (h : ∀ c r, s.at c r = s'.at c r) : s = s' := by
  ext i hi
  have hat : s[i / 4 * 4 + i % 4] = s'[i / 4 * 4 + i % 4] :=
    h ⟨i / 4, by omega⟩ ⟨i % 4, by omega⟩
  have hidx : i / 4 * 4 + i % 4 = i := by omega
  simp only [hidx] at hat
  rw [hat]

theorem aesInvMixColumns_mixColumns (s : AesState) : aesInvMixColumns (aesMixColumns s) = s := by
  refine AesState.ext_at fun c r => ?_
  have hr : ∀ r : Fin 4, r + 1 + 3 = r ∧ r + 2 + 2 = r ∧ r + 3 + 1 = r ∧ r + 1 + 1 = r + 2 ∧
      r + 1 + 2 = r + 3 ∧ r + 2 + 1 = r + 3 ∧ r + 2 + 3 = r + 1 ∧ r + 3 + 2 = r + 1 ∧
      r + 3 + 3 = r + 2 := by decide
  obtain ⟨h₁, h₂, h₃, h₄, h₅, h₆, h₇, h₈, h₉⟩ := hr r
  simp only [aesInvMixColumns, aesMixColumns, AesState.at_ofColumns, gfMul_xor, h₁, h₂, h₃, h₄, h₅,
    h₆, h₇, h₈, h₉]
  generalize s.at c r = a₀
  generalize s.at c (r + 1) = a₁
  generalize s.at c (r + 2) = a₂
  generalize s.at c (r + 3) = a₃
  -- what each byte of the column contributes
  calc _ = (gfMul (gfMul a₀ 2) 14 ^^^ gfMul a₀ 11 ^^^ gfMul a₀ 13 ^^^ gfMul (gfMul a₀ 3) 9) ^^^
        (gfMul (gfMul a₁ 3) 14 ^^^ gfMul (gfMul a₁ 2) 11 ^^^ gfMul a₁ 13 ^^^ gfMul a₁ 9) ^^^
        (gfMul a₂ 14 ^^^ gfMul (gfMul a₂ 3) 11 ^^^ gfMul (gfMul a₂ 2) 13 ^^^ gfMul a₂ 9) ^^^
        (gfMul a₃ 14 ^^^ gfMul a₃ 11 ^^^ gfMul (gfMul a₃ 3) 13 ^^^ gfMul (gfMul a₃ 2) 9) :=
          by ac_rfl
    _ = a₀ := by
      rw [(gfMul_entries a₀).1, (gfMul_entries a₁).2.1, (gfMul_entries a₂).2.2.1,
        (gfMul_entries a₃).2.2.2]
      simp only [UInt8.xor_zero]

theorem aesInvShiftRows_shiftRows (s : AesState) : aesInvShiftRows (aesShiftRows s) = s := by
  refine AesState.ext_at fun c r => ?_
  rw [aesInvShiftRows, aesShiftRows, AesState.at_ofColumns, AesState.at_ofColumns,
    show c - r + r = c by revert c r; decide]

theorem getD_toList {α : Type} (xs : Array α) (i : ℕ) (d : α) :
    xs.getD i d = xs.toList.getD i d := by
  rw [Array.getD_eq_getD_getElem?, List.getD_eq_getElem?_getD, Array.getElem?_toList]

section Tables

/-- Whether the numbers are distinct, and none of them is in the mask. -/
def distinctBits : ℕ → List ℕ → Bool
  | _, [] => true
  | mask, n :: ns => !mask.testBit n && distinctBits (mask ||| 2 ^ n) ns

theorem nodup_of_distinctBits {ns : List ℕ} {mask : ℕ} (h : distinctBits mask ns = true) :
    ns.Nodup ∧ ∀ n ∈ ns, mask.testBit n = false := by
  induction ns generalizing mask with
  | nil => exact ⟨List.nodup_nil, fun _ h => absurd h List.not_mem_nil⟩
  | cons n ns ih =>
    rw [distinctBits, Bool.and_eq_true, Bool.not_eq_true'] at h
    obtain ⟨hnodup, hmask⟩ := ih h.2
    simp only [Nat.testBit_or, Bool.or_eq_false_iff, Nat.testBit_two_pow] at hmask
    refine ⟨List.nodup_cons.mpr ⟨fun hmem => ?_, hnodup⟩, fun m hm => ?_⟩
    · exact absurd (hmask n hmem).2 (by simp)
    · obtain rfl | hm := List.mem_cons.mp hm
      · exact h.1
      · exact (hmask m hm).1

variable {f : ℕ → ℕ} {g : ℕ → UInt8} {l : List ℕ}

theorem scatter_getD_of_notMem {j : ℕ} (hj : j ∉ l.map f) (t : Array UInt8) :
    (l.foldl (fun t i => t.setIfInBounds (f i) (g i)) t).getD j 0 = t.getD j 0 := by
  induction l generalizing t with
  | nil => rfl
  | cons i l ih =>
    rw [List.map_cons, List.mem_cons, not_or] at hj
    rw [List.foldl_cons, ih hj.2, Array.getD_eq_getD_getElem?, Array.getD_eq_getD_getElem?,
      Array.getElem?_setIfInBounds_ne (Ne.symm hj.1)]

/-- What is written to distinct places of a table stays there. -/
theorem scatter_getD (hnodup : (l.map f).Nodup) (t : Array UInt8) (hf : ∀ i ∈ l, f i < t.size)
    {i : ℕ} (hi : i ∈ l) :
    (l.foldl (fun t i => t.setIfInBounds (f i) (g i)) t).getD (f i) 0 = g i := by
  induction l generalizing t with
  | nil => exact absurd hi List.not_mem_nil
  | cons k l ih =>
    rw [List.map_cons, List.nodup_cons] at hnodup
    rw [List.foldl_cons]
    obtain rfl | hi := List.mem_cons.mp hi
    · rw [scatter_getD_of_notMem hnodup.1, Array.getD_eq_getD_getElem?,
        Array.getElem?_setIfInBounds_self_of_lt (hf i List.mem_cons_self)]
      rfl
    · refine ih hnodup.2 _ (fun j hj => ?_) hi
      rw [Array.size_setIfInBounds]
      exact hf j (List.mem_cons_of_mem k hj)

end Tables

theorem aesSbox_nodup : ((List.range 256).map fun i => (aesSbox.getD i 0).toNat).Nodup := by
  have hlist : (List.range 256).map (fun i => (aesSbox.getD i 0).toNat) =
      aesSbox.toList.map UInt8.toNat := by
    have hsize : aesSbox.toList.length = 256 := by decide
    refine List.ext_getElem ?_ fun i hi hi' => ?_
    · rw [List.length_map, List.length_map, List.length_range, hsize]
    · rw [List.length_map] at hi'
      rw [List.getElem_map, List.getElem_map, List.getElem_range, getD_toList,
        List.getD_eq_getElem?_getD, List.getElem?_eq_getElem hi', Option.getD_some]
  rw [hlist]
  exact (@nodup_of_distinctBits _ 0 (by decide)).1

theorem aesInvSbox_sbox (x : UInt8) : aesInvSbox.getD (aesSbox.getD x.toNat 0).toNat 0 = x := by
  have hsize : ∀ i ∈ List.range 256,
      (aesSbox.getD i 0).toNat < (Array.replicate 256 (0 : UInt8)).size := by
    intro i _
    rw [Array.size_replicate]
    exact UInt8.toNat_lt _
  have h := scatter_getD (g := UInt8.ofNat) aesSbox_nodup _ hsize
    (List.mem_range.mpr (UInt8.toNat_lt x))
  rwa [UInt8.ofNat_toNat] at h

theorem aesInvSubBytes_subBytes (s : AesState) : aesInvSubBytes (aesSubBytes s) = s := by
  ext i hi
  simp only [aesInvSubBytes, aesSubBytes, Vector.getElem_map, aesInvSbox_sbox]

theorem aesAddRoundKey_self (roundKey : Array UInt32) (round : ℕ) (s : AesState) :
    aesAddRoundKey roundKey round (aesAddRoundKey roundKey round s) = s := by
  refine AesState.ext_at fun c r => ?_
  rw [aesAddRoundKey, aesAddRoundKey, AesState.at_ofColumns, AesState.at_ofColumns,
    UInt8.xor_assoc, UInt8.xor_self, UInt8.xor_zero]

/-- The body of the loop of `aes_decrypt_block`, counted from round `n` downwards. -/
def aesInvRound (roundKey : Array UInt32) (n : ℕ) (s : AesState) (i : ℕ) : AesState :=
  aesInvMixColumns (aesAddRoundKey roundKey (n - i) (aesInvSubBytes (aesInvShiftRows s)))

/-- After as many rounds backwards as there were forwards, one substitution and shift is left. -/
theorem aesInvRound_round (roundKey : Array UInt32) (n : ℕ) (s : AesState) :
    (List.range n).foldl (aesInvRound roundKey n)
        (aesShiftRows (aesSubBytes ((List.range n).foldl (aesRound roundKey) s))) =
      aesShiftRows (aesSubBytes s) := by
  induction n with
  | zero => rfl
  | succ n ih =>
    have hforward : (List.range (n + 1)).foldl (aesRound roundKey) s =
        aesRound roundKey ((List.range n).foldl (aesRound roundKey) s) n := by
      rw [List.range_succ, List.foldl_append, List.foldl_cons, List.foldl_nil]
    have hbackward : ∀ s, (List.range (n + 1)).foldl (aesInvRound roundKey (n + 1)) s =
        (List.range n).foldl (aesInvRound roundKey n) (aesInvRound roundKey (n + 1) s 0) := by
      intro s
      have hshift : (fun s i => aesInvRound roundKey (n + 1) s (Nat.succ i)) =
          aesInvRound roundKey n := by
        funext s i
        rw [aesInvRound, aesInvRound, Nat.succ_eq_add_one, Nat.add_sub_add_right]
      rw [List.range_succ_eq_map, List.foldl_cons, List.foldl_map, hshift]
    have hcancel : ∀ s, aesInvRound roundKey (n + 1)
        (aesShiftRows (aesSubBytes (aesRound roundKey s n))) 0 =
          aesShiftRows (aesSubBytes s) := by
      intro s
      rw [aesInvRound, aesRound, aesInvShiftRows_shiftRows, aesInvSubBytes_subBytes, Nat.sub_zero,
        aesAddRoundKey_self, aesInvMixColumns_mixColumns]
    rw [hbackward, hforward, hcancel, ih]

/-- Decrypting a block that was encrypted gives it back. -/
theorem aesDecryptBlock_encryptBlock (roundKey : Array UInt32) (s : AesState) :
    aesDecryptBlock roundKey (aesEncryptBlock roundKey s) = s := by
  have hdecrypt : ∀ s, aesDecryptBlock roundKey s =
      aesAddRoundKey roundKey 0 (aesInvSubBytes (aesInvShiftRows
        ((List.range (aesRounds - 1)).foldl (aesInvRound roundKey (aesRounds - 1))
          (aesAddRoundKey roundKey aesRounds s)))) := fun _ => rfl
  rw [hdecrypt, aesEncryptBlock, aesAddRoundKey_self, aesInvRound_round,
    aesInvShiftRows_shiftRows, aesInvSubBytes_subBytes, aesAddRoundKey_self]

end rounds

section cbc

theorem AesState.ofBytes_toList_append (b : AesState) (rest : List UInt8) :
    AesState.ofBytes (b.toList ++ rest) = b := by
  ext i hi
  simp [AesState.ofBytes, List.getD_eq_getElem?_getD, List.getElem?_append_left]

theorem AesState.toList_ofBytes {bytes : List UInt8} (h : 16 ≤ bytes.length) :
    (AesState.ofBytes bytes).toList = bytes.take 16 := by
  refine List.ext_getElem (by simp [h]) fun i h₁ h₂ => ?_
  have hi : i < bytes.length := by simp at h₂; omega
  simp [AesState.ofBytes, List.getD_eq_getElem?_getD, hi]

theorem length_cbcEncryptLoop (roundKey : Array UInt32) (n : ℕ) (prev : AesState)
    (plaintext : List UInt8) : (cbcEncryptLoop roundKey n prev plaintext).length = 16 * n := by
  induction n generalizing prev plaintext with
  | zero => rfl
  | succ n ih =>
    rw [cbcEncryptLoop, List.length_append, ih, Vector.length_toList]
    omega

theorem cbcDecryptLoop_encryptLoop (roundKey : Array UInt32) (n : ℕ) (prev : AesState)
    (plaintext : List UInt8) (h : plaintext.length = 16 * n) :
    cbcDecryptLoop roundKey n prev (cbcEncryptLoop roundKey n prev plaintext) = plaintext := by
  induction n generalizing prev plaintext with
  | zero => exact (List.length_eq_zero_iff.mp h).symm
  | succ n ih =>
    have hblock : ∀ block : AesState, (aesEncryptBlock roundKey block).toList.length = 16 :=
      fun _ => Vector.length_toList
    rw [cbcEncryptLoop, cbcDecryptLoop, AesState.ofBytes_toList_append,
      aesDecryptBlock_encryptBlock, List.drop_left' (hblock _),
      ih _ _ (by rw [List.length_drop]; omega)]
    have hxor : ((AesState.ofBytes plaintext).zipWith (· ^^^ ·) prev).zipWith (· ^^^ ·) prev =
        AesState.ofBytes plaintext := by
      ext i hi
      simp [UInt8.xor_assoc]
    rw [hxor, AesState.toList_ofBytes (by omega), List.take_append_drop]

theorem length_aes128CbcEncrypt (key iv : List UInt8) {plaintext : List UInt8}
    (h : plaintext.length % 16 = 0) :
    (aes128CbcEncrypt key iv plaintext).length = plaintext.length := by
  rw [aes128CbcEncrypt, length_cbcEncryptLoop]
  omega

/-- Whole blocks survive encryption and decryption. -/
theorem aes128CbcDecrypt_encrypt (key iv : List UInt8) {plaintext : List UInt8}
    (h : plaintext.length % 16 = 0) :
    aes128CbcDecrypt key iv (aes128CbcEncrypt key iv plaintext) = plaintext := by
  rw [aes128CbcDecrypt, length_aes128CbcEncrypt key iv h, aes128CbcEncrypt]
  exact cbcDecryptLoop_encryptLoop _ _ _ _ (by omega)

end cbc

end AuroraOS.Crypto
