import AuroraOS.Lib.Buffer
import Mathlib.Data.List.Basic
import Mathlib.Data.List.TakeWhile

/-!
# Strings in buffers

A string of C: the bytes in front of the first zero of a buffer. The library functions fail where
they would leave a buffer, which they do for want of a zero too.

## Main definitions

- `Buffer.Holds` — the buffer holds a string and its terminator
- `Buffer.strlen`, `Buffer.strcpy`, `Buffer.strcat`

## Main results

- `Buffer.Holds.strcpy`, `Buffer.Holds.strcat`
- `Buffer.Holds.closeGap`, `Buffer.Holds.openGap` — the loops that remove and insert a character
-/

namespace AuroraOS.Lib

/-- The string at the start of an array. -/
def cString (bytes : List UInt8) : List UInt8 := bytes.takeWhile (· ≠ 0)

theorem zero_notMem_cString (bytes : List UInt8) : 0 ∉ cString bytes := by
  intro h
  rw [cString] at h
  have hne := List.mem_takeWhile_imp h
  exact absurd hne (by decide)

/-- A terminator does not count. -/
theorem cString_append_zero (bytes : List UInt8) : cString (bytes ++ [0]) = cString bytes := by
  induction bytes with
  | nil => rfl
  | cons b bytes ih =>
    rw [cString, cString, List.cons_append, List.takeWhile_cons, List.takeWhile_cons]
    split_ifs
    · exact congrArg (b :: ·) ih
    · rfl

theorem cString_eq_self {s : List UInt8} (h : 0 ∉ s) : cString s = s :=
  List.takeWhile_eq_self_iff.mpr fun _ hb => decide_eq_true fun hzero => h (hzero ▸ hb)

namespace Buffer

variable {m n i k : ℕ} {buf dst : Buffer n} {src : Buffer m} {s t : List UInt8} {b : UInt8}

section Definitions

/-- A cleared buffer. -/
def zeros (n : ℕ) : Buffer n := ⟨List.replicate n 0, List.length_replicate⟩

/-- The bytes in front of the first zero. -/
def str (buf : Buffer n) : List UInt8 := buf.bytes.takeWhile (· ≠ 0)

def get (buf : Buffer n) (i : ℕ) : Option UInt8 := buf.bytes[i]?

def set (buf : Buffer n) (i : ℕ) (b : UInt8) : Option (Buffer n) :=
  if i < n then some ⟨buf.bytes.set i b, by rw [List.length_set, buf.length_bytes]⟩ else none

def strlen (buf : Buffer n) : Option ℕ := if 0 ∈ buf.bytes then some buf.str.length else none

/-- `strcpy(dst, src + k)`. -/
def strcpy (dst : Buffer n) (src : Buffer m) (k : ℕ) : Option (Buffer n) :=
  if 0 ∈ src.bytes.drop k then dst.store 0 ((src.bytes.drop k).takeWhile (· ≠ 0) ++ [0]) else none

def strcat (dst : Buffer n) (src : Buffer m) : Option (Buffer n) := do
  let len ← dst.strlen
  if 0 ∈ src.bytes then dst.store len (src.str ++ [0]) else none

/-- `n` turns of `line[i] = line[i + 1]`, with `i` going up. -/
def closeGap : ℕ → ℕ → Buffer m → Option (Buffer m)
  | 0, _, buf => some buf
  | n + 1, i, buf => do
    let b ← buf.get (i + 1)
    let buf ← buf.set i b
    closeGap n (i + 1) buf

/-- `n` turns of `line[i + 1] = line[i]`, with `i` going down. -/
def openGap : ℕ → ℕ → Buffer m → Option (Buffer m)
  | 0, _, buf => some buf
  | n + 1, i, buf => do
    let b ← buf.get i
    let buf ← buf.set (i + 1) b
    openGap n (i - 1) buf

/-- `while (src[pos] && p(src[pos]) && len < max) dst[len++] = src[pos++]`: where it ends. -/
def copyWhile (src : Buffer m) (p : UInt8 → Bool) (max : ℕ) :
    ℕ → ℕ → ℕ → Buffer n → Option (ℕ × ℕ × Buffer n)
  | 0, _, _, _ => none
  | fuel + 1, pos, len, dst => do
    let c ← src.get pos
    if c ≠ 0 ∧ p c ∧ len < max then do
      let dst ← dst.set len c
      copyWhile src p max fuel (pos + 1) (len + 1) dst
    else some (pos, len, dst)

end Definitions

section Holds

/-- The buffer holds the string `s` and its terminator. -/
structure Holds (buf : Buffer n) (s : List UInt8) : Prop where
  nonzero : 0 ∉ s
  start : buf.StartsWith (s ++ [0])

theorem takeWhile_ne_zero (h : 0 ∉ s) (rest : List UInt8) :
    (s ++ 0 :: rest).takeWhile (· ≠ 0) = s := by
  have hs : ∀ b ∈ s, decide (b ≠ 0) = true := fun b hb =>
    decide_eq_true fun h0 => h (h0 ▸ hb)
  rw [List.takeWhile_append_of_pos hs, List.takeWhile_cons, if_neg (by decide), List.append_nil]

namespace Holds

theorem length_lt (h : buf.Holds s) : s.length < n := by
  have hle := h.start.length_le
  rwa [List.length_append, List.length_singleton] at hle

theorem exists_rest (h : buf.Holds s) : ∃ rest, buf.bytes = s ++ 0 :: rest := by
  obtain ⟨rest, hrest⟩ := h.start
  exact ⟨rest, by rw [← hrest, List.append_assoc, List.singleton_append]⟩

theorem zero_mem (h : buf.Holds s) : 0 ∈ buf.bytes := by
  obtain ⟨rest, hrest⟩ := h.exists_rest
  rw [hrest]
  exact List.mem_append_right s List.mem_cons_self

theorem str_eq (h : buf.Holds s) : buf.str = s := by
  obtain ⟨rest, hrest⟩ := h.exists_rest
  rw [str, hrest, takeWhile_ne_zero h.nonzero]

theorem unique (h : buf.Holds s) (h' : buf.Holds t) : s = t := h.str_eq.symm.trans h'.str_eq

theorem strlen_eq (h : buf.Holds s) : buf.strlen = some s.length := by
  rw [strlen, if_pos h.zero_mem, h.str_eq]

theorem get_eq (h : buf.Holds s) (hi : i < s.length) : buf.get i = s[i]? := by
  obtain ⟨rest, hrest⟩ := h.exists_rest
  rw [get, hrest, List.getElem?_append_left hi]

theorem get_length (h : buf.Holds s) : buf.get s.length = some 0 := by
  obtain ⟨rest, hrest⟩ := h.exists_rest
  rw [get, hrest, List.getElem?_append_right (Nat.le_refl _), Nat.sub_self]
  rfl

/-- The first characters, in one load. -/
theorem load_take (h : buf.Holds s) (hk : k ≤ s.length) : buf.load 0 k = some (s.take k) := by
  rw [h.start.load (by rw [List.length_append]; omega), List.drop_zero,
    List.take_append_of_le_length hk]

end Holds

/-- A buffer with a zero holds the bytes in front of the first one. -/
theorem holds_str (h : 0 ∈ buf.bytes) : buf.Holds buf.str := by
  obtain ⟨front, rest, hsplit, hfront⟩ := List.eq_append_cons_of_mem h
  have hstr : buf.str = front := by rw [str, hsplit, takeWhile_ne_zero hfront]
  rw [hstr]
  exact ⟨hfront, rest, by rw [hsplit, List.append_assoc, List.singleton_append]⟩

theorem holds_of_getElem? (hs : 0 ∉ s) (hget : ∀ i < s.length, buf.get i = s[i]?)
    (hend : buf.get s.length = some 0) :
    buf.Holds s := by
  refine ⟨hs, List.prefix_iff_getElem?.mpr fun i hi => ?_⟩
  rw [List.length_append, List.length_singleton] at hi
  obtain hi | rfl := Nat.lt_succ_iff_lt_or_eq.mp hi
  · rw [List.getElem_append_left hi, ← List.getElem?_eq_getElem hi]
    exact hget i hi
  · rw [List.getElem_concat_length rfl]
    exact hend

end Holds

section Functions

theorem exists_set (buf : Buffer n) (hi : i < n) (b : UInt8) :
    ∃ buf', buf.set i b = some buf' ∧
      ∀ j, buf'.get j = if j = i then some b else buf.get j := by
  refine ⟨_, if_pos hi, fun j => ?_⟩
  have hlen : i < buf.bytes.length := buf.length_bytes.symm ▸ hi
  rw [get, get, List.getElem?_set]
  by_cases hj : i = j
  · rw [if_pos hj, if_pos hj.symm, if_pos hlen]
  · rw [if_neg hj, if_neg fun h => hj h.symm]

/-- A cleared buffer that was filled with `s` from the front. -/
structure Filled (buf : Buffer n) (s : List UInt8) : Prop where
  length_le : s.length ≤ n
  bytes_eq : buf.bytes = s ++ List.replicate (n - s.length) 0

theorem filled_zeros (n : ℕ) : (zeros n).Filled [] := ⟨Nat.zero_le n, rfl⟩

theorem exists_replicate (hlt : s.length < n) :
    ∃ k, List.replicate (n - s.length) (0 : UInt8) = 0 :: List.replicate k 0 ∧
      s.length + 1 + k = n :=
  ⟨n - s.length - 1, by rw [← List.replicate_succ, Nat.sub_add_cancel (by omega)], by omega⟩

/-- There is room for every string that is short enough. -/
theorem exists_holds (hs : 0 ∉ s) (hlt : s.length < n) : ∃ buf : Buffer n, buf.Holds s := by
  obtain ⟨k, hk, -⟩ := exists_replicate hlt
  refine ⟨⟨s ++ List.replicate (n - s.length) 0, ?_⟩, hs, List.replicate k 0, ?_⟩
  · rw [List.length_append, List.length_replicate]
    omega
  · show s ++ [0] ++ List.replicate k 0 = s ++ List.replicate (n - s.length) 0
    rw [hk, List.append_assoc, List.singleton_append]

theorem Filled.set (h : buf.Filled s) (hlt : s.length < n) (b : UInt8) :
    ∃ buf', buf.set s.length b = some buf' ∧
      buf'.bytes = s ++ b :: List.replicate (n - (s.length + 1)) 0 := by
  obtain ⟨k, hk, hn⟩ := exists_replicate hlt
  refine ⟨_, if_pos hlt, ?_⟩
  show buf.bytes.set s.length b = _
  rw [h.bytes_eq, hk, List.set_append_right _ _ (Nat.le_refl _), Nat.sub_self, List.set_cons_zero,
    show n - (s.length + 1) = k by omega]

theorem Filled.push (h : buf.Filled s) (hlt : s.length < n) (b : UInt8) :
    ∃ buf', buf.set s.length b = some buf' ∧ buf'.Filled (s ++ [b]) := by
  obtain ⟨buf', hset, hbytes⟩ := h.set hlt b
  have hlen : (s ++ [b]).length = s.length + 1 := List.length_append
  exact ⟨buf', hset, by omega, by rw [hbytes, hlen, List.append_assoc, List.singleton_append]⟩

/-- The terminator changes nothing. -/
theorem Filled.terminate (h : buf.Filled s) (hlt : s.length < n) :
    ∃ buf', buf.set s.length 0 = some buf' ∧ buf'.Filled s := by
  obtain ⟨buf', hset, hbytes⟩ := h.set hlt 0
  refine ⟨buf', hset, h.length_le, ?_⟩
  rw [hbytes, ← List.replicate_succ, show n - (s.length + 1) + 1 = n - s.length by omega]

/-- It holds the bytes in front of the first zero. -/
theorem Filled.holds (h : buf.Filled s) (hlt : s.length < n) :
    buf.Holds (s.takeWhile (· ≠ 0)) := by
  obtain ⟨k, hk, -⟩ := exists_replicate hlt
  have hzero : 0 ∈ buf.bytes := by
    rw [h.bytes_eq, hk]
    exact List.mem_append_right s List.mem_cons_self
  have hstr : buf.str = s.takeWhile (· ≠ 0) := by
    rw [str, h.bytes_eq, hk, List.takeWhile_append]
    split_ifs with hlen
    · rw [List.takeWhile_cons, if_neg (by decide), List.append_nil]
      exact ((List.takeWhile_prefix _).eq_of_length hlen).symm
    · rfl
  exact hstr ▸ holds_str hzero

theorem Holds.truncate (h : buf.Holds s) (hk : k ≤ s.length) :
    ∃ buf', buf.set k 0 = some buf' ∧ buf'.Holds (s.take k) := by
  have hlt := h.length_lt
  obtain ⟨buf', hset, hget⟩ := buf.exists_set (by omega : k < n) 0
  have hlen : (s.take k).length = k := List.length_take_of_le hk
  refine ⟨buf', hset, holds_of_getElem? (fun h0 => h.nonzero (List.mem_of_mem_take h0))
    (fun i hi => ?_) ?_⟩
  · rw [hget, if_neg (by omega), h.get_eq (by omega), List.getElem?_take_of_lt (by omega)]
  · rw [hlen, hget, if_pos rfl]

theorem Holds.strcpy (h : src.Holds s) (hk : k ≤ s.length) (hfit : s.length - k < n)
    (dst : Buffer n) : ∃ dst', dst.strcpy src k = some dst' ∧ dst'.Holds (s.drop k) := by
  obtain ⟨rest, hrest⟩ := h.exists_rest
  have hdrop : src.bytes.drop k = s.drop k ++ 0 :: rest := by
    rw [hrest, List.drop_append_of_le_length hk]
  have hnonzero : 0 ∉ s.drop k := fun h0 => h.nonzero (List.mem_of_mem_drop h0)
  obtain ⟨dst', hstore, hstart⟩ : ∃ dst', dst.store 0 (s.drop k ++ [0]) = some dst' ∧
      dst'.StartsWith (s.drop k ++ [0]) :=
    dst.startsWith_nil.store rfl
      (by rw [List.length_append, List.length_drop, List.length_singleton]; omega)
  refine ⟨dst', ?_, hnonzero, hstart⟩
  rw [Buffer.strcpy, hdrop, if_pos (List.mem_append_right _ List.mem_cons_self),
    takeWhile_ne_zero hnonzero, hstore]

theorem Holds.strcat (h : dst.Holds s) (h' : src.Holds t) (hfit : s.length + t.length < n) :
    ∃ dst', dst.strcat src = some dst' ∧ dst'.Holds (s ++ t) := by
  obtain ⟨rest, hrest⟩ := h.exists_rest
  have hstart : dst.StartsWith s := ⟨0 :: rest, hrest.symm⟩
  obtain ⟨dst', hstore, hstart'⟩ := hstart.store rfl
    (show s.length + (t ++ [0]).length ≤ n
      by rw [List.length_append, List.length_singleton]; omega)
  refine ⟨dst', ?_, ?_, by rwa [List.append_assoc]⟩
  · rw [Buffer.strcat, h.strlen_eq, Option.bind_eq_bind, Option.bind_some, if_pos h'.zero_mem,
      h'.str_eq, hstore]
  · rw [List.mem_append, not_or]
    exact ⟨h.nonzero, h'.nonzero⟩

theorem exists_closeGap (k i : ℕ) (buf : Buffer n) (h : i + k < n) :
    ∃ buf', closeGap k i buf = some buf' ∧
      ∀ j, buf'.get j = if i ≤ j ∧ j < i + k then buf.get (j + 1) else buf.get j := by
  induction k generalizing i buf with
  | zero => exact ⟨buf, rfl, fun j => by rw [if_neg (by omega)]⟩
  | succ k ih =>
    have hi : i + 1 < buf.bytes.length := by rw [buf.length_bytes]; omega
    have hget : buf.get (i + 1) = some buf.bytes[i + 1] := List.getElem?_eq_getElem hi
    obtain ⟨buf₁, hset, hget₁⟩ := buf.exists_set (by omega : i < n) buf.bytes[i + 1]
    obtain ⟨buf', hrest, hget'⟩ := ih (i + 1) buf₁ (by omega)
    have hrun : closeGap (k + 1) i buf = some buf' := by
      rw [closeGap, hget, Option.bind_eq_bind, Option.bind_some]
      exact Option.bind_eq_some_iff.mpr ⟨buf₁, hset, hrest⟩
    refine ⟨buf', hrun, fun j => ?_⟩
    rw [hget', hget₁, hget₁]
    by_cases hj : j = i
    · rw [if_neg (by omega), if_pos hj, if_pos (by omega), hj, hget]
    · rw [if_neg hj]
      by_cases hin : i + 1 ≤ j ∧ j < i + 1 + k
      · rw [if_pos hin, if_neg (by omega), if_pos (by omega)]
      · rw [if_neg hin, if_neg (by omega)]

/-- A byte right behind what is known extends it. -/
theorem StartsWith.push (h : buf.StartsWith s) (hlt : s.length < n) (b : UInt8) :
    ∃ buf', buf.set s.length b = some buf' ∧ buf'.StartsWith (s ++ [b]) := by
  refine ⟨_, if_pos hlt, ?_⟩
  obtain ⟨rest, hrest⟩ := h
  have hlen := buf.length_bytes
  rw [← hrest, List.length_append] at hlen
  cases rest with
  | nil =>
    rw [List.length_nil] at hlen
    omega
  | cons c rest =>
    refine ⟨rest, ?_⟩
    show s ++ [b] ++ rest = buf.bytes.set s.length b
    rw [← hrest, List.set_append_right _ _ (Nat.le_refl _), Nat.sub_self, List.set_cons_zero,
      List.append_assoc, List.singleton_append]

theorem StartsWith.terminate (h : buf.StartsWith s) (hlt : s.length < n) (hnonzero : 0 ∉ s) :
    ∃ buf', buf.set s.length 0 = some buf' ∧ buf'.Holds s := by
  obtain ⟨buf', hset, hstart⟩ := h.push hlt 0
  exact ⟨buf', hset, hnonzero, hstart⟩

/-- The copy of the characters that are accepted, as far as there is room. -/
theorem Holds.copyWhile (h : src.Holds (s ++ t)) (p : UInt8 → Bool) {max fuel : ℕ}
    {out : List UInt8}
    (hmax : max < n) (hfuel : t.length < fuel) (hdst : dst.StartsWith out) :
    ∃ u rest dst', t = u ++ rest ∧ u = (t.takeWhile p).take (max - out.length) ∧
      Buffer.copyWhile src p max fuel s.length out.length dst =
        some (s.length + u.length, out.length + u.length, dst') ∧ dst'.StartsWith (out ++ u) := by
  induction t generalizing s out fuel dst with
  | nil =>
    obtain ⟨fuel, rfl⟩ : ∃ k, fuel = k + 1 := ⟨fuel - 1, by omega⟩
    rw [List.append_nil] at h
    refine ⟨[], [], dst, rfl, by rw [List.takeWhile_nil, List.take_nil], ?_,
      by rwa [List.append_nil]⟩
    rw [Buffer.copyWhile, h.get_length, Option.bind_eq_bind, Option.bind_some,
      if_neg fun hc => hc.1 rfl]
    rfl
  | cons c t ih =>
    obtain ⟨fuel, rfl⟩ : ∃ k, fuel = k + 1 := ⟨fuel - 1, by omega⟩
    have hget : src.get s.length = some c := by
      rw [h.get_eq (by rw [List.length_append, List.length_cons]; omega),
        List.getElem?_append_right (Nat.le_refl _), Nat.sub_self, List.getElem?_cons_zero]
    have hc : c ≠ 0 := fun hzero =>
      h.nonzero (List.mem_append_right s (hzero ▸ List.mem_cons_self))
    rw [Buffer.copyWhile, hget, Option.bind_eq_bind, Option.bind_some]
    by_cases hcopy : p c ∧ out.length < max
    · obtain ⟨dst₁, hset, hstart⟩ := hdst.push (hcopy.2.trans hmax) c
      rw [List.append_cons] at h
      obtain ⟨u, rest, dst', rfl, hu, hrun, hstart'⟩ :=
        ih h (Nat.lt_of_succ_lt_succ hfuel) hstart
      rw [List.length_append, List.length_append, List.length_singleton] at hrun
      rw [List.length_append, List.length_singleton] at hu
      refine ⟨c :: u, rest, dst', rfl, ?_, ?_, by rwa [List.append_cons]⟩
      · rw [List.takeWhile_cons, if_pos hcopy.1,
          show max - out.length = max - (out.length + 1) + 1 by omega, List.take_succ_cons, ← hu]
      · rw [if_pos ⟨hc, hcopy⟩, hset, Option.bind_eq_bind, Option.bind_some, hrun, List.length_cons,
          Nat.add_assoc, Nat.add_assoc, Nat.add_comm 1]
    · refine ⟨[], c :: t, dst, rfl, ?_, by rw [if_neg fun h => hcopy h.2]; rfl,
        by rwa [List.append_nil]⟩
      rw [not_and_or] at hcopy
      obtain hp | hfull := hcopy
      · rw [List.takeWhile_cons, if_neg hp, List.take_nil]
      · rw [Nat.sub_eq_zero_of_le (Nat.not_lt.mp hfull), List.take_zero]

/-- Moving the rest of the string down removes a character. -/
theorem Holds.closeGap (h : buf.Holds s) (hk : k < s.length) :
    ∃ buf', Buffer.closeGap (s.length - k) k buf = some buf' ∧ buf'.Holds (s.eraseIdx k) := by
  have hlt := h.length_lt
  obtain ⟨buf', hrun, hget⟩ := exists_closeGap (s.length - k) k buf (by omega)
  have hlen : (s.eraseIdx k).length = s.length - 1 := List.length_eraseIdx_of_lt hk
  refine ⟨buf', hrun, holds_of_getElem? (fun h0 => h.nonzero (List.mem_of_mem_eraseIdx h0))
    (fun i hi => ?_) ?_⟩
  · rw [hget, List.getElem?_eraseIdx]
    by_cases hik : i < k
    · rw [if_neg (by omega), if_pos hik, h.get_eq (by omega)]
    · rw [if_pos (by omega), if_neg hik, h.get_eq (by omega)]
  · rw [hget, hlen, if_pos (by omega), Nat.sub_add_cancel (by omega), h.get_length]

theorem exists_openGap (k i : ℕ) (buf : Buffer n) (h : i + 1 < n) (hk : k ≤ i + 1) :
    ∃ buf', openGap k i buf = some buf' ∧
      ∀ j, buf'.get j = if i + 1 < j + k ∧ j ≤ i + 1 then buf.get (j - 1) else buf.get j := by
  induction k generalizing i buf with
  | zero => exact ⟨buf, rfl, fun j => by rw [if_neg (by omega)]⟩
  | succ k ih =>
    have hi : i < buf.bytes.length := by rw [buf.length_bytes]; omega
    have hget : buf.get i = some buf.bytes[i] := List.getElem?_eq_getElem hi
    obtain ⟨buf₁, hset, hget₁⟩ := buf.exists_set h buf.bytes[i]
    obtain ⟨buf', hrest, hget'⟩ := ih (i - 1) buf₁ (by omega) (by omega)
    have hrun : openGap (k + 1) i buf = some buf' := by
      rw [openGap, hget, Option.bind_eq_bind, Option.bind_some]
      exact Option.bind_eq_some_iff.mpr ⟨buf₁, hset, hrest⟩
    refine ⟨buf', hrun, fun j => ?_⟩
    rw [hget', hget₁, hget₁]
    by_cases hj : j = i + 1
    · rw [if_neg (by omega), if_pos hj, if_pos (by omega), hj, Nat.add_sub_cancel, hget]
    · by_cases hin : i - 1 + 1 < j + k ∧ j ≤ i - 1 + 1
      · rw [if_pos hin, if_neg (by omega), if_pos (by omega)]
      · rw [if_neg hin, if_neg hj, if_neg (by omega)]

/-- Moving the rest of the string up makes room for a character. -/
theorem Holds.openGap (h : buf.Holds s) (hk : k ≤ s.length) (hfit : s.length + 1 < n)
    (hb : b ≠ 0) :
    ∃ buf₁ buf', Buffer.openGap (s.length + 1 - k) s.length buf = some buf₁ ∧
      buf₁.set k b = some buf' ∧ buf'.Holds (s.insertIdx k b) := by
  obtain ⟨buf₁, hrun, hget₁⟩ := exists_openGap (s.length + 1 - k) s.length buf hfit (by omega)
  obtain ⟨buf', hset, hget⟩ := buf₁.exists_set (by omega : k < n) b
  have hlen : (s.insertIdx k b).length = s.length + 1 := List.length_insertIdx_of_le_length hk b
  have hnonzero : 0 ∉ s.insertIdx k b := fun h0 =>
    ((List.mem_insertIdx hk).mp h0).elim (fun h0 => hb h0.symm) h.nonzero
  refine ⟨buf₁, buf', hrun, hset, holds_of_getElem? hnonzero (fun i hi => ?_) ?_⟩
  · rw [hget, hget₁, List.getElem?_insertIdx]
    obtain hik | rfl | hik := lt_trichotomy i k
    · rw [if_neg (by omega), if_neg (by omega), if_pos hik, h.get_eq (by omega)]
    · rw [if_pos rfl, if_neg (by omega), if_pos rfl, if_pos hk]
    · rw [if_neg (by omega), if_pos (by omega), if_neg (by omega), if_neg (by omega),
        h.get_eq (by omega)]
  · rw [hget, hlen, hget₁, if_neg (by omega), if_pos (by omega), Nat.add_sub_cancel, h.get_length]

end Functions

end Buffer

end AuroraOS.Lib
