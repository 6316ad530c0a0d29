import AuroraOS.Lib.Ascii
import AuroraOS.Lib.BigEndian
import AuroraOS.Lib.CString
import Mathlib.Data.List.Induction

/-!
# IPv4 addresses as text

`parse_ipv4` and `format_ip` of `kernel/net.c`. An address has its first octet in its lowest byte.

## Main definitions

- `parseIpv4`, `formatIp`
- `IsOctet`, `IsIpv4` — the texts of an octet and of an address

## Main results

- `ipv4_roundTrip`
-/

namespace AuroraOS.Net

open Lib

section Model

/-- The branch of `parse_ipv4` for a dot or the end of the string: the octets then; the value is
    `none` for -1. -/
def storeOctet (octets : List UInt8) (value : Option ℕ) : Option (List UInt8) :=
  match value with
  | none => none
  | some v => if octets.length ≥ 4 then none else some (octets ++ [UInt8.ofNat v])

/-- The loop of `parse_ipv4` with the octets and the value so far; the octets at the end. -/
def ipv4Loop : List UInt8 → Option ℕ → List UInt8 → Option (List UInt8)
  | octets, value, [] => storeOctet octets value
  | octets, value, c :: s =>
    if c ≥ ascii '0' ∧ c ≤ ascii '9' then
      let v := value.getD 0 * 10 + (c.toNat - (ascii '0').toNat)
      if v > 255 then none else ipv4Loop octets (some v) s
    else if c = ascii '.' then do
      let octets ← storeOctet octets value
      ipv4Loop octets none s
    else none

/-- The address of four octets. -/
def packIp (octets : List UInt8) : UInt32 :=
  (octets.getD 0 0).toUInt32 ||| (octets.getD 1 0).toUInt32 <<< 8 |||
    (octets.getD 2 0).toUInt32 <<< 16 ||| (octets.getD 3 0).toUInt32 <<< 24

/-- `parse_ipv4`. -/
def parseIpv4 (s : List UInt8) : Option UInt32 :=
  match ipv4Loop [] none (cString s) with
  | none => none
  | some octets => if octets.length ≠ 4 then none else some (packIp octets)

/-- `b[i]` of `format_ip`. -/
def ipOctet (ip : UInt32) (i : ℕ) : UInt8 := (ip >>> UInt32.ofNat (8 * i)).toUInt8

/-- The digits that `format_ip` writes for an octet. -/
def octetDigits (v : UInt8) : List UInt8 :=
  (if v ≥ 100 then [ascii '0' + v / 100] else []) ++
    (if v ≥ 10 then [ascii '0' + v / 10 % 10] else []) ++ [ascii '0' + v % 10]

/-- What `format_ip` writes. -/
def formatIp (ip : UInt32) : List UInt8 :=
  ((List.range 4).flatMap fun i =>
    octetDigits (ipOctet ip i) ++ if i < 3 then [ascii '.'] else []) ++ [0]

end Model

section Grammar

/-- A decimal digit. -/
def IsDigit (c : UInt8) : Prop := ascii '0' ≤ c ∧ c ≤ ascii '9'

instance (c : UInt8) : Decidable (IsDigit c) := inferInstanceAs (Decidable (_ ∧ _))

/-- The value of a decimal number. -/
def decimalValue (ds : List UInt8) : ℕ :=
  ds.foldl (fun n c => n * 10 + (c.toNat - (ascii '0').toNat)) 0

/-- A decimal number of at least one digit, with the value of the octet. -/
structure IsOctet (ds : List UInt8) (o : UInt8) : Prop where
  ne_nil : ds ≠ []
  digits : ∀ c ∈ ds, IsDigit c
  value_eq : decimalValue ds = o.toNat

/-- Numbers for the octets, separated by single dots. -/
inductive Spells : List UInt8 → List UInt8 → Prop where
  | last {ds : List UInt8} {o : UInt8} : IsOctet ds o → Spells ds [o]
  | more {ds s os : List UInt8} {o : UInt8} : IsOctet ds o → Spells s os →
      Spells (ds ++ ascii '.' :: s) (o :: os)

/-- Four numbers, separated by single dots, for the octets of an address. -/
def IsIpv4 (s : List UInt8) (ip : UInt32) : Prop :=
  ∃ p q r t, ∃ a b c d : UInt8, IsOctet p a ∧ IsOctet q b ∧ IsOctet r c ∧ IsOctet t d ∧
    s = p ++ ascii '.' :: (q ++ ascii '.' :: (r ++ ascii '.' :: t)) ∧ ip = packIp [a, b, c, d]

end Grammar

section parse

variable {ds s os octets : List UInt8} {o c : UInt8}

theorem decimalValue_concat (ds : List UInt8) (c : UInt8) :
    decimalValue (ds ++ [c]) = decimalValue ds * 10 + (c.toNat - (ascii '0').toNat) := by
  rw [decimalValue, List.foldl_append, List.foldl_cons, List.foldl_nil]
  rfl

/-- More digits do not make a number smaller. -/
theorem decimalValue_le_append (ds es : List UInt8) :
    decimalValue ds ≤ decimalValue (ds ++ es) := by
  induction es using List.reverseRecOn with
  | nil => rw [List.append_nil]
  | append_singleton es e ih =>
    rw [← List.append_assoc, decimalValue_concat]
    omega

theorem not_isDigit_dot : ¬ IsDigit (ascii '.') := by decide

theorem Spells.chars (h : Spells s os) : ∀ c ∈ s, IsDigit c ∨ c = ascii '.' := by
  induction h with
  | last hds => exact fun c hc => .inl (hds.digits c hc)
  | more hds _ ih =>
    intro c hc
    rw [List.mem_append, List.mem_cons] at hc
    obtain hc | rfl | hc := hc
    · exact .inl (hds.digits c hc)
    · exact .inr rfl
    · exact ih c hc

/-- A text of digits spells one octet. -/
theorem spells_digits (hds : ∀ c ∈ ds, IsDigit c) :
    Spells ds os ↔ ∃ o, IsOctet ds o ∧ os = [o] := by
  constructor
  · intro h
    cases h with
    | last hoctet => exact ⟨_, hoctet, rfl⟩
    | more hoctet hrest =>
      exact absurd (hds _ (List.mem_append_right _ List.mem_cons_self)) not_isDigit_dot
  · rintro ⟨o, hoctet, rfl⟩
    exact .last hoctet

theorem takeWhile_digits (hds : ∀ c ∈ ds, IsDigit c) (s : List UInt8) :
    (ds ++ ascii '.' :: s).takeWhile (fun c => decide (IsDigit c)) = ds := by
  rw [List.takeWhile_append_of_pos fun c hc => decide_eq_true (hds c hc),
    List.takeWhile_cons_of_neg (by decide), List.append_nil]

/-- The digits in front of the first dot spell the first octet. -/
theorem spells_dot (hds : ∀ c ∈ ds, IsDigit c) : Spells (ds ++ ascii '.' :: s) os ↔
    ∃ o os', IsOctet ds o ∧ Spells s os' ∧ os = o :: os' := by
  constructor
  · intro h
    generalize htext : ds ++ ascii '.' :: s = text at h
    cases h with
    | last hoctet =>
      subst htext
      exact absurd (hoctet.digits _ (List.mem_append_right _ List.mem_cons_self)) not_isDigit_dot
    | @more ds' s' os' o hoctet hrest =>
      have hsame : ds = ds' := by
        rw [← takeWhile_digits hds s, htext, takeWhile_digits hoctet.digits]
      subst hsame
      obtain rfl := (List.cons.inj (List.append_cancel_left htext)).2
      exact ⟨o, os', hoctet, hrest, rfl⟩
  · rintro ⟨o, os', hoctet, hrest, rfl⟩
    exact .more hoctet hrest

/-- The first octet is that of the digits in front of the first dot. -/
theorem Spells.first (h : Spells s os) :
    ∃ o, IsOctet (s.takeWhile fun c => decide (IsDigit c)) o := by
  cases h with
  | @last _ o hoctet =>
    refine ⟨o, ?_⟩
    rwa [List.takeWhile_eq_self_iff.mpr fun c hc => decide_eq_true (hoctet.digits c hc)]
  | @more _ _ _ o hoctet _ =>
    refine ⟨o, ?_⟩
    rwa [takeWhile_digits hoctet.digits]

/-- The value after the digits of a number. -/
def valueOf (ds : List UInt8) : Option ℕ := if ds = [] then none else some (decimalValue ds)

theorem valueOf_concat (ds : List UInt8) (c : UInt8) :
    valueOf (ds ++ [c]) = some ((valueOf ds).getD 0 * 10 + (c.toNat - (ascii '0').toNat)) := by
  rw [valueOf, if_neg (by simp), decimalValue_concat, valueOf]
  split
  · next h => rw [h]; rfl
  · rfl

/-- The end of a number. -/
theorem isOctet_iff (hds : ∀ c ∈ ds, IsDigit c) (hle : decimalValue ds ≤ 255) :
    IsOctet ds o ↔ ∃ v, valueOf ds = some v ∧ o = UInt8.ofNat v := by
  rw [valueOf]
  constructor
  · intro h
    refine ⟨_, if_neg h.ne_nil, ?_⟩
    rw [h.value_eq, UInt8.ofNat_toNat]
  · rintro ⟨v, hv, rfl⟩
    split at hv
    · exact absurd hv (by simp)
    · next hne =>
      obtain rfl := Option.some.inj hv
      refine ⟨hne, hds, ?_⟩
      rw [UInt8.toNat_ofNat', Nat.mod_eq_of_lt (by omega)]

theorem storeOctet_eq_some_iff (hds : ∀ c ∈ ds, IsDigit c) (hle : decimalValue ds ≤ 255) :
    storeOctet octets (valueOf ds) = some os ↔
      ∃ o, IsOctet ds o ∧ os = octets ++ [o] ∧ octets.length < 4 := by
  simp only [isOctet_iff hds hle, storeOctet]
  cases valueOf ds with
  | none => simp
  | some v =>
    simp only [Option.some.injEq, ge_iff_le, Option.ite_none_left_eq_some, not_le]
    constructor
    · rintro ⟨hlen, rfl⟩
      exact ⟨_, ⟨v, rfl, rfl⟩, rfl, hlen⟩
    · rintro ⟨o, ⟨_, rfl, rfl⟩, rfl, hlen⟩
      exact ⟨hlen, rfl⟩

/-- From any point of the text on, with the digits since the last dot: the rest is accepted exactly
    when it goes on with the grammar. -/
theorem ipv4Loop_eq_some_iff (hds : ∀ c ∈ ds, IsDigit c) (hle : decimalValue ds ≤ 255) :
    ipv4Loop octets (valueOf ds) s = some os ↔
      ∃ os', Spells (ds ++ s) os' ∧ os = octets ++ os' ∧ os.length ≤ 4 := by
  induction s generalizing ds octets with
  | nil =>
    rw [ipv4Loop, storeOctet_eq_some_iff hds hle, List.append_nil]
    simp only [spells_digits hds]
    constructor
    · rintro ⟨o, hoctet, rfl, hlen⟩
      refine ⟨[o], ⟨o, hoctet, rfl⟩, rfl, ?_⟩
      rwa [List.length_append, List.length_singleton]
    · rintro ⟨_, ⟨o, hoctet, rfl⟩, rfl, hlen⟩
      rw [List.length_append, List.length_singleton] at hlen
      exact ⟨o, hoctet, rfl, hlen⟩
  | cons c s ih =>
    rw [ipv4Loop]
    split
    · next hcond =>
      have hdigit : IsDigit c := hcond
      have hds' : ∀ d ∈ ds ++ [c], IsDigit d := by
        intro d hd
        obtain hd | hd := List.mem_append.mp hd
        · exact hds d hd
        · rw [List.mem_singleton.mp hd]
          exact hdigit
      have hvalue := valueOf_concat ds c
      have hsome : valueOf (ds ++ [c]) = some (decimalValue (ds ++ [c])) :=
        if_neg (List.append_ne_nil_of_right_ne_nil _ (List.cons_ne_nil c []))
      rw [hsome, Option.some.injEq] at hvalue
      rw [← hvalue, show ds ++ c :: s = ds ++ [c] ++ s by
        rw [List.append_assoc, List.singleton_append]]
      dsimp only
      split
      · next hbig =>
        -- more digits leave the number above 255
        refine iff_of_false (by simp) ?_
        rintro ⟨os', hspells, -⟩
        obtain ⟨o, hoctet⟩ := hspells.first
        rw [List.takeWhile_append_of_pos fun d hd => decide_eq_true (hds' d hd)] at hoctet
        have hgrow := decimalValue_le_append (ds ++ [c]) (s.takeWhile fun d => decide (IsDigit d))
        have hlt := o.toNat_lt
        rw [hoctet.value_eq] at hgrow
        omega
      · next hsmall =>
        rw [← hsome]
        exact ih hds' (Nat.le_of_not_lt hsmall)
    split
    · next hdot =>
      subst hdot
      rw [Option.bind_eq_bind, Option.bind_eq_some_iff]
      have hrest : ∀ octets', ipv4Loop octets' none s = some os ↔
          ∃ os', Spells s os' ∧ os = octets' ++ os' ∧ os.length ≤ 4 := fun octets' =>
        @ih [] octets' (fun _ h => absurd h List.not_mem_nil) (Nat.zero_le _)
      simp only [storeOctet_eq_some_iff hds hle, hrest, spells_dot hds]
      constructor
      · rintro ⟨_, ⟨o, hoctet, rfl, -⟩, os', hspells, rfl, hlen⟩
        exact ⟨o :: os', ⟨o, os', hoctet, hspells, rfl⟩, by simp, hlen⟩
      · rintro ⟨_, ⟨o, os', hoctet, hspells, rfl⟩, rfl, hlen⟩
        rw [List.length_append, List.length_cons] at hlen
        refine ⟨_, ⟨o, hoctet, rfl, by omega⟩, os', hspells, by simp, ?_⟩
        rw [List.length_append, List.length_cons]
        exact hlen
    · next hdigit hdot =>
      refine iff_of_false (by simp) ?_
      rintro ⟨os', hspells, -⟩
      obtain h | h := hspells.chars c (List.mem_append_right _ List.mem_cons_self)
      · exact hdigit h
      · exact hdot h

theorem parseIpv4_eq_some_iff {ip : UInt32} : parseIpv4 s = some ip ↔ IsIpv4 (cString s) ip := by
  have hloop : ∀ os, ipv4Loop [] none (cString s) = some os ↔
      Spells (cString s) os ∧ os.length ≤ 4 := by
    intro os
    have h := @ipv4Loop_eq_some_iff [] (cString s) os [] (fun _ h => absurd h List.not_mem_nil)
      (Nat.zero_le _)
    simpa [valueOf] using h
  constructor
  · intro h
    rw [parseIpv4] at h
    split at h
    · exact absurd h (by simp)
    · next octets hoctets =>
      obtain ⟨hspells, -⟩ := (hloop octets).mp hoctets
      simp only [ne_eq, Option.ite_none_left_eq_some, not_not, Option.some.injEq] at h
      obtain ⟨hlen, rfl⟩ := h
      generalize cString s = text at hspells
      -- four numbers
      cases hspells with
      | last => simp at hlen
      | more hp hspells =>
        cases hspells with
        | last => simp at hlen
        | more hq hspells =>
          cases hspells with
          | last => simp at hlen
          | more hr hspells =>
            cases hspells with
            | last ht => exact ⟨_, _, _, _, _, _, _, _, hp, hq, hr, ht, rfl, rfl⟩
            | more _ hspells => cases hspells <;> simp at hlen
  · rintro ⟨p, q, r, t, a, b, c, d, hp, hq, hr, ht, hs, rfl⟩
    have hspells : Spells (cString s) [a, b, c, d] := by
      rw [hs]
      exact .more hp (.more hq (.more hr (.last ht)))
    rw [parseIpv4, (hloop _).mpr ⟨hspells, Nat.le_refl 4⟩]
    rfl

end parse

section format

/-- A figure written as a character is read back. -/
theorem digit_spec {d : UInt8} (hd : d < 10) :
    IsDigit (ascii '0' + d) ∧ (ascii '0' + d).toNat - (ascii '0').toNat = d.toNat := by
  have hzero : (ascii '0').toNat = 48 := rfl
  have hnine : (ascii '9').toNat = 57 := rfl
  have hlt : d.toNat < 10 := UInt8.lt_iff_toNat_lt.mp hd
  have hadd : (ascii '0' + d).toNat = 48 + d.toNat := by
    rw [UInt8.toNat_add, hzero]
    omega
  rw [IsDigit, UInt8.le_iff_toNat_le, UInt8.le_iff_toNat_le, hadd, hzero, hnine]
  omega

theorem isOctet_digit {d : UInt8} (hd : d < 10) : IsOctet [ascii '0' + d] d := by
  obtain ⟨hdigit, hvalue⟩ := digit_spec hd
  refine ⟨List.cons_ne_nil _ _, fun c hc => ?_, ?_⟩
  · rwa [List.mem_singleton.mp hc]
  · rw [← List.nil_append [ascii '0' + d], decimalValue_concat, hvalue]
    exact Nat.zero_add _

theorem IsOctet.concat {ds : List UInt8} {v w d : UInt8} (hds : IsOctet ds v) (hd : d < 10)
    (hw : w.toNat = v.toNat * 10 + d.toNat) : IsOctet (ds ++ [ascii '0' + d]) w := by
  obtain ⟨hdigit, hvalue⟩ := digit_spec hd
  refine ⟨List.append_ne_nil_of_right_ne_nil _ (List.cons_ne_nil _ _), fun c hc => ?_, ?_⟩
  · rw [List.mem_append, List.mem_singleton] at hc
    obtain hc | rfl := hc
    · exact hds.digits c hc
    · exact hdigit
  · rw [decimalValue_concat, hds.value_eq, hvalue, hw]

theorem isOctet_octetDigits (v : UInt8) : IsOctet (octetDigits v) v := by
  have hv := v.toNat_lt
  have hlt {a : UInt8} (h : a.toNat < 10) : a < 10 := UInt8.lt_iff_toNat_lt.mpr h
  have hten : v ≥ 10 ↔ 10 ≤ v.toNat := UInt8.le_iff_toNat_le
  have hhundred : v ≥ 100 ↔ 100 ≤ v.toNat := UInt8.le_iff_toNat_le
  have hones : (v % 10).toNat = v.toNat % 10 := UInt8.toNat_mod _ _
  have hrest : (v / 10).toNat = v.toNat / 10 := UInt8.toNat_div _ _
  have htens : (v / 10 % 10).toNat = v.toNat / 10 % 10 := by rw [UInt8.toNat_mod, hrest]; rfl
  have hfirst : (v / 100).toNat = v.toNat / 100 := UInt8.toNat_div _ _
  have hlast : (v % 10) < 10 := hlt (by omega)
  simp only [octetDigits, hten, hhundred]
  split_ifs with h₁ h₂
  · have hhead : IsOctet [ascii '0' + v / 100] (v / 100) := isOctet_digit (hlt (by omega))
    exact (hhead.concat (w := v / 10) (hlt (by omega)) (by omega)).concat hlast (by omega)
  · exact absurd h₁ (by omega)
  · have hhead : IsOctet [ascii '0' + v / 10 % 10] (v / 10 % 10) :=
      isOctet_digit (hlt (by omega))
    exact hhead.concat hlast (by omega)
  · have hself : v % 10 = v := UInt8.toNat_inj.mp (by omega)
    rw [hself]
    exact isOctet_digit (hlt (by omega))

theorem length_octetDigits_le (v : UInt8) : (octetDigits v).length ≤ 3 := by
  rw [octetDigits]
  split <;> split <;> simp

theorem formatIp_eq (ip : UInt32) : formatIp ip =
    octetDigits (ipOctet ip 0) ++ ascii '.' :: (octetDigits (ipOctet ip 1) ++ ascii '.' ::
      (octetDigits (ipOctet ip 2) ++ ascii '.' :: octetDigits (ipOctet ip 3))) ++ [0] := by
  simp [formatIp, List.range_succ]

theorem packIp_four (a b c d : UInt8) : packIp [a, b, c, d] =
    d.toUInt32 <<< 24 ||| c.toUInt32 <<< 16 ||| b.toUInt32 <<< 8 ||| a.toUInt32 := by
  have hpack : packIp [a, b, c, d] =
      a.toUInt32 ||| b.toUInt32 <<< 8 ||| c.toUInt32 <<< 16 ||| d.toUInt32 <<< 24 := rfl
  rw [hpack]
  generalize b.toUInt32 <<< 8 = w₁
  generalize c.toUInt32 <<< 16 = w₂
  generalize d.toUInt32 <<< 24 = w₃
  ac_rfl

/-- The octets are the bytes of the address, the lowest first. -/
theorem packIp_ipOctet (ip : UInt32) :
    packIp [ipOctet ip 0, ipOctet ip 1, ipOctet ip 2, ipOctet ip 3] = ip := by
  have hbytes : [ipOctet ip 3, ipOctet ip 2, ipOctet ip 1, ipOctet ip 0] = beFixed 4 ip.toNat := by
    have h₀ : UInt32.ofNat (8 * 0) = 0 := by decide
    have h₁ : UInt32.ofNat (8 * 1) = 8 := by decide
    have h₂ : UInt32.ofNat (8 * 2) = 16 := by decide
    have h₃ : UInt32.ofNat (8 * 3) = 24 := by decide
    rw [beFixed_four, ipOctet, ipOctet, ipOctet, ipOctet, h₀, h₁, h₂, h₃, UInt32.shiftRight_zero]
  refine UInt32.toNat_inj.mp ?_
  rw [packIp_four, toNat_or_shiftLeft, hbytes, beValue_beFixed, Nat.mod_eq_of_lt]
  exact ip.toNat_lt

theorem zero_notMem_octetDigits (v : UInt8) : 0 ∉ octetDigits v :=
  fun h => absurd ((isOctet_octetDigits v).digits 0 h) (by decide)

theorem isIpv4_formatIp (ip : UInt32) : IsIpv4 (cString (formatIp ip)) ip := by
  rw [formatIp_eq, cString_append_zero, cString_eq_self]
  · exact ⟨_, _, _, _, _, _, _, _, isOctet_octetDigits _, isOctet_octetDigits _,
      isOctet_octetDigits _, isOctet_octetDigits _, rfl, (packIp_ipOctet ip).symm⟩
  · have hdot : (0 : UInt8) ≠ ascii '.' := by decide
    simp only [List.mem_append, List.mem_cons, zero_notMem_octetDigits, hdot, or_self,
      not_false_eq_true]

theorem length_formatIp_le (ip : UInt32) : (formatIp ip).length ≤ 16 := by
  have h₀ := length_octetDigits_le (ipOctet ip 0)
  have h₁ := length_octetDigits_le (ipOctet ip 1)
  have h₂ := length_octetDigits_le (ipOctet ip 2)
  have h₃ := length_octetDigits_le (ipOctet ip 3)
  rw [formatIp_eq]
  simp only [List.length_append, List.length_cons, List.length_nil]
  omega

end format

/-- `parse_ipv4` accepts the texts of addresses and nothing else, and `format_ip` writes such a text
    into 16 bytes. -/
theorem ipv4_roundTrip :
    (∀ s ip, parseIpv4 s = some ip ↔ IsIpv4 (cString s) ip) ∧
      ∀ ip, parseIpv4 (formatIp ip) = some ip ∧ (formatIp ip).length ≤ 16 :=
  ⟨fun _ _ => parseIpv4_eq_some_iff, fun ip =>
    ⟨parseIpv4_eq_some_iff.mpr (isIpv4_formatIp ip), length_formatIp_le ip⟩⟩

end AuroraOS.Net
