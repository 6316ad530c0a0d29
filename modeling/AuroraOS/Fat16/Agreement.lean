import AuroraOS.Fat16.Absent
import AuroraOS.Fat16.Runs

/-!
# The two lookups

`find_or_alloc_slot` compares the eleven bytes of an entry with those of the name and passes over
long names; `find_in_dir` converts the bytes to a name and back before it compares, and passes over
labels too. Where both mean the same entry.

## Main definitions

- `FirstSlot` — the first slot of a directory with some property
- `LookupsAgree`

## Main results

- `findOrAllocSlot_found_iff`, `findInDir_found_iff` — what each lookup finds
- `lookupsAgree_iff`
-/

namespace AuroraOS.Fat16

/-- `find_or_alloc_slot` takes the entry for the one with the name `t`. -/
def Dirent.named (t : Vector UInt8 11) (e : Dirent) : Bool := e.compared && e.name == t

/-- `find_in_dir` takes the entry for the one with the name `t`. -/
def Dirent.shown (t : Vector UInt8 11) (e : Dirent) : Bool :=
  e.walked && nameTo83 (nameFrom83 e.name) == some t

/-- The first slot of the directory with a property, in front of the end marker. -/
def FirstSlot (v : Volume) (d : ℕ) (P : Dirent → Bool) (p : Slot) : Prop :=
  ∃ n, (beforeEnd v.dirent (v.slotsUpTo d n)).find? (fun q => P (v.dirent q)) = some p

/-- For the name, whose stored form is `t`, the two lookups agree. -/
structure LookupsAgree (v : Volume) (d : ℕ) (name : List UInt8) (t : Vector UInt8 11) : Prop where
  /-- one reports an existing entry if the other finds one -/
  exists_iff : (∃ p e, Results (fun fuel => findOrAllocSlot fuel d name v) (some (p, some e), v)) ↔
    ∃ entry, Results (fun fuel => findInDir fuel d name v) (some entry, v)
  /-- the slot that would be written is the one that is shown -/
  same : ∀ p e entry, Results (fun fuel => findOrAllocSlot fuel d name v) (some (p, some e), v) →
    Results (fun fuel => findInDir fuel d name v) (some entry, v) →
      entry = e.toEntry ∧ FirstSlot v d (Dirent.shown t) p
  /-- the entry that is made for the name is found as soon as it is met -/
  stored : ∀ (read : Slot → Dirent) p rest, (read p).name = t →
    (read p).attr = attrArchive ∨ (read p).attr = attrDirectory →
      walkSlots (findTrampoline t) read (p :: rest) none = (false, some (read p).toEntry)

section slots

variable {v : Volume} {d : ℕ} {P : Dirent → Bool} {p : Slot}

theorem beforeEnd_cons_of_isEnd {read : Slot → Dirent} {q : Slot} (h : (read q).isEnd = true)
    (l : List Slot) : beforeEnd read (q :: l) = [] := by
  rw [beforeEnd, List.takeWhile_cons_of_neg (by simp [h])]

theorem beforeEnd_cons {read : Slot → Dirent} {q : Slot} (h : (read q).isEnd = false)
    (l : List Slot) : beforeEnd read (q :: l) = q :: beforeEnd read l := by
  rw [beforeEnd, List.takeWhile_cons_of_pos (by simp [h])]
  rfl

/-- Slots behind those in which one was found change nothing. -/
theorem find?_beforeEnd_append {read : Slot → Dirent} {f : Slot → Bool} {l : List Slot}
    (h : (beforeEnd read l).find? f = some p) (rest : List Slot) :
    (beforeEnd read (l ++ rest)).find? f = some p := by
  rw [beforeEnd, List.takeWhile_append]
  split
  · next hall =>
    have hl : l.takeWhile (fun q => !(read q).isEnd) = l :=
      (List.takeWhile_prefix _).eq_of_length hall
    rw [beforeEnd, hl] at h
    rw [List.find?_append, h]
    rfl
  · exact h

theorem FirstSlot.of_le {n m : ℕ} (hnm : n ≤ m)
    (h : (beforeEnd v.dirent (v.slotsUpTo d n)).find? (fun q => P (v.dirent q)) = some p) :
    (beforeEnd v.dirent (v.slotsUpTo d m)).find? (fun q => P (v.dirent q)) = some p := by
  obtain ⟨rest, hrest⟩ := slotsUpTo_prefix v d hnm
  rw [← hrest]
  exact find?_beforeEnd_append h rest

theorem FirstSlot.unique {p' : Slot} (h : FirstSlot v d P p) (h' : FirstSlot v d P p') :
    p = p' := by
  obtain ⟨n, hn⟩ := h
  obtain ⟨m, hm⟩ := h'
  exact Option.some.inj
    ((FirstSlot.of_le (le_max_left n m) hn).symm.trans (FirstSlot.of_le (le_max_right n m) hm))

theorem FirstSlot.holds (h : FirstSlot v d P p) : P (v.dirent p) = true := by
  obtain ⟨n, hn⟩ := h
  have hp := List.find?_some hn
  exact hp

/-- The first slot with a property is the first one with any property that it has first. -/
theorem FirstSlot.of_imp {Q : Dirent → Bool} (h : FirstSlot v d P p)
    (himp : ∀ e, Q e = true → P e = true) (hQ : Q (v.dirent p) = true) : FirstSlot v d Q p := by
  obtain ⟨n, hn⟩ := h
  refine ⟨n, ?_⟩
  obtain ⟨-, l₁, l₂, hsplit, hbefore⟩ := List.find?_eq_some_iff_append.mp hn
  refine List.find?_eq_some_iff_append.mpr ⟨hQ, l₁, l₂, hsplit, fun q hq => ?_⟩
  have hnot := hbefore q hq
  rw [Bool.not_eq_true'] at hnot ⊢
  exact Bool.eq_false_iff.mpr fun hq' => Bool.eq_false_iff.mp hnot (himp _ hq')

/-- Where a slot with the one property is, there is a first one with the other. -/
theorem FirstSlot.exists_of_imp {Q : Dirent → Bool} (h : FirstSlot v d P p)
    (himp : ∀ e, P e = true → Q e = true) : ∃ p', FirstSlot v d Q p' := by
  obtain ⟨n, hn⟩ := h
  have hp := List.find?_some hn
  have hsome :
    ((beforeEnd v.dirent (v.slotsUpTo d n)).find? fun q => Q (v.dirent q)).isSome = true :=
    List.find?_isSome.mpr ⟨p, List.mem_of_find?_eq_some hn, himp _ hp⟩
  obtain ⟨p', hp'⟩ := Option.isSome_iff_exists.mp hsome
  exact ⟨p', n, hp'⟩

end slots

section found

variable {v v' : Volume} {d : ℕ} {name : List UInt8} {t : Vector UInt8 11} {p : Slot}

/-- The scan finds the first entry that has the name, unless an end marker comes before it. -/
theorem scanSlots_found_iff {read : Slot → Dirent} {l : List Slot} {e : Dirent}
    (free : Option Slot) : scanSlots read t l free = .found p e ↔
      (beforeEnd read l).find? (fun q => (read q).named t) = some p ∧ e = read p := by
  induction l generalizing free with
  | nil => simp [scanSlots, beforeEnd]
  | cons q l ih =>
    rw [scanSlots]
    by_cases hend : (read q).isEnd = true
    · simp [hend, beforeEnd_cons_of_isEnd hend]
    · have hend' := Bool.eq_false_iff.mpr hend
      rw [if_neg hend, beforeEnd_cons hend']
      have hskip : (read q).named t = false → ∀ free', (scanSlots read t l free' = .found p e ↔
          (q :: beforeEnd read l).find? (fun q => (read q).named t) = some p ∧ e = read p) := by
        intro hnot free'
        rw [List.find?_cons_of_neg (a := q) (Bool.eq_false_iff.mp hnot)]
        exact ih free'
      split
      · next hdel => exact hskip (by simp [Dirent.named, Dirent.compared, Dirent.inUse, hdel]) _
      · next hdel =>
        split
        · next hlong => exact hskip (by simp [Dirent.named, Dirent.compared, hlong]) _
        · next hlong =>
          split
          · next hname =>
            have hnamed : (read q).named t = true := by
              simp [Dirent.named, Dirent.compared, Dirent.inUse, hend', Bool.eq_false_iff.mpr hdel,
                Bool.eq_false_iff.mpr hlong, hname]
            rw [List.find?_cons_of_pos (a := q) hnamed]
            simp only [SlotScan.found.injEq, Option.some.injEq]
            refine and_congr_right fun h => ?_
            rw [h]
            exact eq_comm
          · next hname => exact hskip (by simp [Dirent.named, hname]) _

section walk

variable {σ : Type} {cb : Fat16Entry → σ → Bool × σ} {read : Slot → Dirent} {q : Slot}

theorem walkSlots_skip (hend : (read q).isEnd = false) (hskip : (read q).walked = false)
    (l : List Slot) (acc : σ) : walkSlots cb read (q :: l) acc = walkSlots cb read l acc := by
  rw [walkSlots, if_neg (by simp [hend])]
  by_cases hdel : (read q).isDeleted = true
  · rw [if_pos hdel]
  · rw [if_neg hdel]
    have hvol : (read q).isVolumeId = true := by
      simpa [Dirent.walked, Dirent.inUse, hend, Bool.eq_false_iff.mpr hdel] using hskip
    rw [if_pos hvol, ite_self]

theorem walkSlots_walked (hwalked : (read q).walked = true) (l : List Slot) (acc : σ) :
    walkSlots cb read (q :: l) acc =
      match cb (read q).toEntry acc with
      | (false, acc) => (false, acc)
      | (true, acc) => walkSlots cb read l acc := by
  simp only [Dirent.walked, Dirent.inUse, Bool.and_eq_true, Bool.not_eq_true'] at hwalked
  obtain ⟨⟨hend, hdel⟩, hvol⟩ := hwalked
  rewrite [walkSlots, if_neg (by simp [hend]), if_neg (by simp [hdel]),
    if_neg (by simp [Dirent.isLongName_of_plain hvol]), if_neg (by simp [hvol])]
  rfl

end walk

theorem findTrampoline_eq (e : Dirent) (found : Option Fat16Entry) :
    findTrampoline t e.toEntry found =
      if nameTo83 (nameFrom83 e.name) = some t then (false, some e.toEntry) else (true, found) := by
  rw [findTrampoline, show e.toEntry.name = nameFrom83 e.name from rfl]
  cases nameTo83 (nameFrom83 e.name) with
  | none => simp
  | some t' => simp only [Option.some.injEq]

/-- The walk stops at the first entry that is shown under the name, or at an end marker. -/
theorem walkSlots_eq (read : Slot → Dirent) (l : List Slot) :
    (walkSlots (findTrampoline t) read l none).2 =
        ((beforeEnd read l).find? fun q => (read q).shown t).map (fun p => (read p).toEntry) ∧
      (((beforeEnd read l).find? fun q => (read q).shown t).isSome = true →
        (walkSlots (findTrampoline t) read l none).1 = false) := by
  induction l with
  | nil => simp [walkSlots, beforeEnd]
  | cons q l ih =>
    by_cases hend : (read q).isEnd = true
    · rw [walkSlots, if_pos hend, beforeEnd_cons_of_isEnd hend]
      simp
    · have hend' := Bool.eq_false_iff.mpr hend
      rw [beforeEnd_cons hend', List.find?_cons]
      by_cases hwalked : (read q).walked = true
      · rw [walkSlots_walked hwalked, findTrampoline_eq]
        by_cases hback : nameTo83 (nameFrom83 (read q).name) = some t
        · rw [show (read q).shown t = true by simp [Dirent.shown, hwalked, hback], if_pos hback]
          simp
        · rw [show (read q).shown t = false by simp [Dirent.shown, hback], if_neg hback]
          exact ih
      · have hskip := Bool.eq_false_iff.mpr hwalked
        rw [walkSlots_skip hend' hskip, show (read q).shown t = false by simp [Dirent.shown, hskip]]
        exact ih

/-- What `find_or_alloc_slot` reports as existing. -/
theorem findOrAllocSlot_found_iff (hr : v.Reliable) (ht : nameTo83 name = some t) {e : Dirent} :
    Results (fun fuel => findOrAllocSlot fuel d name v) (some (p, some e), v') ↔
      FirstSlot v d (Dirent.named t) p ∧ e = v.dirent p ∧ v' = v := by
  constructor
  · rintro ⟨n, hn⟩
    have hrun : findOrAllocSlot n d name v = some (some (p, some e), v') := hn n le_rfl
    simp only [findOrAllocSlot, ht] at hrun
    cases hloop : slotLoop t n (dirCursorInit d) none d v with
    | none => simp [hloop] at hrun
    | some s =>
      obtain ⟨r, last, v₁⟩ := s
      rw [hloop] at hrun
      obtain ⟨rfl, l, cur, hahead, hscan, -⟩ := slotLoop_ahead hr hloop
      cases r with
      | found p' e' =>
        obtain ⟨⟨rfl, rfl⟩, rfl⟩ := by simpa using hrun
        obtain ⟨m, rest, hm⟩ := hahead.exists_slotsUpTo hr
        obtain ⟨hfirst, he⟩ := (scanSlots_found_iff none).mp hscan
        exact ⟨⟨m, by rw [hm]; exact find?_beforeEnd_append hfirst _⟩, he, rfl⟩
      | free p' => simp at hrun
      | more f =>
        simp only at hrun
        split at hrun
        · simp at hrun
        · split at hrun <;> simp at hrun
  · rintro ⟨⟨n, hn⟩, rfl, rfl⟩
    obtain ⟨cur, hahead, -⟩ := ahead_init hr d n
    have hscan := (scanSlots_found_iff none).mpr ⟨hn, rfl⟩
    refine ⟨(v'.sectorsUpTo d n).length, fun fuel hfuel => ?_⟩
    obtain ⟨k, hk⟩ := slotLoop_stops hahead hscan (by simp) hfuel d
    simp only [findOrAllocSlot, ht, hk]

/-- What `find_in_dir` finds. -/
theorem findInDir_found_iff (hr : v.Reliable) (ht : nameTo83 name = some t) {entry : Fat16Entry} :
    Results (fun fuel => findInDir fuel d name v) (some entry, v') ↔
      ∃ p, FirstSlot v d (Dirent.shown t) p ∧ entry = (v.dirent p).toEntry ∧ v' = v := by
  constructor
  · rintro ⟨n, hn⟩
    have hrun : findInDir n d name v = some (some entry, v') := hn n le_rfl
    simp only [findInDir, ht, walkDirectory] at hrun
    obtain ⟨rfl, l, cur, hahead, hwalk, -⟩ := walkLoop_ahead hr hrun
    rw [(walkSlots_eq _ _).1] at hwalk
    obtain ⟨p, hp, rfl⟩ := Option.map_eq_some_iff.mp hwalk
    obtain ⟨m, rest, hm⟩ := hahead.exists_slotsUpTo hr
    exact ⟨p, ⟨m, by rw [hm]; exact find?_beforeEnd_append hp _⟩, rfl, rfl⟩
  · rintro ⟨p, ⟨n, hn⟩, rfl, rfl⟩
    obtain ⟨cur, hahead, -⟩ := ahead_init hr d n
    obtain ⟨hfound, hstops⟩ := walkSlots_eq (t := t) v'.dirent (v'.slotsUpTo d n)
    rw [hn] at hfound hstops
    have hwalk : walkSlots (findTrampoline t) v'.dirent ((v'.sectorsUpTo d n).flatMap sectorSlots)
        none = (false, some (v'.dirent p).toEntry) := Prod.ext (hstops rfl) hfound
    refine ⟨(v'.sectorsUpTo d n).length, fun fuel hfuel => ?_⟩
    simp only [findInDir, ht, walkDirectory]
    exact walkLoop_stops hahead hwalk hfuel

end found

section agreement

variable {v : Volume} {d : ℕ} {name : List UInt8} {t : Vector UInt8 11}

/-- One of the two lookups takes the entry for the one with the name `t`. -/
def Dirent.concerns (t : Vector UInt8 11) (e : Dirent) : Bool := e.named t || e.shown t

/-- A stored name never begins with a zero. -/
theorem nameTo83_head_ne_zero (ht : nameTo83 name = some t) :
    getElem t 0 zero_lt_eleven ≠ 0x00 := by
  obtain hblank | ⟨c, hc, hhead⟩ := nameTo83_head ht
  · rw [hblank]
    decide
  · rw [hhead]
    exact upcase_ne_zero (by simpa using List.mem_takeWhile_imp hc)

/-- The entry that is made for a name is shown under it. -/
theorem shown_of_stored (ht : nameTo83 name = some t) {e : Dirent} (hname : e.name = t)
    (hattr : e.attr = attrArchive ∨ e.attr = attrDirectory) :
    e.shown t = true ↔ nameTo83 (nameFrom83 t) = some t ∧ getElem t 0 zero_lt_eleven ≠ 0xE5 := by
  have hvol : e.isVolumeId = false := by
    obtain h | h := hattr
    · exact (Dirent.attr_archive h).2
    · exact (Dirent.attr_directory h).2
  have hzero := nameTo83_head_ne_zero ht
  simp only [Dirent.shown, Dirent.walked, Dirent.inUse, Dirent.isEnd, Dirent.isDeleted, hname, hvol]
  simp [hzero, and_comm]

/-- The two lookups agree exactly when the stored form of the name is shown under itself and marks
    no deleted entry, and the first entry of the directory that one of the lookups takes for the
    name is no label and is stored in this form. -/
theorem lookupsAgree_iff (hr : v.Reliable) (d : ℕ) (ht : nameTo83 name = some t) :
    LookupsAgree v d name t ↔ (nameTo83 (nameFrom83 t) = some t ∧ t[0] ≠ 0xE5) ∧
      ∀ p, FirstSlot v d (Dirent.concerns t) p →
        (v.dirent p).isVolumeId = false ∧ (v.dirent p).name = t := by
  have hnamed : ∀ e : Dirent, e.named t = true → e.concerns t = true := fun e he => by
    simp [Dirent.concerns, he]
  have hshown : ∀ e : Dirent, e.shown t = true → e.concerns t = true := fun e he => by
    simp [Dirent.concerns, he]
  constructor
  · rintro ⟨hexists, hsame, hstored⟩
    refine ⟨?_, fun p hp => ?_⟩
    · have hstop := hstored (fun _ => Dirent.fresh t attrArchive) ⟨0, 0⟩ [] rfl (.inl rfl)
      refine (shown_of_stored ht (e := Dirent.fresh t attrArchive) rfl (.inl rfl)).mp ?_
      by_contra hnot
      have hfound := (walkSlots_eq (t := t) (fun _ => Dirent.fresh t attrArchive) [⟨0, 0⟩]).1
      rw [hstop, List.find?_eq_none.mpr fun q _ => hnot] at hfound
      simp at hfound
    · -- what the first entry is for one of the lookups, it is for the other
      have hboth : (v.dirent p).named t = true ∧ (v.dirent p).shown t = true := by
        have hholds := hp.holds
        rw [Dirent.concerns, Bool.or_eq_true] at hholds
        obtain hn | hs := hholds
        · have hfound := (findOrAllocSlot_found_iff hr ht).mpr ⟨hp.of_imp hnamed hn, rfl, rfl⟩
          obtain ⟨entry, hentry⟩ := hexists.mp ⟨p, _, hfound⟩
          exact ⟨hn, (hsame p _ entry hfound hentry).2.holds⟩
        · have hfirst := hp.of_imp hshown hs
          have hentry := (findInDir_found_iff hr ht).mpr ⟨p, hfirst, rfl, rfl⟩
          obtain ⟨p', e, hfound⟩ := hexists.mpr ⟨_, hentry⟩
          obtain rfl := (hsame p' e _ hfound hentry).2.unique hfirst
          exact ⟨((findOrAllocSlot_found_iff hr ht).mp hfound).1.holds, hs⟩
      obtain ⟨hn, hs⟩ := hboth
      simp only [Dirent.named, Dirent.shown, Dirent.walked, Bool.and_eq_true, Bool.not_eq_true',
        beq_iff_eq] at hn hs
      exact ⟨hs.1.2, hn.2⟩
  · rintro ⟨hdisplayed, hfirst⟩
    -- the first entry that one lookup finds is the first one that the other finds
    have hiff : ∀ p, FirstSlot v d (Dirent.named t) p ↔ FirstSlot v d (Dirent.shown t) p := by
      have hboth : ∀ p, FirstSlot v d (Dirent.concerns t) p →
          (v.dirent p).named t = true ∧ (v.dirent p).shown t = true := by
        intro p hp
        obtain ⟨hvol, hname⟩ := hfirst p hp
        have hlong := Dirent.isLongName_of_plain hvol
        have hholds := hp.holds
        simp only [Dirent.concerns, Dirent.named, Dirent.shown, Dirent.compared,
          Dirent.walked, hvol, hname, hlong, hdisplayed.1] at hholds ⊢
        simpa using hholds
      intro p
      constructor
      · intro hp
        obtain ⟨p', hp'⟩ := hp.exists_of_imp hnamed
        obtain rfl := hp.unique (hp'.of_imp hnamed (hboth p' hp').1)
        exact hp'.of_imp hshown (hboth p hp').2
      · intro hp
        obtain ⟨p', hp'⟩ := hp.exists_of_imp hshown
        obtain rfl := hp.unique (hp'.of_imp hshown (hboth p' hp').2)
        exact hp'.of_imp hnamed (hboth p hp').1
    refine ⟨⟨?_, ?_⟩, ?_, ?_⟩
    · rintro ⟨p, e, hfound⟩
      obtain ⟨hp, -, -⟩ := (findOrAllocSlot_found_iff hr ht).mp hfound
      exact ⟨_, (findInDir_found_iff hr ht).mpr ⟨p, (hiff p).mp hp, rfl, rfl⟩⟩
    · rintro ⟨entry, hentry⟩
      obtain ⟨p, hp, -, -⟩ := (findInDir_found_iff hr ht).mp hentry
      exact ⟨p, _, (findOrAllocSlot_found_iff hr ht).mpr ⟨(hiff p).mpr hp, rfl, rfl⟩⟩
    · intro p e entry hfound hentry
      obtain ⟨hp, rfl, -⟩ := (findOrAllocSlot_found_iff hr ht).mp hfound
      obtain ⟨p', hp', rfl, -⟩ := (findInDir_found_iff hr ht).mp hentry
      obtain rfl := hp'.unique ((hiff p).mp hp)
      exact ⟨rfl, hp'⟩
    · intro read p rest hname hattr
      have hwalked := (shown_of_stored ht hname hattr).mpr hdisplayed
      simp only [Dirent.shown, Bool.and_eq_true, beq_iff_eq] at hwalked
      rw [walkSlots_walked hwalked.1, findTrampoline_eq, if_pos hwalked.2]

theorem lookupsAgree_oneFile : LookupsAgree oneFileVolume 0 [65] (name83 [65] []) := by
  have hr : oneFileVolume.Reliable := oneFileVolume_wellFormed.sound.reliable
  refine (lookupsAgree_iff hr 0 (by decide)).mpr ⟨by decide, ?_⟩
  rintro p ⟨n, hn⟩
  have hfile : (beforeEnd oneFileVolume.dirent (oneFileVolume.slotsUpTo 0 0)).find?
      (fun q => (oneFileVolume.dirent q).concerns (name83 [65] [])) = some ⟨3, 0⟩ := by
    decide
  obtain rfl : ⟨3, 0⟩ = p := Option.some.inj (hfile.symm.trans hn)
  decide

/-- A disk with the label D. -/
def labelledVolume : Volume :=
  (blankVolume 1).setDirent ⟨3, 0⟩ (Dirent.fresh (name83 [68] []) attrVolumeId)

/-- What is written to the file D goes to the label, which `fat16_stat` does not show. -/
theorem label_taken_for_file :
    ¬ ∀ (v : Volume) (d : ℕ) (name : List UInt8) (t : Vector UInt8 11), v.Reliable →
      nameTo83 name = some t → LookupsAgree v d name t := by
  intro hall
  have hr : labelledVolume.Reliable := rfl
  have ht : nameTo83 [68] = some (name83 [68] []) := by decide
  have hlabel : FirstSlot labelledVolume 0 (Dirent.named (name83 [68] [])) ⟨3, 0⟩ :=
    ⟨0, by decide⟩
  obtain ⟨entry, hentry⟩ := (hall _ 0 [68] _ hr ht).exists_iff.mp
    ⟨_, _, (findOrAllocSlot_found_iff hr ht).mpr ⟨hlabel, rfl, rfl⟩⟩
  obtain ⟨p, ⟨n, hn⟩, -, -⟩ := (findInDir_found_iff hr ht).mp hentry
  have hnone : (beforeEnd labelledVolume.dirent (labelledVolume.slotsUpTo 0 0)).find?
      (fun q => (labelledVolume.dirent q).shown (name83 [68] [])) = none := by
    decide
  exact absurd (hnone.symm.trans hn) (by simp)

end agreement

end AuroraOS.Fat16
