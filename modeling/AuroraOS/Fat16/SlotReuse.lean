import AuroraOS.Fat16.Walks
import AuroraOS.Fat16.Touches

/-!
# Reuse of directory slots

When a new entry goes into the first unused slot of its directory. The scan of
`find_or_alloc_slot` remembers the first deleted slot but gives it away only at an end marker, and
it compares the name with volume labels too.

## Main definitions

- `AbsentName`, `FirstUnused` — the name is new, and the slot its entry should get
- `ReusesSlot` — the slot is found and nothing else happens

## Main results

- `reusesSlot_iff` — the slot is reused exactly in directories with an end marker and without a
  label of that name
-/

namespace AuroraOS.Fat16

/-- With enough fuel the result is `a`. -/
def Results {α : Type} (f : ℕ → Option α) (a : α) : Prop := ∃ n, ∀ fuel, n ≤ fuel → f fuel = some a

theorem Results.unique {α : Type} {f : ℕ → Option α} {a b : α} (ha : Results f a)
    (hb : Results f b) : a = b := by
  obtain ⟨n, hn⟩ := ha
  obtain ⟨m, hm⟩ := hb
  have han := hn (max n m) (le_max_left _ _)
  have hbm := hm (max n m) (le_max_right _ _)
  exact Option.some.inj (han.symm.trans hbm)

/-- The slots in front of the first end marker. -/
def beforeEnd (read : Slot → Dirent) (l : List Slot) : List Slot :=
  l.takeWhile fun q => !(read q).isEnd

/-- No file and no subdirectory of the directory has the name. -/
def AbsentName (v : Volume) (d : ℕ) (t : Vector UInt8 11) : Prop :=
  ∀ n, ∀ q ∈ beforeEnd v.dirent (v.slotsUpTo d n), (v.dirent q).isDeleted = false →
    (v.dirent q).isVolumeId = false → (v.dirent q).name ≠ t

/-- A volume label of the directory has the name. -/
def LabelNamed (v : Volume) (d : ℕ) (t : Vector UInt8 11) : Prop :=
  ∃ n, ∃ q ∈ beforeEnd v.dirent (v.slotsUpTo d n), (v.dirent q).isDeleted = false ∧
    (v.dirent q).isVolumeId = true ∧ (v.dirent q).isLongName = false ∧ (v.dirent q).name = t

/-- The directory has an end marker. -/
def HasEndMarker (v : Volume) (d : ℕ) : Prop :=
  ∃ n, ∃ q ∈ v.slotsUpTo d n, (v.dirent q).isEnd = true

/-- `p` is the first slot of the directory that is deleted or an end marker. -/
def FirstUnused (v : Volume) (d : ℕ) (p : Slot) : Prop :=
  ∃ n, (v.slotsUpTo d n).find? (fun q => !(v.dirent q).inUse) = some p

/-- A new entry of that name goes into `p`: the lookup returns it without changing anything, and
a file is created when the directory is the root. -/
def ReusesSlot (v : Volume) (d : ℕ) (name : List UInt8) (p : Slot) : Prop :=
  Results (fun fuel => findOrAllocSlot fuel d name v) (some (p, none), v) ∧
    (d = 0 → v.mounted →
      ∃ v', Results (fun fuel => fat16Create fuel d name false v) (true, v'))

section scan

variable {read : Slot → Dirent} {t : Vector UInt8 11} {l : List Slot}

/-- The scan compares an entry with the name when it is in use and no part of a long name. -/
def Dirent.compared (e : Dirent) : Bool := e.inUse && !e.isLongName

/-- In front of an entry with the name the scan finds no end. -/
theorem scanSlots_found {q : Slot} (hq : q ∈ beforeEnd read l) (hc : (read q).compared = true)
    (hname : (read q).name = t) (free : Option Slot) :
    ∃ p e, scanSlots read t l free = .found p e := by
  induction l generalizing free with
  | nil => simp [beforeEnd] at hq
  | cons p l ih =>
    rw [beforeEnd, List.takeWhile_cons] at hq
    rw [scanSlots]
    by_cases hend : (read p).isEnd = true
    · simp [hend] at hq
    · rw [if_neg hend]
      rw [if_pos (by simpa using hend), List.mem_cons] at hq
      split
      · next hdel =>
        obtain rfl | hq := hq
        · simp [Dirent.compared, Dirent.inUse, hdel] at hc
        · exact ih hq _
      · split
        · next hlong =>
          obtain rfl | hq := hq
          · simp [Dirent.compared, hlong] at hc
          · exact ih hq _
        · split
          · exact ⟨p, _, rfl⟩
          · next hne =>
            obtain rfl | hq := hq
            · exact absurd hname hne
            · exact ih hq _

/-- A scan that meets no such entry ends at the end marker with the first unused slot. -/
theorem scanSlots_free (hname : ∀ q ∈ beforeEnd read l, (read q).compared = true →
      (read q).name ≠ t) (hend : ∃ q ∈ l, (read q).isEnd = true) (free : Option Slot) :
    ∃ p, free.or (l.find? fun q => !(read q).inUse) = some p ∧
      scanSlots read t l free = .free p := by
  induction l generalizing free with
  | nil => simp at hend
  | cons p l ih =>
    rw [scanSlots, List.find?_cons]
    by_cases hhere : (read p).isEnd = true
    · rw [if_pos hhere, Dirent.inUse_eq_false_of_isEnd hhere]
      refine ⟨free.getD p, ?_, rfl⟩
      cases free <;> rfl
    · have hrest : ∃ q ∈ l, (read q).isEnd = true := by
        obtain ⟨q, hq, hqend⟩ := hend
        obtain rfl | hq := List.mem_cons.mp hq
        · exact absurd hqend hhere
        · exact ⟨q, hq, hqend⟩
      rw [beforeEnd, List.takeWhile_cons, if_pos (by simpa using hhere)] at hname
      obtain ⟨hp, hl⟩ := List.forall_mem_cons.mp hname
      rw [if_neg hhere]
      by_cases hdel : (read p).isDeleted = true
      · rw [if_pos hdel, Dirent.inUse_eq_false_of_isDeleted hdel]
        obtain ⟨p', hp', hscan⟩ := ih hl hrest (some (free.getD p))
        refine ⟨p', ?_, hscan⟩
        cases free with
        | none => exact hp'
        | some f => exact hp'
      · have huse : (read p).inUse = true := by
          simp [Dirent.inUse, Bool.eq_false_iff.mpr hhere, Bool.eq_false_iff.mpr hdel]
        rw [if_neg hdel, huse]
        by_cases hlong : (read p).isLongName = true
        · rw [if_pos hlong]
          exact ih hl hrest free
        · rw [if_neg hlong, if_neg (hp (by simp [Dirent.compared, huse, hlong]))]
          exact ih hl hrest free

/-- A scan stops at an end marker or at an entry with the name. -/
theorem scanSlots_stops_iff (free : Option Slot) :
    (∀ f, scanSlots read t l free ≠ .more f) ↔
      ∃ q ∈ l, (read q).isEnd = true ∨ ((read q).compared = true ∧ (read q).name = t) := by
  induction l generalizing free with
  | nil => simp [scanSlots]
  | cons p l ih =>
    rw [scanSlots, List.exists_mem_cons_iff]
    by_cases hend : (read p).isEnd = true
    · simp [hend]
    · have hend' := Bool.eq_false_iff.mpr hend
      rw [if_neg hend]
      split
      · next hdel =>
        rw [ih]
        simp [hend', Dirent.compared, Dirent.inUse, hdel]
      · next hdel =>
        have hdel' := Bool.eq_false_iff.mpr hdel
        split
        · next hlong =>
          rw [ih]
          simp [hend', Dirent.compared, hlong]
        · next hlong =>
          have hlong' := Bool.eq_false_iff.mpr hlong
          split
          · next hname => simp [hend', Dirent.compared, Dirent.inUse, hdel', hlong', hname]
          · next hname =>
            rw [ih]
            simp [hname, hend']

/-- The slot a scan gives away at the end marker. -/
theorem scanSlots_free_end {free : Option Slot} {p : Slot} (h : scanSlots read t l free = .free p) :
    ∃ q ∈ l, (read q).isEnd = true := by
  induction l generalizing free with
  | nil => simp [scanSlots] at h
  | cons p l ih =>
    rw [scanSlots] at h
    by_cases hend : (read p).isEnd = true
    · exact ⟨p, List.mem_cons_self, hend⟩
    · have hlater : (∃ q ∈ l, (read q).isEnd = true) →
          ∃ q ∈ p :: l, (read q).isEnd = true := by
        rintro ⟨q, hq, hqend⟩
        exact ⟨q, List.mem_cons_of_mem _ hq, hqend⟩
      rw [if_neg hend] at h
      split at h
      · exact hlater (ih h)
      · split at h
        · exact hlater (ih h)
        · split at h
          · simp at h
          · exact hlater (ih h)

end scan

section extend

variable {v v' : Volume}

theorem zeroSectors_disk {n lba : ℕ} (h : zeroSectors n lba v = (true, v')) :
    v.SameGeometry v' ∧ (∀ l < lba, v'.disk l = v.disk l) ∧
      (0 < n → v'.disk lba = Sector.zero) := by
  induction n generalizing lba v with
  | zero =>
    obtain rfl : v = v' := by simpa [zeroSectors] using h
    exact ⟨.refl v, fun _ _ => rfl, fun hn => absurd hn (lt_irrefl 0)⟩
  | succ n ih =>
    rw [zeroSectors, writeSector] at h
    split at h
    · simp at h
    · next v₁ hwrite =>
      split at hwrite
      · simp at hwrite
      · obtain rfl := (Prod.mk.inj hwrite).2
        obtain ⟨hgeom, hbefore, -⟩ := ih h
        refine ⟨⟨hgeom.1, hgeom.2, hgeom.3, hgeom.4, hgeom.5, hgeom.6, hgeom.7⟩,
          fun l hl => ?_, fun _ => ?_⟩
        · rw [hbefore l (by omega)]
          exact Function.update_of_ne (by omega) _ _
        · rw [hbefore lba (by omega)]
          exact Function.update_self _ _ _

/-- A cluster that was linked to a chain begins with a zeroed sector. -/
theorem extendClusterChain_disk {last c : ℕ} (hspc : 0 < v.bpb.sectorsPerCluster)
    (h : extendClusterChain last v = (c, v')) (hc : c ≠ 0) :
    v'.disk (clusterToLba v' c) = Sector.zero := by
  rw [extendClusterChain] at h
  have hfind := (fatFindFreeCluster_touches v).geometry
  split at h
  next new v₁ hfree =>
  rw [hfree] at hfind
  have hwrite := (fatWriteEntry_touches new eocMin v₁).geometry
  split at h
  · exact absurd (Prod.mk.inj h).1.symm hc
  · split at h
    · exact absurd (Prod.mk.inj h).1.symm hc
    · next v₂ hmark =>
      rw [hmark] at hwrite
      have hlink := (linkCluster_touches last new v₂).geometry
      split at h
      · exact absurd (Prod.mk.inj h).1.symm hc
      · next v₃ hlinked =>
        rw [hlinked] at hlink
        have hgeom := (hfind.trans hwrite).trans hlink
        split at h
        · exact absurd (Prod.mk.inj h).1.symm hc
        · next v₄ hzero =>
          obtain ⟨rfl, rfl⟩ := Prod.mk.inj h
          obtain ⟨hsame, -, hfirst⟩ := zeroSectors_disk hzero
          rw [hsame.clusterToLba]
          exact hfirst (by rw [hgeom.bpb]; exact hspc)

end extend

section directory

variable {v : Volume} {d : ℕ} {name : List UInt8} {t : Vector UInt8 11} {p : Slot}

theorem followLinks_prefix (next : ℕ → ℕ) {n m : ℕ} (h : n ≤ m) (c : ℕ) :
    followLinks next n c <+: followLinks next m c := by
  induction n generalizing m c with
  | zero => exact List.nil_prefix
  | succ n ih =>
    obtain ⟨m, rfl⟩ : ∃ k, m = k + 1 := ⟨m - 1, by omega⟩
    rw [followLinks, followLinks]
    split
    · exact (List.prefix_cons_inj c).mpr (ih (by omega) _)
    · exact List.nil_prefix

theorem slotsUpTo_prefix (v : Volume) (d : ℕ) {n m : ℕ} (h : n ≤ m) :
    v.slotsUpTo d n <+: v.slotsUpTo d m := by
  rw [Volume.slotsUpTo, Volume.slotsUpTo, Volume.sectorsUpTo, Volume.sectorsUpTo]
  split
  · exact List.prefix_rfl
  · obtain ⟨rest, hrest⟩ := followLinks_prefix v.fat h d
    rw [← hrest, List.flatMap_append, List.flatMap_append]
    exact List.prefix_append _ _

/-- However much of the directory is looked at, its first unused slot is the same. -/
theorem FirstUnused.eq {p' : Slot} {n : ℕ} (hp : FirstUnused v d p)
    (hn : (v.slotsUpTo d n).find? (fun q => !(v.dirent q).inUse) = some p') : p' = p := by
  obtain ⟨m, hm⟩ := hp
  have hgrow : ∀ {i j : ℕ} {q : Slot}, i ≤ j →
      (v.slotsUpTo d i).find? (fun q => !(v.dirent q).inUse) = some q →
      (v.slotsUpTo d j).find? (fun q => !(v.dirent q).inUse) = some q := by
    intro i j q hij hi
    obtain ⟨rest, hrest⟩ := slotsUpTo_prefix v d hij
    rw [← hrest, List.find?_append, hi]
    rfl
  have h₁ := hgrow (le_max_left n m) hn
  have h₂ := hgrow (le_max_right n m) hm
  exact Option.some.inj (h₁.symm.trans h₂)

/-- With an end marker, and no label of that name, a new name gets the first unused slot. -/
theorem findOrAllocSlot_free (hr : v.Reliable) (ht : nameTo83 name = some t)
    (habsent : AbsentName v d t) (hlabel : ¬ LabelNamed v d t) (hend : HasEndMarker v d)
    (hp : FirstUnused v d p) :
    Results (fun fuel => findOrAllocSlot fuel d name v) (some (p, none), v) := by
  obtain ⟨n, hend⟩ := hend
  have hname : ∀ q ∈ beforeEnd v.dirent (v.slotsUpTo d n), (v.dirent q).compared = true →
      (v.dirent q).name ≠ t := by
    intro q hq hc hqt
    simp only [Dirent.compared, Dirent.inUse, Bool.and_eq_true, Bool.not_eq_true'] at hc
    by_cases hvol : (v.dirent q).isVolumeId = true
    · exact hlabel ⟨n, q, hq, hc.1.2, hvol, hc.2, hqt⟩
    · exact habsent n q hq hc.1.2 (Bool.eq_false_iff.mpr hvol) hqt
  obtain ⟨p', hp', hscan⟩ := scanSlots_free hname hend none
  obtain rfl : p' = p := hp.eq hp'
  obtain ⟨cur, hahead, -⟩ := ahead_init hr d n
  refine ⟨(v.sectorsUpTo d n).length, fun fuel hfuel => ?_⟩
  obtain ⟨k, hk⟩ := slotLoop_stops hahead hscan (by simp) hfuel d
  simp only [findOrAllocSlot, ht, hk]

/-- A lookup that returns a free slot and changes nothing has met an end marker. -/
theorem hasEndMarker_of_free (hr : v.Reliable) (hspc : 0 < v.bpb.sectorsPerCluster) {fuel : ℕ}
    (hp : FirstUnused v d p)
    (h : findOrAllocSlot fuel d name v = some (some (p, none), v)) : HasEndMarker v d := by
  rw [findOrAllocSlot] at h
  split at h
  · simp at h
  · next t _ =>
    split at h
    · simp at h
    · simp at h
    · next p' _ v' hloop =>
      obtain ⟨-, l, cur, hahead, hscan, -⟩ := slotLoop_ahead hr hloop
      obtain ⟨q, hq, hqend⟩ := scanSlots_free_end hscan
      obtain ⟨n, rest, hn⟩ := hahead.exists_slotsUpTo hr
      exact ⟨n, q, by rw [hn]; exact List.mem_append_left _ hq, hqend⟩
    · next f last v₁ hloop =>
      obtain ⟨rfl, -⟩ := slotLoop_ahead hr hloop
      split at h
      · simp at h
      · -- the first slot of a new cluster would have been an end marker before
        split at h
        next c v₂ hext =>
        split at h
        · simp at h
        · next hc =>
          obtain ⟨hslot, rfl⟩ := by simpa using h
          have hzero := extendClusterChain_disk hspc hext hc
          obtain ⟨n, hn⟩ := hp
          refine ⟨n, p, List.mem_of_find?_eq_some hn, ?_⟩
          rw [← hslot, Volume.dirent, hzero]
          rfl

/-- A label of that name in front of the end marker is what the lookup returns. -/
theorem findOrAllocSlot_label (hr : v.Reliable) (ht : nameTo83 name = some t)
    (hlabel : LabelNamed v d t) :
    ∃ q e, Results (fun fuel => findOrAllocSlot fuel d name v) (some (q, some e), v) := by
  obtain ⟨n, q, hq, hdel, -, hlong, hname⟩ := hlabel
  have hend : (v.dirent q).isEnd = false := by
    simpa using List.mem_takeWhile_imp hq
  obtain ⟨p', e, hscan⟩ := scanSlots_found hq (by
    simp [Dirent.compared, Dirent.inUse, hdel, hlong, hend]) hname none
  obtain ⟨cur, hahead, -⟩ := ahead_init hr d n
  refine ⟨p', e, (v.sectorsUpTo d n).length, fun fuel hfuel => ?_⟩
  obtain ⟨k, hk⟩ := slotLoop_stops hahead hscan (by simp) hfuel d
  simp only [findOrAllocSlot, ht, hk]

/-- With a slot found, creating a file only writes the entry. -/
theorem fat16Create_of_slot (hr : v.Reliable) (hm : v.mounted) (ht : nameTo83 name = some t)
    (h : Results (fun fuel => findOrAllocSlot fuel d name v) (some (p, none), v)) :
    ∃ v', Results (fun fuel => fat16Create fuel d name false v) (true, v') := by
  obtain ⟨n, hn⟩ := h
  refine ⟨(writeDirentSlot p (Dirent.fresh t attrArchive) v).2, n, fun fuel hfuel => ?_⟩
  have hfind : findOrAllocSlot fuel d name v = some (some (p, none), v) := hn fuel hfuel
  have hwrite : (writeDirentSlot p (Dirent.fresh t attrArchive) v).1 = true := by
    simp only [writeDirentSlot, readSector_eq hr, writeSector_eq hr]
  simp only [fat16Create, hm, hfind, ht, not_true_eq_false, if_false, Bool.false_eq_true]
  exact congrArg some (Prod.ext hwrite rfl)

/-- A new name gets the first unused slot of its directory, and nothing else happens, exactly when
the directory has an end marker and no volume label of that name. -/
theorem reusesSlot_iff (hr : v.Reliable) (hspc : 0 < v.bpb.sectorsPerCluster)
    (ht : nameTo83 name = some t) (habsent : AbsentName v d t) (hp : FirstUnused v d p) :
    ReusesSlot v d name p ↔ HasEndMarker v d ∧ ¬ LabelNamed v d t := by
  constructor
  · rintro ⟨hfind, -⟩
    refine ⟨?_, fun hlabel => ?_⟩
    · obtain ⟨n, hn⟩ := hfind
      exact hasEndMarker_of_free hr hspc hp (hn n le_rfl)
    · obtain ⟨q, e, hfound⟩ := findOrAllocSlot_label hr ht hlabel
      simpa using hfind.unique hfound
  · rintro ⟨hend, hlabel⟩
    have hfind := findOrAllocSlot_free hr ht habsent hlabel hend hp
    refine ⟨hfind, fun h0 hm => ?_⟩
    exact fat16Create_of_slot hr hm ht hfind

theorem reusesSlot_blank : ReusesSlot (blankVolume 1) 0 [65] ⟨3, 0⟩ := by
  have hroot : ∀ n, beforeEnd (blankVolume 1).dirent ((blankVolume 1).slotsUpTo 0 n) = [] := by
    intro n
    change beforeEnd (blankVolume 1).dirent ((blankVolume 1).slotsUpTo 0 0) = []
    decide
  refine (reusesSlot_iff (v := blankVolume 1) (t := name83 [65] []) rfl (by decide)
    (by decide) ?_ ?_).mpr ⟨?_, ?_⟩
  · intro n q hq
    rw [hroot n] at hq
    exact absurd hq List.not_mem_nil
  · exact ⟨0, by decide⟩
  · exact ⟨0, ⟨3, 0⟩, by decide, by decide⟩
  · rintro ⟨n, q, hq, -⟩
    rw [hroot n] at hq
    exact absurd hq List.not_mem_nil

/-- A root directory of one sector that was filled and lost its first file. -/
def filledRoot : Volume :=
  { blankVolume 1 with
    disk := fun lba i => if lba = 3 then if i.val = 0 then 0xE5 else 65 else 0 }

/-- In a full root directory a deleted slot is not found again. -/
theorem deleted_slot_lost :
    ¬ ∀ (v : Volume) (d : ℕ) (name : List UInt8) (t : Vector UInt8 11) (p : Slot), v.Reliable →
      0 < v.bpb.sectorsPerCluster → nameTo83 name = some t → AbsentName v d t →
      FirstUnused v d p → ReusesSlot v d name p := by
  intro hall
  have hroot : ∀ n, ∀ q ∈ filledRoot.slotsUpTo 0 n,
      (filledRoot.dirent q).isEnd = false ∧ (filledRoot.dirent q).name ≠ name83 [66] [] := by
    intro n
    change ∀ q ∈ filledRoot.slotsUpTo 0 0, _
    decide
  have hp : FirstUnused filledRoot 0 ⟨3, 0⟩ := ⟨0, by decide⟩
  have habsent : AbsentName filledRoot 0 (name83 [66] []) := by
    intro n q hq _ _
    exact (hroot n q ((List.takeWhile_prefix _).subset hq)).2
  obtain ⟨⟨n, hn⟩, -⟩ := hall filledRoot 0 [66] (name83 [66] []) ⟨3, 0⟩ rfl (by decide)
    (by decide) habsent hp
  obtain ⟨m, q, hq, hend⟩ := hasEndMarker_of_free (v := filledRoot) rfl (by decide) hp (hn n le_rfl)
  rw [(hroot m q hq).1] at hend
  exact absurd hend (by decide)

end directory

end AuroraOS.Fat16
