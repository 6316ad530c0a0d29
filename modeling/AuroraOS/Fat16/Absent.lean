import AuroraOS.Fat16.Termination

/-!
# Deleting what is not there

`fat16_delete` looks a name up with the function that also makes room for new entries. Where the
name is missing from a subdirectory that has no end marker, the lookup takes a free cluster for
it, and deleting gives up only then.

## Main definitions

- `DeletesNothing` — the call fails and has changed nothing

## Main results

- `deletesNothing_iff`
-/

namespace AuroraOS.Fat16

/-- `fat16_delete` returns false with the disk and the hint as they were. -/
def DeletesNothing (v : Volume) (d : ℕ) (name : List UInt8) : Prop :=
  ∃ v', Results (fun fuel => fat16Delete fuel d name v) (false, v') ∧ v'.disk = v.disk ∧
    v'.nextFreeClusterHint = v.nextFreeClusterHint

/-- No cluster that the search looks at is free. -/
def Volume.SearchedFull (v : Volume) : Prop := ∀ c, 2 ≤ c → c < v.searchEnd → v.fat c ≠ 0

section extension

variable {v : Volume} {c hint : ℕ}

theorem fatFindFreeCluster_free (hr : v.Reliable) (hlo : 2 ≤ v.nextFreeClusterHint) :
    (∃ c hint, 2 ≤ c ∧ c < v.searchEnd ∧ v.fat c = 0 ∧
        fatFindFreeCluster v = (c, v.withHint hint)) ∨
      v.SearchedFull ∧ fatFindFreeCluster v = (0, v) := by
  simp only [fatFindFreeCluster]
  rw [scanFree_eq hr, show (v.totalClusters + 2) % 65536 = v.searchEnd from rfl]
  cases h₁ : (List.range' v.nextFreeClusterHint (v.searchEnd - v.nextFreeClusterHint)).find?
      (fun k => v.fat k = freeCluster) with
  | some c =>
    have hmem := List.mem_range'_1.mp (List.mem_of_find?_eq_some h₁)
    have hfree := List.find?_some h₁
    exact .inl ⟨c, _, by omega, by omega, of_decide_eq_true hfree, rfl⟩
  | none =>
    simp only
    rw [scanFree_eq hr]
    cases h₂ : (List.range' 2 (min v.nextFreeClusterHint v.searchEnd - 2)).find?
        (fun k => v.fat k = freeCluster) with
    | some c =>
      have hmem := List.mem_range'_1.mp (List.mem_of_find?_eq_some h₂)
      have hfree := List.find?_some h₂
      exact .inl ⟨c, _, by omega, by omega, of_decide_eq_true hfree, rfl⟩
    | none =>
      refine .inr ⟨fun c hlo hhi hfree => ?_, rfl⟩
      rw [List.find?_eq_none] at h₁ h₂
      -- the two scans look at every number from 2 on
      by_cases hlt : c < v.nextFreeClusterHint
      · exact h₂ c (List.mem_range'_1.mpr ⟨by omega, by omega⟩) (decide_eq_true hfree)
      · exact h₁ c (List.mem_range'_1.mpr ⟨by omega, by omega⟩) (decide_eq_true hfree)

/-- The sector with the link of a cluster comes before the sectors of the cluster. -/
theorem fatSector_lt_clusterToLba (hgap : v.fatStartLba < v.dataStartLba)
    (hspc : 0 < v.bpb.sectorsPerCluster) (hc : 2 ≤ c) :
    v.fatStartLba + c * 2 / 512 < clusterToLba v c := by
  have hmul : (c - 2) * 1 ≤ (c - 2) * v.bpb.sectorsPerCluster := Nat.mul_le_mul_left _ hspc
  rw [clusterToLba]
  omega

theorem zeroSectors_fat (hr : v.Reliable) (hgap : v.fatStartLba < v.dataStartLba) (hc : 2 ≤ c) :
    (zeroSectors v.bpb.sectorsPerCluster (clusterToLba v c) v).2.fat c = v.fat c := by
  have hsector : ¬ (clusterToLba v c ≤ v.fatStartLba + c * 2 / 512 ∧
      v.fatStartLba + c * 2 / 512 < clusterToLba v c + v.bpb.sectorsPerCluster) := by
    rintro ⟨hle, hlt⟩
    have := fatSector_lt_clusterToLba hgap (by omega) hc
    omega
  rw [zeroSectors_eq hr]
  simp only [Volume.fat, Volume.withDisk_disk, Volume.withDisk_fatStartLba, if_neg hsector]

/-- A cluster that the search has found is not free any more after a chain was extended. -/
theorem extendClusterChain_fat (hv : Freeable v) (hgap : v.fatStartLba < v.dataStartLba)
    (hlo : 2 ≤ c) (hhi : c < 65536) (hfind : fatFindFreeCluster v = (c, v.withHint hint))
    (last : ℕ) : (extendClusterChain last v).2.fat c ≠ 0 := by
  have hr₀ : (v.withHint hint).Reliable := hv.reliable
  have hmark : fatWriteEntry c eocMin (v.withHint hint) =
      (true, (v.withHint hint).setFat c eocMin) := fatWriteEntry_setFat hr₀ hv.sectorsPerFat c _
  have hmarked : ((v.withHint hint).setFat c eocMin).fat c = eocMin :=
    setFat_fat_self hv.numFats (by decide)
  have heoc : eocMin ≠ 0 := by decide
  rw [extendClusterChain, hfind]
  simp only [if_neg (show c ≠ 0 by omega), hmark]
  rw [linkCluster]
  generalize hv₁ : (v.withHint hint).setFat c eocMin = v₁ at hmarked
  have hr₁ : v₁.Reliable := hv₁ ▸ hv.reliable
  have hnum₁ : 0 < v₁.bpb.sectorsPerFat := hv₁ ▸ hv.sectorsPerFat
  have hgap₁ : v₁.fatStartLba < v₁.dataStartLba := hv₁ ▸ hgap
  by_cases hlast : 2 ≤ last
  · have hlink := fatWriteEntry_setFat hr₁ hnum₁ last c
    have hr₂ : (v₁.setFat last c).Reliable := hr₁
    have hfat := zeroSectors_fat (v := v₁.setFat last c) hr₂ hgap₁ hlo
    simp only [if_pos hlast, hlink]
    rw [zeroSectors_eq hr₂] at hfat ⊢
    simp only
    rw [hfat]
    obtain hsame | hnew := setFat_fat_or v₁ last c hhi
    · rw [hsame, hmarked]
      exact heoc
    · rw [hnew]
      omega
  · have hfat := zeroSectors_fat hr₁ hgap₁ hlo
    simp only [if_neg hlast]
    rw [zeroSectors_eq hr₁] at hfat ⊢
    simp only
    rw [hfat, hmarked]
    exact heoc

/-- Extending a chain changes the volume unless no free cluster is found. -/
theorem extendClusterChain_keeps_iff (hv : Freeable v) (hgap : v.fatStartLba < v.dataStartLba)
    (hlo : 2 ≤ v.nextFreeClusterHint) (last : ℕ) :
    ((extendClusterChain last v).2.disk = v.disk ∧
      (extendClusterChain last v).2.nextFreeClusterHint = v.nextFreeClusterHint) ↔
        v.SearchedFull := by
  have hend : v.searchEnd < 65536 := Nat.mod_lt _ (by decide)
  have hgeom := (extendClusterChain_touches hv.ordered last).geometry
  obtain ⟨c, hint, hc, hlt, hfree, hfind⟩ | ⟨hfull, hfind⟩ :=
    fatFindFreeCluster_free hv.reliable hlo
  · refine iff_of_false ?_ fun hfull => hfull c hc hlt hfree
    rintro ⟨hdisk, -⟩
    have hfat := extendClusterChain_fat hv hgap hc (by omega) hfind last
    rw [Volume.fat, hdisk, hgeom.fatStartLba] at hfat
    exact hfat hfree
  · refine iff_of_true ?_ hfull
    simp only [extendClusterChain, hfind, if_true, and_self]

end extension

section lookup

variable {v : Volume} {d : ℕ} {name : List UInt8} {t : Vector UInt8 11}

/-- What the scan compares with the name is the name of a file, a subdirectory or a label. -/
theorem name_ne_of_absent (habsent : AbsentName v d t) (hlabel : ¬ LabelNamed v d t) {n : ℕ} :
    ∀ q ∈ beforeEnd v.dirent (v.slotsUpTo d n), (v.dirent q).compared = true →
      (v.dirent q).name ≠ t := by
  intro q hq hc hqt
  simp only [Dirent.compared, Dirent.inUse, Bool.and_eq_true, Bool.not_eq_true'] at hc
  by_cases hvol : (v.dirent q).isVolumeId = true
  · exact hlabel ⟨n, q, hq, hc.1.2, hvol, hc.2, hqt⟩
  · exact habsent n q hq hc.1.2 (Bool.eq_false_iff.mpr hvol) hqt

/-- Only an end marker decides the search for a name that is missing. -/
theorem hasEndMarker_of_decides (habsent : AbsentName v d t) (hlabel : ¬ LabelNamed v d t)
    (h : Decides v d t) : HasEndMarker v d := by
  obtain ⟨n, q, hq, hdecides⟩ := h
  by_contra hend
  have hno : ∀ p ∈ v.slotsUpTo d n, (v.dirent p).isEnd = false := fun p hp =>
    Bool.eq_false_iff.mpr fun hpe => hend ⟨n, p, hp, hpe⟩
  have hall : beforeEnd v.dirent (v.slotsUpTo d n) = v.slotsUpTo d n :=
    List.takeWhile_eq_self_iff.mpr fun p hp => by simp [hno p hp]
  obtain hhere | ⟨hc, hname⟩ := hdecides
  · rw [hno q hq] at hhere
    exact absurd hhere (by simp)
  · exact name_ne_of_absent habsent hlabel q (hall.symm ▸ hq) hc hname

/-- Where no slot decides the search, a subdirectory is extended. -/
theorem findOrAllocSlot_undecided (hr : v.Reliable) (ht : nameTo83 name = some t)
    (hlinks : LinksEnd v d) (hno : ¬ Decides v d t) :
    ∃ r last, Results (fun fuel => findOrAllocSlot fuel d name v) r ∧
      (∀ p e, r.1 ≠ some (p, some e)) ∧
      r.2 = if d = 0 then v else (extendClusterChain last v).2 := by
  obtain ⟨n, cur, hahead, hatEnd⟩ := hlinks.ahead hr
  obtain ⟨f, hscan⟩ : ∃ f, scanSlots v.dirent t (v.slotsUpTo d n) none = .more f := by
    by_contra hstops
    push Not at hstops
    exact hno ⟨n, (scanSlots_stops_iff none).mp hstops⟩
  obtain ⟨last, hloop⟩ := slotLoop_more hahead hscan 1 d
  have hdone : slotLoop t ((v.sectorsUpTo d n).length + 1) (dirCursorInit d) none d v =
      some (.more f, last, v) := by
    rw [hloop]
    simp only [slotLoop, hatEnd.next hr]
  have hrun : ∀ {r}, findOrAllocSlot ((v.sectorsUpTo d n).length + 1) d name v = some r →
      Results (fun fuel => findOrAllocSlot fuel d name v) r :=
    fun h => .of_run (fun _ => findOrAllocSlot_succ) h
  by_cases h0 : d = 0
  · refine ⟨(none, v), last, hrun ?_, by simp, by rw [if_pos h0]⟩
    simp only [findOrAllocSlot, ht, hdone, if_pos h0]
  · cases hext : extendClusterChain last v with
    | mk c v' =>
      by_cases hc : c = 0
      · refine ⟨(none, v'), last, hrun ?_, by simp, by rw [if_neg h0, hext]⟩
        simp only [findOrAllocSlot, ht, hdone, if_neg h0, hext, if_pos hc]
      · refine ⟨(some (⟨clusterToLba v' c, 0⟩, none), v'), last, hrun ?_, by simp,
          by rw [if_neg h0, hext]⟩
        simp only [findOrAllocSlot, ht, hdone, if_neg h0, hext, if_neg hc]

/-- Nothing is deleted when the lookup finds no entry. -/
theorem fat16Delete_of_missing (hm : v.mounted = true)
    {r : Option (Slot × Option Dirent) × Volume}
    (h : Results (fun fuel => findOrAllocSlot fuel d name v) r)
    (hmissing : ∀ p e, r.1 ≠ some (p, some e)) :
    Results (fun fuel => fat16Delete fuel d name v) (false, r.2) := by
  obtain ⟨n, hn⟩ := h
  refine ⟨n, fun fuel hfuel => ?_⟩
  have hfind : findOrAllocSlot fuel d name v = some r := hn fuel hfuel
  obtain ⟨slot, v'⟩ := r
  change fat16Delete fuel d name v = some (false, v')
  rw [fat16Delete, if_neg (by simp [hm]), hfind]
  obtain _ | ⟨p, _ | e⟩ := slot
  · rfl
  · rfl
  · exact absurd rfl (hmissing p e)

/-- The entry that the lookup finds is deleted. -/
theorem fat16Delete_of_found (hv : Freeable v) (hm : v.mounted = true) {p : Slot} {e : Dirent}
    (h : Results (fun fuel => findOrAllocSlot fuel d name v) (some (p, some e), v)) :
    ∃ v', Results (fun fuel => fat16Delete fuel d name v) (true, v') := by
  obtain ⟨n, hn⟩ := h
  obtain ⟨v₁, m, hfree⟩ := freeIfAny_results hv e.firstCluster
  have hr₁ := ((freeIfAny_touches (hfree m le_rfl)).freeable hv).reliable
  refine ⟨v₁.setSector p.sectorLba ((v₁.disk p.sectorLba).setByte (p.indexInSector * 32) 0xE5),
    max n m, fun fuel hfuel => ?_⟩
  have hfind : findOrAllocSlot fuel d name v = some (some (p, some e), v) :=
    hn fuel (le_trans (le_max_left _ _) hfuel)
  have hfree' : freeIfAny fuel e.firstCluster v = some v₁ :=
    hfree fuel (le_trans (le_max_right _ _) hfuel)
  simp only [fat16Delete, hm, not_true_eq_false, if_false, hfind, hfree', readSector_eq hr₁,
    writeSector_eq hr₁]

end lookup

/-- In every state of a mounted volume, deleting a name that no file and no subdirectory has changes
    nothing exactly when no label has it either and, unless the directory has an end marker, its
    links end and no cluster is taken for it. -/
theorem deletesNothing_iff {v₀ v₁ v : Volume} (hr : v₀.Reliable)
    (hmount : fat16Mount v₀ = (true, v₁)) (hrun : FsRun v₁ v) (d : ℕ) {name : List UInt8}
    (habsent : ∀ t, nameTo83 name = some t → AbsentName v d t) :
    DeletesNothing v d name ↔ ∀ t, nameTo83 name = some t → ¬ LabelNamed v d t ∧
      (HasEndMarker v d ∨ LinksEnd v d ∧ (d = 0 ∨ v.SearchedFull)) := by
  have hv₁ := fat16Mount_freeable hr hmount
  have htouches := hrun.touches hv₁.ordered
  have hv := htouches.freeable hv₁
  have hfrom := (fat16Mount_mountedFrom hmount).1
  have hm : v.mounted = true := htouches.geometry.mounted.trans hfrom.mounted
  have hhint : 2 ≤ v.nextFreeClusterHint := htouches.hint hfrom.hint.ge
  have hgap : v.fatStartLba < v.dataStartLba := by
    have hfats := Nat.mul_le_mul hv.numFats hv.sectorsPerFat
    rw [htouches.geometry.bpb, hfrom.bpb] at hfats
    rw [htouches.geometry.fatStartLba, htouches.geometry.dataStartLba, hfrom.fatStartLba,
      hfrom.dataStartLba, Sector.dataStart]
    omega
  cases ht : nameTo83 name with
  | none =>
    refine iff_of_true ⟨v, ⟨0, fun fuel _ => ?_⟩, rfl, rfl⟩ (by simp)
    simp [fat16Delete, hm, findOrAllocSlot, ht]
  | some t =>
    have habsent := habsent t ht
    simp only [Option.some.injEq, forall_eq']
    by_cases hlabel : LabelNamed v d t
    · -- the label is deleted
      refine iff_of_false ?_ fun h => h.1 hlabel
      rintro ⟨v', hdelete, -, -⟩
      obtain ⟨q, e, hfound⟩ := findOrAllocSlot_label hv.reliable ht hlabel
      obtain ⟨v'', htrue⟩ := fat16Delete_of_found hv hm hfound
      exact absurd (Prod.mk.inj (hdelete.unique htrue)).1 (by decide)
    · rw [and_iff_right hlabel]
      by_cases hend : HasEndMarker v d
      · refine iff_of_true ?_ (.inl hend)
        obtain ⟨n, q, hq, hqend⟩ := id hend
        have hunused : ((v.slotsUpTo d n).find? fun q => !(v.dirent q).inUse).isSome = true :=
          List.find?_isSome.mpr ⟨q, hq, by simp [Dirent.inUse_eq_false_of_isEnd hqend]⟩
        obtain ⟨p, hp⟩ := Option.isSome_iff_exists.mp hunused
        exact ⟨v, fat16Delete_of_missing hm
          (findOrAllocSlot_free hv.reliable ht habsent hlabel hend ⟨n, hp⟩) (by simp), rfl, rfl⟩
      · rw [or_iff_right hend]
        have hno : ¬ Decides v d t := fun h => hend (hasEndMarker_of_decides habsent hlabel h)
        by_cases hlinks : LinksEnd v d
        · rw [and_iff_right hlinks]
          obtain ⟨r, last, hfind, hmissing, hr₂⟩ :=
            findOrAllocSlot_undecided hv.reliable ht hlinks hno
          have hdelete := fat16Delete_of_missing hm hfind hmissing
          by_cases h0 : d = 0
          · rw [if_pos h0] at hr₂
            exact iff_of_true ⟨_, hdelete, by rw [hr₂], by rw [hr₂]⟩ (.inl h0)
          · rw [if_neg h0] at hr₂
            rw [or_iff_right h0, ← extendClusterChain_keeps_iff hv hgap hhint last, ← hr₂]
            constructor
            · rintro ⟨v', hdelete', hkept⟩
              rwa [(Prod.mk.inj (hdelete'.unique hdelete)).2] at hkept
            · exact fun hkept => ⟨_, hdelete, hkept⟩
        · refine iff_of_false ?_ fun h => hlinks h.1
          rintro ⟨v', hdelete, -, -⟩
          have hfind : ∃ r, Results (fun fuel => findOrAllocSlot fuel d name v) r :=
            findOrAllocSlot_results hdelete fun fuel hf => by simp [fat16Delete, hm, hf]
          obtain hends | hdecides := (findOrAllocSlot_results_iff hv.reliable).mp hfind t ht
          · exact hlinks hends
          · exact hno hdecides

/-- The disk of which cluster 2 is a directory of one cluster, without an unused slot. -/
def fullDirectoryDisk : Volume :=
  { selfLinkedDisk with
    disk := fun lba i =>
      if lba = 1 then if i.val = 4 then 0xF8 else if i.val = 5 then 0xFF else 0
      else selfLinkedDisk.disk lba i }

theorem fullDirectoryDisk_mount : ∃ v, fat16Mount fullDirectoryDisk = (true, v) :=
  eq_true_of_fst (by decide)

/-- No directory of this disk has a file B. -/
theorem absentName_fullDirectoryDisk {v : Volume}
    (hmount : fat16Mount fullDirectoryDisk = (true, v))
    (d : ℕ) : ∀ t, nameTo83 [66] = some t → AbsentName v d t := by
  intro t ht n q hq _ _
  have hfrom := (fat16Mount_mountedFrom hmount).1
  have hr : fullDirectoryDisk.Reliable := rfl
  have hroot : v.rootDirStartLba = 2 := hfrom.rootDirStartLba.trans (by decide)
  have hletters : ∀ lba, v.rootDirStartLba ≤ lba → v.disk lba = fun _ => 65 := by
    intro lba hlow
    rw [hroot] at hlow
    rw [fat16Mount_disk hr hmount]
    funext k
    simp only [fullDirectoryDisk, selfLinkedDisk]
    rw [if_neg (by omega), if_neg (by omega), if_neg (by omega)]
  obtain rfl : name83 [66] [] = t := by
    rw [show nameTo83 [66] = some (name83 [66] []) by decide] at ht
    exact Option.some.inj ht
  rw [(dirent_of_letters hfrom.ordered hletters q ((List.takeWhile_prefix _).subset hq)).2]
  decide

/-- In the root directory nothing happens. -/
theorem deletesNothing_root :
    ∃ v, fat16Mount fullDirectoryDisk = (true, v) ∧ DeletesNothing v 0 [66] := by
  obtain ⟨v, hmount⟩ := fullDirectoryDisk_mount
  have hr : fullDirectoryDisk.Reliable := rfl
  have habsent := absentName_fullDirectoryDisk hmount 0
  refine ⟨v, hmount, (deletesNothing_iff hr hmount .refl 0 habsent).mpr fun t ht =>
    ⟨?_, .inr ⟨.inl rfl, .inl rfl⟩⟩⟩
  have hvisible : ∀ q ∈ v.slotsUpTo 0 0, (v.dirent q).isVolumeId = false := by
    have hv : v = (fat16Mount fullDirectoryDisk).2 := by rw [hmount]
    rw [hv]
    decide
  rintro ⟨n, q, hq, -, hvolume, -⟩
  rw [hvisible q ((List.takeWhile_prefix _).subset hq)] at hvolume
  exact absurd hvolume (by decide)

/-- Deleting B from the full directory takes cluster 3 for it. -/
theorem delete_takes_cluster :
    ¬ ∀ (v₀ v : Volume) (d : ℕ) (name : List UInt8), v₀.Reliable → fat16Mount v₀ = (true, v) →
      (∀ t, nameTo83 name = some t → AbsentName v d t) → DeletesNothing v d name := by
  intro hall
  obtain ⟨v, hmount⟩ := fullDirectoryDisk_mount
  have hr : fullDirectoryDisk.Reliable := rfl
  obtain ⟨v', hdelete, -, hhint⟩ :=
    hall _ v 2 [66] hr hmount (absentName_fullDirectoryDisk hmount 2)
  have hv : v = (fat16Mount fullDirectoryDisk).2 := by rw [hmount]
  have hrun :
    (findOrAllocSlot 3 2 [66] v).map (fun r => (r.1.map Prod.snd, r.2.nextFreeClusterHint)) =
      some (some none, 4) := by
    rw [hv]
    decide
  obtain ⟨r, hfind, hr'⟩ := Option.map_eq_some_iff.mp hrun
  obtain ⟨hslot, hmoved⟩ := Prod.mk.inj hr'
  have hfrom := (fat16Mount_mountedFrom hmount).1
  have hmissing := fat16Delete_of_missing hfrom.mounted
    (.of_run (fun _ => findOrAllocSlot_succ) hfind) fun p e hpe => by simp [hpe] at hslot
  rw [(Prod.mk.inj (hdelete.unique hmissing)).2, hmoved, hfrom.hint] at hhint
  exact absurd hhint (by decide)

end AuroraOS.Fat16
