import AuroraOS.Fat16.Format

/-!
# Any sequence of calls

What holds after any calls on any disk: the geometry is the one of the last mounting or formatting,
and the hint of the free-cluster search is a cluster number.

## Main definitions

- `FsCall`, `FsRun` — the calls on a mounted volume, and sequences of them
- `DriverRun` — sequences that also mount and format
- `ArithmeticSound`, `SearchRight`

## Main results

- `mount_arithmetic_iff` — which boot sectors lead to sound arithmetic
- `search_right_iff` — when the free-cluster search finds what there is
-/

namespace AuroraOS.Fat16

/-- A call on a mounted volume. -/
inductive FsCall where
  | list (d : ℕ)
  | stat (d : ℕ) (name : List UInt8)
  | create (d : ℕ) (name : List UInt8) (asDirectory : Bool)
  | delete (d : ℕ) (name : List UInt8)
  | write (d : ℕ) (name data : List UInt8)
  | read (firstCluster fileSize offset maxLen : ℕ)

/-- The volume after a call that returns. -/
def FsCall.step (fuel : ℕ) (v : Volume) : FsCall → Option Volume
  | .list d => (fat16List fuel d v).map Prod.snd
  | .stat d name => (fat16Stat fuel d name v).map Prod.snd
  | .create d name asDirectory => (fat16Create fuel d name asDirectory v).map Prod.snd
  | .delete d name => (fat16Delete fuel d name v).map Prod.snd
  | .write d name data => (fat16WriteFile fuel d name data v).map Prod.snd
  | .read firstCluster fileSize offset maxLen =>
    some (fat16ReadFile firstCluster fileSize offset maxLen v).2

/-- `v'` is reached from `v` by calls that return. -/
inductive FsRun (v : Volume) : Volume → Prop
  | refl : FsRun v v
  | call {v₁ v₂ : Volume} {fuel : ℕ} (c : FsCall) : FsRun v v₁ → c.step fuel v₁ = some v₂ →
      FsRun v v₂

section calls

variable {v v' : Volume}

theorem FsCall.step_touches (ho : v.Ordered) {fuel : ℕ} {c : FsCall}
    (h : c.step fuel v = some v') : Touches v v' := by
  cases c with
  | list d =>
    obtain ⟨⟨entries, _⟩, hrun, rfl⟩ := Option.map_eq_some_iff.mp h
    exact fat16List_touches ho hrun
  | stat d name =>
    obtain ⟨⟨entry, _⟩, hrun, rfl⟩ := Option.map_eq_some_iff.mp h
    exact fat16Stat_touches ho hrun
  | create d name asDirectory =>
    obtain ⟨⟨ok, _⟩, hrun, rfl⟩ := Option.map_eq_some_iff.mp h
    exact fat16Create_touches ho hrun
  | delete d name =>
    obtain ⟨⟨ok, _⟩, hrun, rfl⟩ := Option.map_eq_some_iff.mp h
    exact fat16Delete_touches ho hrun
  | write d name data =>
    obtain ⟨⟨ok, _⟩, hrun, rfl⟩ := Option.map_eq_some_iff.mp h
    exact fat16WriteFile_touches ho hrun
  | read firstCluster fileSize offset maxLen =>
    obtain rfl := Option.some.inj h
    exact fat16ReadFile_touches _ _ _ _ v

theorem FsRun.touches (ho : v.Ordered) (h : FsRun v v') : Touches v v' := by
  induction h with
  | refl => exact .refl
  | call c _ hstep ih => exact ih.trans (c.step_touches (ih.ordered ho) hstep)

end calls

section mount

/-- `bpb.reserved_sector_count`. -/
def Sector.reservedSectorCount (s : Sector) : ℕ := (le16 (s.byte 14) (s.byte 15)).toNat

/-- `bpb.root_entry_count`. -/
def Sector.rootEntryCount (s : Sector) : ℕ := (le16 (s.byte 17) (s.byte 18)).toNat

/-- The fields of `bpb` that stay in use. -/
def Sector.bpb (s : Sector) : Bpb :=
  ⟨(s.byte 13).toNat, (s.byte 16).toNat, (le16 (s.byte 22) (s.byte 23)).toNat⟩

/-- `total_sectors`. -/
def Sector.totalSectors (s : Sector) : ℕ :=
  if (le16 (s.byte 19) (s.byte 20)).toNat ≠ 0 then (le16 (s.byte 19) (s.byte 20)).toNat
  else (le32 (s.byte 32) (s.byte 33) (s.byte 34) (s.byte 35)).toNat

/-- The number of the sectors before the data. -/
def Sector.dataStart (s : Sector) : ℕ :=
  s.reservedSectorCount + s.bpb.numFats * s.bpb.sectorsPerFat + (s.rootEntryCount * 32 + 511) / 512

/-- What mounting makes of the driver's variables. -/
structure MountedFrom (s : Sector) (v : Volume) : Prop where
  bpb : v.bpb = s.bpb
  fatStartLba : v.fatStartLba = s.reservedSectorCount
  rootDirStartLba : v.rootDirStartLba = s.reservedSectorCount + s.bpb.numFats * s.bpb.sectorsPerFat
  dataStartLba : v.dataStartLba = s.dataStart
  totalClusters : v.totalClusters = if s.bpb.sectorsPerCluster ≠ 0 then
    (s.totalSectors + 2 ^ 32 - s.dataStart) % 2 ^ 32 / s.bpb.sectorsPerCluster else 0
  hint : v.nextFreeClusterHint = 2
  mounted : v.mounted = true

theorem fat16Mount_mountedFrom {v v' : Volume} (h : fat16Mount v = (true, v')) :
    MountedFrom (v.disk 0) v' ∧ 0 < (v.disk 0).bpb.numFats := by
  rw [fat16Mount] at h
  simp only [readSector] at h
  split at h
  · exact absurd (Prod.mk.inj h).1 (by simp)
  · next sector0 v₁ hread =>
    have hsector : v.disk 0 = sector0 := by
      split at hread
      · exact absurd (Prod.mk.inj hread).1 (by simp)
      · exact Option.some.inj (Prod.mk.inj hread).1
    split at h
    · exact absurd (Prod.mk.inj h).1 (by simp)
    · next hok =>
      push Not at hok
      obtain ⟨-, rfl⟩ := Prod.mk.inj h
      rw [hsector]
      exact ⟨⟨rfl, rfl, rfl, rfl, rfl, rfl, rfl⟩, hok.2.2.2.1⟩

theorem fat16Mount_reliable {v v' : Volume} (hr : v.Reliable) (h : fat16Mount v = (true, v')) :
    v'.Reliable := by
  simp only [fat16Mount, readSector_eq hr] at h
  split at h
  · exact absurd (Prod.mk.inj h).1 (by simp)
  · exact (Prod.mk.inj h).2 ▸ hr

theorem MountedFrom.ordered {s : Sector} {v : Volume} (h : MountedFrom s v) : v.Ordered := by
  rw [Volume.Ordered, h.fatStartLba, h.rootDirStartLba, h.dataStartLba, Sector.dataStart]
  exact ⟨Nat.le_add_right _ _, Nat.le_add_right _ _⟩

/-- The data begins on the disk, and the FATs have an entry for every cluster: the number of sectors
    lies between two bounds. -/
def Sector.Consistent (s : Sector) : Prop :=
  s.bpb.sectorsPerCluster ≠ 0 ∧ s.dataStart ≤ s.totalSectors ∧
    s.totalSectors < s.dataStart + (256 * s.bpb.sectorsPerFat - 1) * s.bpb.sectorsPerCluster

/-- The arithmetic of the driver on a volume mounted from `s` is well-defined, now and after any
    calls. -/
structure ArithmeticSound (s : Sector) (v : Volume) : Prop where
  divisor : v.bpb.sectorsPerCluster ≠ 0
  data : v.dataStartLba ≤ s.totalSectors
  covered : v.totalClusters + 2 ≤ v.bpb.sectorsPerFat * 256
  later : ∀ v', FsRun v v' → v'.clusterSize ≠ 0 ∧ ∀ c, v'.InRange c → ∀ i < v'.bpb.numFats,
    v'.fatStartLba + i * v'.bpb.sectorsPerFat ≤ v'.fatSector c i ∧
      v'.fatSector c i < v'.fatStartLba + i * v'.bpb.sectorsPerFat + v'.bpb.sectorsPerFat

theorem Sector.totalSectors_lt (s : Sector) : s.totalSectors < 2 ^ 32 := by
  rw [totalSectors]
  split
  · exact (UInt16.toNat_lt _).trans (by norm_num)
  · exact UInt32.toNat_lt _

/-- The number of clusters fits the FAT exactly when the disk is short enough. -/
theorem MountedFrom.covered_iff {s : Sector} {v : Volume} (h : MountedFrom s v)
    (hspc : s.bpb.sectorsPerCluster ≠ 0) (hdata : s.dataStart ≤ s.totalSectors) :
    v.totalClusters + 2 ≤ v.bpb.sectorsPerFat * 256 ↔
      s.totalSectors < s.dataStart + (256 * s.bpb.sectorsPerFat - 1) * s.bpb.sectorsPerCluster := by
  have hlt := s.totalSectors_lt
  have hsub : (s.totalSectors + 2 ^ 32 - s.dataStart) % 2 ^ 32 = s.totalSectors - s.dataStart := by
    omega
  have hdiv : (s.totalSectors - s.dataStart) / s.bpb.sectorsPerCluster <
        256 * s.bpb.sectorsPerFat - 1 ↔
      s.totalSectors - s.dataStart <
        (256 * s.bpb.sectorsPerFat - 1) * s.bpb.sectorsPerCluster :=
    Nat.div_lt_iff_lt_mul (Nat.pos_of_ne_zero hspc)
  rw [h.totalClusters, if_pos hspc, hsub, h.bpb]
  generalize (s.totalSectors - s.dataStart) / s.bpb.sectorsPerCluster = clusters at hdiv ⊢
  omega

/-- Exactly the consistent boot sectors lead to sound arithmetic. -/
theorem mount_arithmetic_iff {v v' : Volume} (h : fat16Mount v = (true, v')) :
    ArithmeticSound (v.disk 0) v' ↔ (v.disk 0).Consistent := by
  obtain ⟨hm, -⟩ := fat16Mount_mountedFrom h
  constructor
  · intro hsound
    have hspc : (v.disk 0).bpb.sectorsPerCluster ≠ 0 := hm.bpb ▸ hsound.divisor
    have hdata : (v.disk 0).dataStart ≤ (v.disk 0).totalSectors := hm.dataStartLba ▸ hsound.data
    exact ⟨hspc, hdata, (hm.covered_iff hspc hdata).mp hsound.covered⟩
  · rintro ⟨hspc, hdata, hlt⟩
    have hcovered := (hm.covered_iff hspc hdata).mpr hlt
    refine ⟨hm.bpb ▸ hspc, hm.dataStartLba ▸ hdata, hcovered, fun v'' hrun => ?_⟩
    have hg := (hrun.touches hm.ordered).geometry
    have hspc' : v''.bpb.sectorsPerCluster ≠ 0 := by
      rw [hg.bpb, hm.bpb]
      exact hspc
    refine ⟨by rw [Volume.clusterSize]; omega, fun c hc i _ => ?_⟩
    obtain ⟨-, hhi⟩ := hg.inRange.mp hc
    rw [Volume.fatSector, hg.fatStartLba, hg.bpb]
    omega

/-- A volume over a disk with the given boot sector. -/
def bootedFrom (s : Sector) : Volume :=
  { zeroVolume with disk := fun lba => if lba = 0 then s else Sector.zero }

/-- The boot sector of a formatted disk of 1024 sectors. -/
theorem mount_arithmetic_formatted :
    ∃ v, fat16Mount (bootedFrom (formatBoot 1024)) = (true, v) ∧
      ArithmeticSound (formatBoot 1024) v := by
  have hok : (fat16Mount (bootedFrom (formatBoot 1024))).1 = true := by decide
  obtain ⟨v, hmount⟩ := eq_true_of_fst hok
  exact ⟨v, hmount, (mount_arithmetic_iff hmount).mpr ⟨by decide, by decide,
    by decide⟩⟩

/-- A boot sector with no sectors in a cluster is mounted. -/
theorem mount_divides_by_zero :
    ¬ ∀ v v' : Volume, fat16Mount v = (true, v') → ArithmeticSound (v.disk 0) v' := by
  intro hall
  have hok : (fat16Mount (bootedFrom ((formatBoot 1024).setByte 13 0))).1 = true := by
    decide
  obtain ⟨v, hmount⟩ := eq_true_of_fst hok
  have hdivisor := (hall _ v hmount).divisor
  rw [(fat16Mount_mountedFrom hmount).1.bpb] at hdivisor
  exact hdivisor (by decide)

end mount

/-- A call of the driver. -/
inductive DriverCall where
  | mount
  | format (diskSectors : UInt32)
  | fs (c : FsCall)

/-- The volume after a call that returns. -/
def DriverCall.step (fuel : ℕ) (v : Volume) : DriverCall → Option Volume
  | .mount => some (fat16Mount v).2
  | .format diskSectors => some (fat16Format diskSectors v).2
  | .fs c => c.step fuel v

/-- `v'` is reached from `v` by calls that return, with any results. -/
inductive DriverRun (v : Volume) : Volume → Prop
  | refl : DriverRun v v
  | call {v₁ v₂ : Volume} {fuel : ℕ} (c : DriverCall) : DriverRun v v₁ → c.step fuel v₁ = some v₂ →
      DriverRun v v₂

/-- The driver when the system has started, on any disk. -/
def driverStart (disk : ℕ → Sector) (faults : ℕ → Bool) : Volume :=
  { zeroVolume with disk := disk, faults := faults }

/-- What holds between any two calls. -/
structure DriverInv (v : Volume) : Prop where
  ordered : v.Ordered
  hint : 2 ≤ v.nextFreeClusterHint

namespace DriverInv

variable {v v' : Volume}

theorem start (disk : ℕ → Sector) (faults : ℕ → Bool) : DriverInv (driverStart disk faults) :=
  ⟨⟨le_rfl, le_rfl⟩, le_rfl⟩

theorem touches (h : DriverInv v) (ht : Touches v v') : DriverInv v' :=
  ⟨ht.ordered h.ordered, ht.hint h.hint⟩

theorem mount (h : DriverInv v) : DriverInv (fat16Mount v).2 := by
  cases hmount : fat16Mount v with
  | mk ok v' =>
    cases ok with
    | true =>
      obtain ⟨hm, -⟩ := fat16Mount_mountedFrom hmount
      exact ⟨hm.ordered, hm.hint.ge⟩
    | false =>
      simp only [fat16Mount, readSector] at hmount
      split at hmount
      · obtain ⟨-, rfl⟩ := Prod.mk.inj hmount
        next hread => exact (Prod.mk.inj hread).2 ▸ ⟨h.ordered, h.hint⟩
      · next hread =>
        split at hmount
        · obtain ⟨-, rfl⟩ := Prod.mk.inj hmount
          exact (Prod.mk.inj hread).2 ▸ ⟨h.ordered, h.hint⟩
        · exact absurd (Prod.mk.inj hmount).1 (by simp)

theorem format (h : DriverInv v) (diskSectors : UInt32) :
    DriverInv (fat16Format diskSectors v).2 := by
  rw [fat16Format]
  have hform : ∀ v₁ : Volume, 2 ≤ v₁.nextFreeClusterHint →
      DriverInv (v₁.formatted diskSectors.toNat) := fun v₁ hv₁ =>
    ⟨⟨Nat.le_add_right _ _, Nat.le_add_right _ _⟩, hv₁⟩
  split
  · next v₁ hboot =>
    rw [writeSector] at hboot
    split at hboot
    · exact (Prod.mk.inj hboot).2 ▸ ⟨h.ordered, h.hint⟩
    · exact absurd (Prod.mk.inj hboot).1 (by simp)
  · next v₁ hboot =>
    have hhint : 2 ≤ v₁.nextFreeClusterHint := by
      rw [writeSector] at hboot
      split at hboot
      · exact absurd (Prod.mk.inj hboot).1 (by simp)
      · exact (Prod.mk.inj hboot).2 ▸ h.hint
    have hfats := zeroFats_touches (List.range v₁.bpb.numFats) (v₁.formatted diskSectors.toNat)
    split
    · next v₂ hrun =>
      rw [hrun] at hfats
      exact (hform v₁ hhint).touches hfats
    · next v₂ hrun =>
      rw [hrun] at hfats
      have h₂ := (hform v₁ hhint).touches hfats
      have hroot := @zeroSectors_touches v₂ v₂.rootDirSectors v₂.rootDirStartLba h₂.ordered.1
      split
      · next v₃ hrun₃ =>
        rw [hrun₃] at hroot
        exact h₂.touches hroot
      · next v₃ hrun₃ =>
        rw [hrun₃] at hroot
        have h₄ := h₂.touches ((hroot.trans (fatWriteEntry_touches 0 0xFFF8 v₃)).trans
          (fatWriteEntry_touches 1 0xFFFF _))
        exact ⟨h₄.ordered, le_rfl⟩

theorem run {disk : ℕ → Sector} {faults : ℕ → Bool} (hrun : DriverRun (driverStart disk faults) v) :
    DriverInv v := by
  induction hrun with
  | refl => exact start disk faults
  | call c _ hstep ih =>
    cases c with
    | mount => exact Option.some.inj hstep ▸ ih.mount
    | format diskSectors => exact Option.some.inj hstep ▸ ih.format diskSectors
    | fs c => exact ih.touches (c.step_touches ih.ordered hstep)

end DriverInv

section search

variable {v : Volume}

/-- Cluster `c` can be handed out. -/
def Volume.Usable (v : Volume) (c : ℕ) : Prop := v.InRange c ∧ c < 0xFFF7 ∧ v.fat c = 0

/-- The free-cluster search finds what there is. -/
structure SearchRight (v : Volume) : Prop where
  finds : (∃ c, v.Usable c) → v.Usable (fatFindFreeCluster v).1
  full : (fatFindFreeCluster v).1 = 0 → ¬ ∃ c, v.Usable c

/-- The clusters before this one are searched: `last` of the source, a 16-bit number. -/
def Volume.searchEnd (v : Volume) : ℕ := (v.totalClusters + 2) % 65536

/-- If there is a usable cluster, one of those searched is, and no free cluster that is not usable
    comes before it. -/
def Volume.SearchMeets (v : Volume) : Prop :=
  (∃ c, v.Usable c) → ∃ c, v.Usable c ∧ c < v.searchEnd ∧
    (v.nextFreeClusterHint ≤ c ∨
      ∀ c', v.nextFreeClusterHint ≤ c' → c' < v.searchEnd → v.fat c' ≠ 0)

theorem searchEnd_le (v : Volume) : v.searchEnd ≤ v.totalClusters + 2 := Nat.mod_le _ _

/-- The search takes the first free cluster from the hint on, or else the first one before it. -/
theorem fatFindFreeCluster_cases (hr : v.Reliable) :
    (∃ c, (fatFindFreeCluster v).1 = c ∧ v.nextFreeClusterHint ≤ c ∧ c < v.searchEnd ∧ v.fat c = 0 ∧
      ∀ c', v.nextFreeClusterHint ≤ c' → c' < c → v.fat c' ≠ 0) ∨
    (∀ c', v.nextFreeClusterHint ≤ c' → c' < v.searchEnd → v.fat c' ≠ 0) ∧
      ((∃ c, (fatFindFreeCluster v).1 = c ∧ 2 ≤ c ∧ c < v.nextFreeClusterHint ∧ c < v.searchEnd ∧
        v.fat c = 0 ∧ ∀ c', 2 ≤ c' → c' < c → v.fat c' ≠ 0) ∨
      (fatFindFreeCluster v).1 = 0 ∧
        ∀ c', 2 ≤ c' → c' < v.nextFreeClusterHint → c' < v.searchEnd → v.fat c' ≠ 0) := by
  have hbefore : ∀ {start n k : ℕ},
      (List.range' start n).find? (fun k => v.fat k = freeCluster) = some k →
        start ≤ k ∧ k < start + n ∧ v.fat k = 0 ∧ ∀ c', start ≤ c' → c' < k → v.fat c' ≠ 0 := by
    intro start n k hfind
    obtain ⟨hlo, hhi⟩ := List.mem_range'_1.mp (List.mem_of_find?_eq_some hfind)
    have hfree := List.find?_some hfind
    refine ⟨hlo, hhi, of_decide_eq_true hfree, fun c' hc' hlt hfree => ?_⟩
    obtain ⟨-, i, hi, hget, hall⟩ := List.find?_eq_some_iff_getElem.mp hfind
    rw [List.getElem_range'] at hget
    have hc := hall (c' - start) (by omega)
    rw [List.getElem_range', show start + 1 * (c' - start) = c' by omega] at hc
    simp [hfree, freeCluster] at hc
  have hnone : ∀ {start n : ℕ},
      (List.range' start n).find? (fun k => v.fat k = freeCluster) = none →
        ∀ c', start ≤ c' → c' < start + n → v.fat c' ≠ 0 := by
    intro start n hfind c' hlo hhi hfree
    rw [List.find?_eq_none] at hfind
    exact hfind c' (List.mem_range'_1.mpr ⟨hlo, hhi⟩) (decide_eq_true hfree)
  rw [fatFindFreeCluster, scanFree_eq hr]
  change _ ∨ _ ∧ _
  rw [Volume.searchEnd]
  generalize (v.totalClusters + 2) % 65536 = last
  cases h₁ : (List.range' v.nextFreeClusterHint (last - v.nextFreeClusterHint)).find?
      (fun k => v.fat k = freeCluster) with
  | some c =>
    obtain ⟨hlo, hhi, hfree, hall⟩ := hbefore h₁
    exact .inl ⟨c, rfl, hlo, by omega, hfree, hall⟩
  | none =>
    refine .inr ⟨fun c' hlo hhi => hnone h₁ c' hlo (by omega), ?_⟩
    simp only
    rw [scanFree_eq hr]
    cases h₂ : (List.range' 2 (min v.nextFreeClusterHint last - 2)).find?
        (fun k => v.fat k = freeCluster) with
    | some c =>
      obtain ⟨hlo, hhi, hfree, hall⟩ := hbefore h₂
      exact .inl ⟨c, rfl, hlo, by omega, by omega, hfree, hall⟩
    | none => exact .inr ⟨rfl, fun c' hlo hhi hhi' => hnone h₂ c' hlo (by omega)⟩

/-- When all cluster numbers are below the reserved ones, the search meets what there is. -/
theorem searchMeets_of_few (h : v.totalClusters + 2 ≤ 0xFFF7) (hhint : 2 ≤ v.nextFreeClusterHint) :
    v.SearchMeets := by
  have hend : v.searchEnd = v.totalClusters + 2 := Nat.mod_eq_of_lt (by omega)
  rintro ⟨c, hc⟩
  obtain ⟨⟨hlo, hhi⟩, -, -⟩ := id hc
  by_cases hnone : ∀ c', v.nextFreeClusterHint ≤ c' → c' < v.searchEnd → v.fat c' ≠ 0
  · exact ⟨c, hc, by omega, .inr hnone⟩
  · push Not at hnone
    obtain ⟨c', hlo', hhi', hfree⟩ := hnone
    exact ⟨c', ⟨⟨by omega, by omega⟩, by omega, hfree⟩, hhi', .inl hlo'⟩

theorem searchRight_iff_meets (hr : v.Reliable) (hhint : 2 ≤ v.nextFreeClusterHint) :
    SearchRight v ↔ v.SearchMeets := by
  have hend := searchEnd_le v
  have hcases := fatFindFreeCluster_cases hr
  constructor
  · intro h hex
    have hfound := h.finds hex
    obtain ⟨c, hc, hlo, hhi, -⟩ | ⟨hnone, ⟨c, hc, -, -, hhi, -⟩ | ⟨hzero, -⟩⟩ := hcases
    · exact ⟨c, hc ▸ hfound, hhi, .inl hlo⟩
    · exact ⟨c, hc ▸ hfound, hhi, .inr hnone⟩
    · rw [hzero] at hfound
      exact absurd hfound.1.1 (by decide)
  · intro h
    have hfinds : (∃ c, v.Usable c) → v.Usable (fatFindFreeCluster v).1 := by
      intro hex
      obtain ⟨c, ⟨⟨hlo, hhi⟩, hbad, hfree⟩, hlt, hplace⟩ := h hex
      obtain ⟨r, hr, hlo', hhi', hfree', hleast⟩ | ⟨hnone, hrest⟩ := hcases
      · -- the first scan stops at a cluster that is not behind `c`
        have hle : r ≤ c := by
          obtain hplace | hplace := hplace
          · exact Nat.le_of_not_lt fun hlt => hleast c hplace hlt hfree
          · exact absurd hfree' (hplace r hlo' hhi')
        rw [hr]
        exact ⟨⟨by omega, by omega⟩, by omega, hfree'⟩
      · have hbefore : c < v.nextFreeClusterHint :=
          Nat.lt_of_not_le fun hle => hnone c hle hlt hfree
        obtain ⟨r, hr, hlo', -, hhi', hfree', hleast⟩ | ⟨-, hall⟩ := hrest
        · have hle : r ≤ c := Nat.le_of_not_lt fun hlt => hleast c hlo hlt hfree
          rw [hr]
          exact ⟨⟨by omega, by omega⟩, by omega, hfree'⟩
        · exact absurd hfree (hall c hlo hbefore hlt)
    refine ⟨hfinds, fun hzero hex => ?_⟩
    have hfound := hfinds hex
    rw [hzero] at hfound
    exact absurd hfound.1.1 (by decide)

end search

/-- In every state that calls lead to, with any content of the disk, the search is right exactly
    when a usable cluster, if there is one, is searched before the free ones that are not usable. -/
theorem search_right_iff {disk : ℕ → Sector} {faults : ℕ → Bool} {v : Volume}
    (hrun : DriverRun (driverStart disk faults) v) (hr : v.Reliable) (content : ℕ → Sector) :
    SearchRight (v.withDisk content) ↔ (v.withDisk content).SearchMeets :=
  searchRight_iff_meets (hr.withDisk content) (DriverInv.run hrun).hint

/-- Searching a formatted volume. -/
theorem search_right_formatted :
    ∃ v, DriverRun (driverStart (fun _ => Sector.zero) fun _ => false) v ∧ v.mounted = true ∧
      SearchRight (v.withDisk fun _ => Sector.zero) := by
  obtain ⟨v, hformat⟩ := format_zeroVolume 1024
  obtain ⟨hform, hmounted, hhint⟩ := fat16Format_formatted hformat
  have hstep : (DriverCall.format 1024).step 0 zeroVolume = some v :=
    congrArg some (congrArg Prod.snd hformat)
  have hrun : DriverRun (driverStart (fun _ => Sector.zero) fun _ => false) v :=
    .call (.format 1024) .refl hstep
  have hr : v.Reliable := fat16Format_kept_reliable (show zeroVolume.Reliable from rfl) hformat
  refine ⟨v, hrun, hmounted, (search_right_iff hrun hr _).mpr (searchMeets_of_few ?_ ?_)⟩
  · rw [Volume.withDisk_totalClusters, hform.totalClusters]
    decide
  · exact hhint.ge

/-- The boot sector of a disk with 65534 clusters of one sector. -/
def manyClustersBoot : Sector :=
  ([(13, 1), (16, 1), (17, 0), (18, 0), (19, 0), (20, 0), (22, 0), (23, 1), (32, 0xFF), (34, 1)] :
    List (ℕ × UInt8)).foldl (fun s p => s.setByte p.1 p.2) (formatBoot 1024)

/-- The search misses the free clusters of a mounted volume with 65534 clusters: no cluster is below
    the bound 65536 modulo 65536. -/
theorem search_misses_free :
    ¬ ∀ (disk : ℕ → Sector) (faults : ℕ → Bool) (v : Volume),
      DriverRun (driverStart disk faults) v →
      v.mounted = true → v.Reliable → ∀ content : ℕ → Sector, SearchRight (v.withDisk content) := by
  intro hall
  have hok : (fat16Mount (bootedFrom manyClustersBoot)).1 = true := by decide
  obtain ⟨v, hmount⟩ := eq_true_of_fst hok
  have hm := (fat16Mount_mountedFrom hmount).1
  have hcl : v.totalClusters = 65534 := by
    rw [hm.totalClusters]
    decide
  have hstep : DriverCall.mount.step 0 (bootedFrom manyClustersBoot) = some v :=
    congrArg some (congrArg Prod.snd hmount)
  have hrun : DriverRun (driverStart (bootedFrom manyClustersBoot).disk fun _ => false) v :=
    .call .mount .refl hstep
  have hrel := fat16Mount_reliable (show (bootedFrom manyClustersBoot).Reliable from rfl) hmount
  have hright := hall _ _ v hrun hm.mounted hrel fun _ => Sector.zero
  have husable : (v.withDisk fun _ => Sector.zero).Usable 2 := by
    refine ⟨⟨le_rfl, ?_⟩, by decide, rfl⟩
    rw [Volume.withDisk_totalClusters, hcl]
    decide
  obtain ⟨c, -, hlt, -⟩ := (search_right_iff hrun hrel _).mp hright ⟨2, husable⟩
  rw [Volume.searchEnd, Volume.withDisk_totalClusters, hcl] at hlt
  exact absurd hlt (Nat.not_lt_zero c)

end AuroraOS.Fat16
