import AuroraOS.Fat16.Mount

/-!
# Formatting

`fat16_format` computes the size of the FATs from the number of clusters and the number of clusters
from the size of the FATs, in three passes. For two of every 1026 disk sizes the passes do not
settle: they alternate between a FAT with one sector too few and one with enough, and end with the
small one.

## Main definitions

- `fat16Format`
- `GeometrySound` — the areas of a volume of a given size are apart and the FATs cover the clusters

## Main results

- `format_geometry_iff` — for which disk sizes the formatted volume is so
-/

namespace AuroraOS.Fat16

/-- A pass of `fat16_format`: the FAT size for the clusters that a FAT size leaves. -/
def fatSizePass (diskSectors fatSize : ℕ) : ℕ :=
  let dataSectors := (diskSectors + 2 ^ 32 - 1 - 32 - 2 * fatSize) % 2 ^ 32
  let clusters := dataSectors / 4
  ((clusters + 2) * 2 + 511) / 512

/-- `bpb.sectors_per_fat`: the first estimate, which leaves no room for the FATs, and three
    passes. -/
def formatFatSize (diskSectors : ℕ) : ℕ :=
  fatSizePass diskSectors (fatSizePass diskSectors (fatSizePass diskSectors
    (fatSizePass diskSectors 0))) % 2 ^ 16

/-- `bpb` as `fat16_format` fills it in, byte for byte. -/
def formatBpb (diskSectors : ℕ) : List UInt8 :=
  [0xEB, 0x3C, 0x90] ++ [0x41, 0x55, 0x52, 0x4F, 0x52, 0x41, 0x4F, 0x53] ++ bytes16 512 ++ [4] ++
    bytes16 1 ++ [2] ++ bytes16 512 ++
    bytes16 (if 0xFFFF < diskSectors then 0 else UInt16.ofNat diskSectors) ++ [0xF8] ++
    bytes16 (UInt16.ofNat (formatFatSize diskSectors)) ++ bytes16 63 ++ bytes16 16 ++ bytes32 0 ++
    bytes32 (if 0xFFFF < diskSectors then UInt32.ofNat diskSectors else 0) ++ [0x80, 0, 0x29] ++
    bytes32 0xA5A5A5A5 ++
    [0x41, 0x55, 0x52, 0x4F, 0x52, 0x41, 0x4F, 0x53, 0x20, 0x20, 0x20] ++
    [0x46, 0x41, 0x54, 0x31, 0x36, 0x20, 0x20, 0x20]

/-- The boot sector of a formatted volume. -/
def formatBoot (diskSectors : ℕ) : Sector :=
  ((Sector.ofBytes (formatBpb diskSectors)).setByte 510 0x55).setByte 511 0xAA

/-- The loop of `fat16_format` that zeroes the FAT copies. -/
def zeroFats : List ℕ → Volume → Bool × Volume
  | [], v => (true, v)
  | fi :: rest, v =>
    match zeroSectors v.bpb.sectorsPerFat (v.fatStartLba + fi * v.bpb.sectorsPerFat) v with
    | (false, v) => (false, v)
    | (true, v) => zeroFats rest v

/-- The variables that `fat16_format` sets once the boot sector is written. -/
def Volume.formatted (v : Volume) (diskSectors : ℕ) : Volume :=
  let rootDirStartLba := 1 + v.bpb.numFats * v.bpb.sectorsPerFat
  let dataStartLba := rootDirStartLba + 32
  { v with
    fatStartLba := 1
    rootDirSectors := 32
    rootDirStartLba := rootDirStartLba
    dataStartLba := dataStartLba
    totalClusters := (diskSectors + 2 ^ 32 - dataStartLba) % 2 ^ 32 / v.bpb.sectorsPerCluster }

/-- `fat16_format` with a disk attached. The results of the two `fat_write_entry` calls are
    ignored. -/
def fat16Format (diskSectors : UInt32) (v : Volume) : Bool × Volume :=
  let v := { v with bpb := ⟨4, 2, formatFatSize diskSectors.toNat⟩ }
  match writeSector 0 (formatBoot diskSectors.toNat) v with
  | (false, v) => (false, v)
  | (true, v) =>
    match zeroFats (List.range v.bpb.numFats) (v.formatted diskSectors.toNat) with
    | (false, v) => (false, v)
    | (true, v) =>
      match zeroSectors v.rootDirSectors v.rootDirStartLba v with
      | (false, v) => (false, v)
      | (true, v) =>
        let v := (fatWriteEntry 0 0xFFF8 v).2
        let v := (fatWriteEntry 1 0xFFFF v).2
        (true, { v with nextFreeClusterHint := 2, mounted := true })

/-- What formatting makes of the driver's variables. -/
structure Formatted (diskSectors : ℕ) (v : Volume) : Prop where
  bpb : v.bpb = ⟨4, 2, formatFatSize diskSectors⟩
  fatStartLba : v.fatStartLba = 1
  rootDirSectors : v.rootDirSectors = 32
  rootDirStartLba : v.rootDirStartLba = 1 + 2 * formatFatSize diskSectors
  dataStartLba : v.dataStartLba = 1 + 2 * formatFatSize diskSectors + 32
  totalClusters : v.totalClusters =
    (diskSectors + 2 ^ 32 - (1 + 2 * formatFatSize diskSectors + 32)) % 2 ^ 32 / 4

theorem Formatted.of_sameGeometry {diskSectors : ℕ} {v v' : Volume} (h : Formatted diskSectors v)
    (hg : v.SameGeometry v') : Formatted diskSectors v' :=
  ⟨hg.bpb.trans h.bpb, hg.fatStartLba.trans h.fatStartLba, hg.rootDirSectors.trans h.rootDirSectors,
    hg.rootDirStartLba.trans h.rootDirStartLba, hg.dataStartLba.trans h.dataStartLba,
    hg.totalClusters.trans h.totalClusters⟩

theorem zeroFats_touches (copies : List ℕ) (v : Volume) : Touches v (zeroFats copies v).2 := by
  induction copies generalizing v with
  | nil => exact .refl
  | cons fi rest ih =>
    rw [zeroFats]
    have h := @zeroSectors_touches v v.bpb.sectorsPerFat (v.fatStartLba + fi * v.bpb.sectorsPerFat)
      (Nat.le_add_right _ _)
    cases hzero : zeroSectors v.bpb.sectorsPerFat (v.fatStartLba + fi * v.bpb.sectorsPerFat) v with
    | mk ok v₁ =>
      rw [hzero] at h
      cases ok with
      | false => exact h
      | true => exact h.trans (ih v₁)

/-- A volume that was formatted. -/
theorem fat16Format_formatted {diskSectors : UInt32} {v v' : Volume}
    (h : fat16Format diskSectors v = (true, v')) :
    Formatted diskSectors.toNat v' ∧ v'.mounted = true ∧ v'.nextFreeClusterHint = 2 := by
  simp only [fat16Format] at h
  split at h
  · exact absurd (Prod.mk.inj h).1 (by simp)
  · next v₁ hboot =>
    have hbpb : v₁.bpb = ⟨4, 2, formatFatSize diskSectors.toNat⟩ := by
      rw [writeSector] at hboot
      split at hboot
      · exact absurd (Prod.mk.inj hboot).1 (by simp)
      · exact (Prod.mk.inj hboot).2 ▸ rfl
    have h₁ : Formatted diskSectors.toNat (v₁.formatted diskSectors.toNat) :=
      ⟨hbpb, rfl, rfl, by simp only [Volume.formatted, hbpb],
        by simp only [Volume.formatted, hbpb], by simp only [Volume.formatted, hbpb]⟩
    split at h
    · exact absurd (Prod.mk.inj h).1 (by simp)
    · next v₂ hfats =>
      have h₂ := zeroFats_touches (List.range v₁.bpb.numFats) (v₁.formatted diskSectors.toNat)
      rw [hfats] at h₂
      have hform₂ := h₁.of_sameGeometry h₂.geometry
      split at h
      · exact absurd (Prod.mk.inj h).1 (by simp)
      · next v₃ hroot =>
        have h₃ := @zeroSectors_touches v₂ v₂.rootDirSectors v₂.rootDirStartLba (by
          rw [hform₂.fatStartLba, hform₂.rootDirStartLba]
          exact Nat.le_add_right _ _)
        rw [hroot] at h₃
        have h₄ := (h₃.trans (fatWriteEntry_touches 0 0xFFF8 v₃)).trans
          (fatWriteEntry_touches 1 0xFFFF _)
        obtain ⟨-, rfl⟩ := Prod.mk.inj h
        have hform₄ := hform₂.of_sameGeometry h₄.geometry
        exact ⟨⟨hform₄.bpb, hform₄.fatStartLba, hform₄.rootDirSectors, hform₄.rootDirStartLba,
          hform₄.dataStartLba, hform₄.totalClusters⟩, rfl, rfl⟩

theorem zeroFats_reliable (copies : List ℕ) {v : Volume} (hr : v.Reliable) :
    (zeroFats copies v).1 = true := by
  induction copies generalizing v with
  | nil => rfl
  | cons fi rest ih =>
    rw [zeroFats, zeroSectors_eq hr]
    exact ih (hr.withDisk _)

/-- Formatting succeeds when every transfer does. -/
theorem fat16Format_reliable (diskSectors : UInt32) {v : Volume} (hr : v.Reliable) :
    (fat16Format diskSectors v).1 = true := by
  have hwrite := @writeSector_eq { v with bpb := ⟨4, 2, formatFatSize diskSectors.toNat⟩ } hr 0
    (formatBoot diskSectors.toNat)
  rw [fat16Format]
  split
  · next hboot =>
    exact absurd (Prod.mk.inj (hwrite.symm.trans hboot)).1 (by simp)
  · next v₁ hboot =>
    replace hboot := hwrite.symm.trans hboot
    have hr₁ : (v₁.formatted diskSectors.toNat).Reliable := (Prod.mk.inj hboot).2 ▸ hr
    have htouch := zeroFats_touches (List.range v₁.bpb.numFats) (v₁.formatted diskSectors.toNat)
    have hok := zeroFats_reliable (List.range v₁.bpb.numFats) hr₁
    split
    · next hfats =>
      rw [hfats] at hok
      exact hok
    · next v₂ hfats =>
      rw [hfats] at htouch
      split
      · next hroot =>
        rw [zeroSectors_eq (htouch.reliable hr₁)] at hroot
        exact absurd (Prod.mk.inj hroot).1 (by simp)
      · rfl

theorem fat16Format_kept_reliable {diskSectors : UInt32} {v v' : Volume} (hr : v.Reliable)
    (h : fat16Format diskSectors v = (true, v')) : v'.Reliable := by
  have hwrite := @writeSector_eq { v with bpb := ⟨4, 2, formatFatSize diskSectors.toNat⟩ } hr 0
    (formatBoot diskSectors.toNat)
  rw [fat16Format] at h
  split at h
  · exact absurd (Prod.mk.inj h).1 (by simp)
  · next v₁ hboot =>
    have hr₁ : (v₁.formatted diskSectors.toNat).Reliable :=
      (Prod.mk.inj (hwrite.symm.trans hboot)).2 ▸ hr
    have htouch := zeroFats_touches (List.range v₁.bpb.numFats) (v₁.formatted diskSectors.toNat)
    split at h
    · exact absurd (Prod.mk.inj h).1 (by simp)
    · next v₂ hfats =>
      rw [hfats] at htouch
      have hr₂ : v₂.Reliable := htouch.reliable hr₁
      split at h
      · exact absurd (Prod.mk.inj h).1 (by simp)
      · next v₃ hroot =>
        rw [zeroSectors_eq hr₂] at hroot
        have hr₃ : v₃.Reliable := (Prod.mk.inj hroot).2 ▸ hr₂
        have hr₄ := ((fatWriteEntry_touches 0 0xFFF8 v₃).trans
          (fatWriteEntry_touches 1 0xFFFF _)).reliable hr₃
        exact (Prod.mk.inj h).2 ▸ hr₄

section passes

variable {n s : ℕ}

theorem fatSizePass_eq (hs : 33 + 2 * s ≤ n) (hn : n < 2 ^ 32) :
    fatSizePass n s = ((n - 33 - 2 * s) / 4 + 257) / 256 := by
  have hdata : (n + 2 ^ 32 - 1 - 32 - 2 * s) % 2 ^ 32 = n - 33 - 2 * s := by omega
  simp only [fatSizePass, hdata]
  omega

/-- The passes settle. -/
theorem formatFatSize_of_settles (hlo : 64 ≤ n) (hhi : n ≤ 393206) (h : 2 ≤ (n - 29) % 1026) :
    formatFatSize n = (n - 29) / 1026 + 1 := by
  have h₀ : fatSizePass n 0 = (n - 29) / 1026 + 1 ∨
      fatSizePass n 0 = (n - 29) / 1026 + 2 ∧ 4 ≤ (n - 29) % 1026 := by
    rw [fatSizePass_eq (by omega) (by omega)]
    omega
  have hfix : fatSizePass n ((n - 29) / 1026 + 1) = (n - 29) / 1026 + 1 := by
    rw [fatSizePass_eq (by omega) (by omega)]
    omega
  have h₁ : fatSizePass n (fatSizePass n 0) = (n - 29) / 1026 + 1 := by
    obtain h₀ | ⟨h₀, h4⟩ := h₀
    · rw [h₀, hfix]
    · rw [h₀, fatSizePass_eq (by omega) (by omega)]
      omega
  rw [formatFatSize, h₁, hfix, hfix]
  omega

/-- The passes alternate and end with the smaller of two sizes. -/
theorem formatFatSize_of_alternates (hlo : 64 ≤ n) (hhi : n ≤ 393206) (h : (n - 29) % 1026 < 2) :
    formatFatSize n = (n - 29) / 1026 := by
  have h₀ : fatSizePass n 0 = (n - 29) / 1026 + 1 := by
    rw [fatSizePass_eq (by omega) (by omega)]
    omega
  have hdown : fatSizePass n ((n - 29) / 1026 + 1) = (n - 29) / 1026 := by
    rw [fatSizePass_eq (by omega) (by omega)]
    omega
  have hup : fatSizePass n ((n - 29) / 1026) = (n - 29) / 1026 + 1 := by
    rw [fatSizePass_eq (by omega) (by omega)]
    omega
  rw [formatFatSize, h₀, hdown, hup, hdown]
  omega

end passes

/-- A sector range: its first sector and its length. -/
abbrev Area := ℕ × ℕ

/-- The areas of a volume on a disk of `diskSectors` sectors: the FAT copies, the root directory and
    the data. -/
def Volume.areas (v : Volume) (diskSectors : ℕ) : List Area :=
  (List.range v.bpb.numFats).map
      (fun i => (v.fatStartLba + i * v.bpb.sectorsPerFat, v.bpb.sectorsPerFat)) ++
    [(v.rootDirStartLba, v.rootDirSectors), (v.dataStartLba, diskSectors - v.dataStartLba)]

/-- Every cluster has its entry inside each FAT copy, the areas do not overlap, and the clusters lie
    on the disk. -/
structure GeometrySound (diskSectors : ℕ) (v : Volume) : Prop where
  entries : ∀ c, v.InRange c → ∀ i < v.bpb.numFats,
    v.fatStartLba + i * v.bpb.sectorsPerFat ≤ v.fatSector c i ∧
      v.fatSector c i < v.fatStartLba + i * v.bpb.sectorsPerFat + v.bpb.sectorsPerFat
  apart : (v.areas diskSectors).Pairwise fun x y => x.1 + x.2 ≤ y.1 ∨ y.1 + y.2 ≤ x.1
  clusters : ∀ c, v.InRange c → ∀ lba ∈ clusterSectors v c, lba < diskSectors

section sound

variable {n : ℕ} {v : Volume}

theorem Formatted.areas_eq (h : Formatted n v) :
    v.areas n = [(1, formatFatSize n), (1 + formatFatSize n, formatFatSize n),
      (1 + 2 * formatFatSize n, 32),
      (1 + 2 * formatFatSize n + 32, n - (1 + 2 * formatFatSize n + 32))] := by
  simp [Volume.areas, h.bpb, h.fatStartLba, h.rootDirStartLba, h.rootDirSectors, h.dataStartLba,
    List.range_succ]

/-- A disk with at most 65525 clusters is small. -/
theorem Formatted.le_of_totalClusters (h : Formatted n v) (hn : n < 2 ^ 32)
    (hcl : v.totalClusters ≤ 65525) (hlo : 64 ≤ n) : n ≤ 393206 := by
  have hfat : formatFatSize n < 65536 := by
    rw [formatFatSize]
    exact Nat.mod_lt _ (by norm_num)
  rw [h.totalClusters] at hcl
  omega

theorem Formatted.apart (h : Formatted n v) :
    (v.areas n).Pairwise fun x y => x.1 + x.2 ≤ y.1 ∨ y.1 + y.2 ≤ x.1 := by
  rw [h.areas_eq]
  simp only [List.pairwise_cons, List.mem_cons, List.not_mem_nil, or_false, forall_eq_or_imp,
    forall_eq, false_imp_iff, implies_true, and_true, List.Pairwise.nil]
  omega

/-- The clusters lie on the disk, however large the FATs are. -/
theorem Formatted.clusters (h : Formatted n v) (hfit : 1 + 2 * formatFatSize n + 32 ≤ n)
    (hn : n < 2 ^ 32) {c lba : ℕ} (hc : v.InRange c) (hlba : lba ∈ clusterSectors v c) :
      lba < n := by
  obtain ⟨hlo, hhi⟩ := hc
  rw [h.totalClusters] at hhi
  simp only [mem_clusterSectors, clusterToLba, h.dataStartLba, h.bpb] at hlba
  omega

/-- The entries lie in the FAT copies exactly when there is room for all of them. -/
theorem Formatted.entries_iff (h : Formatted n v) :
    (∀ c, v.InRange c → ∀ i < v.bpb.numFats,
      v.fatStartLba + i * v.bpb.sectorsPerFat ≤ v.fatSector c i ∧
        v.fatSector c i < v.fatStartLba + i * v.bpb.sectorsPerFat + v.bpb.sectorsPerFat) ↔
      v.totalClusters = 0 ∨ v.totalClusters + 2 ≤ 256 * formatFatSize n := by
  simp only [Volume.fatSector, h.bpb, h.fatStartLba]
  constructor
  · intro hall
    by_contra hnone
    push Not at hnone
    have hlast := hall (v.totalClusters + 1) ⟨by omega, by omega⟩ 0 (by decide)
    omega
  · intro hroom c hc i _
    obtain ⟨hlo, hhi⟩ := hc
    omega

end sound

/-- The formatted volume is sound unless the disk has 29 or 30 sectors more than a multiple of
    1026. -/
theorem format_geometry_iff (diskSectors : UInt32) (hlo : 64 ≤ diskSectors.toNat) {v v' : Volume}
    (hformat : fat16Format diskSectors v = (true, v')) (hcl : v'.totalClusters ≤ 65525) :
    GeometrySound diskSectors.toNat v' ↔
      diskSectors.toNat % 1026 ≠ 29 ∧ diskSectors.toNat % 1026 ≠ 30 := by
  obtain ⟨h, -, -⟩ := fat16Format_formatted hformat
  have hn := diskSectors.toNat_lt
  generalize diskSectors.toNat = n at hlo h hn ⊢
  have hhi := h.le_of_totalClusters hn hcl hlo
  have htotal := h.totalClusters
  by_cases hr : 2 ≤ (n - 29) % 1026
  · have hsize := formatFatSize_of_settles hlo hhi hr
    refine iff_of_true ⟨h.entries_iff.mpr (.inr ?_), h.apart, fun c hc lba hlba => ?_⟩ (by omega)
    · rw [hsize] at htotal ⊢
      omega
    · exact h.clusters (by rw [hsize]; omega) hn hc hlba
  · have hsize := formatFatSize_of_alternates hlo hhi (by omega)
    refine iff_of_false (fun hsound => ?_) (by omega)
    have hroom := h.entries_iff.mp hsound.entries
    rw [hsize] at htotal hroom
    omega

/-- A volume before anything was mounted, on a disk of zeros. -/
def zeroVolume : Volume where
  bpb := ⟨0, 0, 0⟩
  mounted := false
  fatStartLba := 0
  rootDirStartLba := 0
  rootDirSectors := 0
  dataStartLba := 0
  totalClusters := 0
  nextFreeClusterHint := 2
  disk := fun _ => Sector.zero
  faults := fun _ => false

theorem eq_true_of_fst {p : Bool × Volume} (h : p.1 = true) : ∃ v, p = (true, v) := by
  obtain ⟨ok, v⟩ := p
  obtain rfl : ok = true := h
  exact ⟨v, rfl⟩

theorem format_zeroVolume (diskSectors : UInt32) :
    ∃ v, fat16Format diskSectors zeroVolume = (true, v) :=
  eq_true_of_fst (@fat16Format_reliable diskSectors zeroVolume rfl)

/-- A disk of 1024 sectors. -/
theorem format_geometry_1024 :
    ∃ v, fat16Format 1024 zeroVolume = (true, v) ∧ GeometrySound 1024 v := by
  obtain ⟨v, hformat⟩ := format_zeroVolume 1024
  have hcl : v.totalClusters ≤ 65525 := by
    rw [(fat16Format_formatted hformat).1.totalClusters]
    decide
  exact ⟨v, hformat, (format_geometry_iff 1024 (by decide) hformat hcl).mpr (by decide)⟩

/-- A disk of 1055 sectors has 255 clusters, and the entry of the last one, number 256, lies in the
    second FAT. -/
theorem format_unsound_1055 :
    ¬ ∀ (diskSectors : UInt32) (v v' : Volume), 64 ≤ diskSectors.toNat →
      fat16Format diskSectors v = (true, v') → v'.totalClusters ≤ 65525 →
      GeometrySound diskSectors.toNat v' := by
  intro hall
  obtain ⟨v, hformat⟩ := format_zeroVolume 1055
  have h := (fat16Format_formatted hformat).1
  have hcl : v.totalClusters = 255 := by
    rw [h.totalClusters]
    decide
  have hsound := hall 1055 zeroVolume v (by decide) hformat (by rw [hcl]; decide)
  have hroom := h.entries_iff.mp hsound.entries
  rw [hcl] at hroom
  exact absurd hroom (by decide)

end AuroraOS.Fat16
