import AuroraOS.Fat16.Touches

/-!
# Mounting

`fat16_mount` derives the driver's variables from the boot sector. No operation on files writes a
sector before the first FAT, so mounting again finds the same volume.

## Main definitions

- `fat16Mount`
- `Mounted` — the driver's variables are those of the boot sector

## Main results

- `FileOp.run_bootKept` — an operation leaves the sectors before the FAT alone
-/

namespace AuroraOS.Fat16

/-- `fat16_mount` with a disk attached. The 32-bit difference `data_sectors` may wrap around. -/
def fat16Mount (v : Volume) : Bool × Volume :=
  match readSector 0 v with
  | (none, v) => (false, v)
  | (some sector0, v) =>
    let bytesPerSector := (le16 (sector0.byte 11) (sector0.byte 12)).toNat
    let reservedSectorCount := (le16 (sector0.byte 14) (sector0.byte 15)).toNat
    let rootEntryCount := (le16 (sector0.byte 17) (sector0.byte 18)).toNat
    let totalSectors16 := (le16 (sector0.byte 19) (sector0.byte 20)).toNat
    let totalSectors32 :=
      (le32 (sector0.byte 32) (sector0.byte 33) (sector0.byte 34) (sector0.byte 35)).toNat
    let bpb : Bpb :=
      ⟨(sector0.byte 13).toNat, (sector0.byte 16).toNat,
        (le16 (sector0.byte 22) (sector0.byte 23)).toNat⟩
    let signatureOk := sector0.byte 510 = 0x55 ∧ sector0.byte 511 = 0xAA
    if ¬ signatureOk ∨ bytesPerSector ≠ 512 ∨ ¬ bpb.sectorsPerFat > 0 ∨
        ¬ (1 ≤ bpb.numFats ∧ bpb.numFats ≤ 2) then
      (false, { v with bpb := bpb, mounted := false })
    else
      let rootDirSectors := (rootEntryCount * 32 + 511) / 512
      let rootDirStartLba := reservedSectorCount + bpb.numFats * bpb.sectorsPerFat
      let dataStartLba := rootDirStartLba + rootDirSectors
      let totalSectors := if totalSectors16 ≠ 0 then totalSectors16 else totalSectors32
      let dataSectors := (totalSectors + 2 ^ 32 - dataStartLba) % 2 ^ 32
      (true, { v with
        bpb := bpb
        fatStartLba := reservedSectorCount
        rootDirSectors := rootDirSectors
        rootDirStartLba := rootDirStartLba
        dataStartLba := dataStartLba
        totalClusters :=
          if bpb.sectorsPerCluster ≠ 0 then dataSectors / bpb.sectorsPerCluster else 0
        nextFreeClusterHint := 2
        mounted := true })

/-- The driver's variables are what `fat16_mount` makes of the disk's boot sector, which is not
    part of the FAT. -/
structure Mounted (v : Volume) : Prop where
  mount_eq : fat16Mount v = (true, { v with nextFreeClusterHint := 2 })
  boot : 0 < v.fatStartLba

/-- The sectors before the first FAT are as before. -/
structure BootKept (v v' : Volume) : Prop where
  geometry : v.SameGeometry v'
  disk : ∀ lba < v.fatStartLba, v'.disk lba = v.disk lba

namespace BootKept

variable {v v' : Volume}

theorem of_fields (hdisk : v'.disk = v.disk) (hg : v.SameGeometry v') : BootKept v v' :=
  ⟨hg, fun _ _ => by rw [hdisk]⟩

end BootKept

section driver

variable {v : Volume}

theorem Touches.bootKept {v' : Volume} (h : Touches v v') : BootKept v v' :=
  ⟨h.geometry, fun _ hlba => h.disk hlba⟩

/-- An operation leaves the sectors before the FAT alone. -/
theorem FileOp.run_bootKept (ho : v.Ordered) {op : FileOp} {fuel d : ℕ}
    {name : List UInt8} {b : Bool}
    {v' : Volume} (hrun : op.run fuel d name v = some (b, v')) : BootKept v v' := by
  cases op with
  | create asDirectory => exact (fat16Create_touches ho hrun).bootKept
  | write data => exact (fat16WriteFile_touches ho hrun).bootKept
  | delete => exact (fat16Delete_touches ho hrun).bootKept

theorem Volume.Sound.ordered (hs : v.Sound) : v.Ordered := by
  rw [Volume.Ordered, hs.root_start, hs.data_start, hs.root_start]
  exact ⟨Nat.le_add_right _ _, Nat.le_add_right _ _⟩

/-- The boot sector is all that mounting depends on. -/
theorem Mounted.congr {v' : Volume} (h : Mounted v) (hr : v.Reliable) (hr' : v'.Reliable)
    (hkept : BootKept v v') : Mounted v' := by
  obtain ⟨hmount, hboot⟩ := h
  have hsector := hkept.disk 0 hboot
  refine ⟨?_, by rw [hkept.geometry.fatStartLba]; exact hboot⟩
  rw [fat16Mount, readSector_eq hr] at hmount
  rw [fat16Mount, readSector_eq hr', hsector]
  simp only at hmount ⊢
  split at hmount
  · exact absurd (Prod.mk.inj hmount).1 (by simp)
  · next hok =>
    rw [if_neg hok]
    have heq := (Prod.mk.inj hmount).2
    rw [Volume.mk.injEq] at heq
    obtain ⟨hbpb, hmounted, hfat, hroot, hrootn, hdata, htotal, -, -, -⟩ := heq
    refine Prod.ext rfl ?_
    simp only [Volume.mk.injEq, hkept.geometry.bpb, hkept.geometry.mounted,
      hkept.geometry.fatStartLba, hkept.geometry.rootDirStartLba, hkept.geometry.rootDirSectors,
      hkept.geometry.dataStartLba, hkept.geometry.totalClusters]
    exact ⟨hbpb, hmounted, hfat, hroot, hrootn, hdata, htotal, trivial, trivial, trivial⟩

end driver

end AuroraOS.Fat16
