import AuroraOS.Fat16.Driver
import AuroraOS.Lib.LinkedChain

/-!
# The on-disk layout

What the bytes of a volume mean: the link of a cluster, the sectors of a cluster, the slots
of a directory and the entry in a slot. The geometry that `Volume.Sound` collects places the
FAT copies, the root directory and the clusters next to each other, so that a write to one of
them is invisible in the others; on a sound volume with a reliable controller each transfer
function of the driver equals a pure update of the disk.

## Main definitions

- `Volume.fat`, `Volume.setFat` — one link, in all copies
- `Volume.dirent`, `Volume.setDirent` — one directory entry
- `Volume.Sound`, `Volume.FatsAgree` — geometry, and identical FAT copies
- `clusterChain`, `dirSlots` — the clusters of a chain and the slots of a directory
-/

namespace AuroraOS.Fat16

namespace Sector

variable (s : Sector)

theorem byte_of_lt {n : ℕ} (h : n < 512) : s.byte n = s ⟨n, h⟩ := by
  have hfin : Fin.ofNat 512 n = ⟨n, h⟩ := Fin.ext (Nat.mod_eq_of_lt h)
  rw [byte, hfin]

theorem setByte_byte_self {n : ℕ} (b : UInt8) (h : n < 512) : (s.setByte n b).byte n = b := by
  simp [byte_of_lt _ h, setByte]

theorem setByte_byte_of_ne {n m : ℕ} (b : UInt8) (h : m < 512) (hne : m ≠ n) :
    (s.setByte n b).byte m = s.byte m := by
  simp [byte_of_lt _ h, setByte, hne]

theorem copyIn_byte_of_mem {off k : ℕ} {bytes : List UInt8} (hk : k < bytes.length)
    (h : off + bytes.length ≤ 512) : (s.copyIn off bytes).byte (off + k) = bytes.getD k 0 := by
  rw [byte_of_lt _ (by omega), copyIn]
  simp [hk]

theorem copyIn_byte_of_not_mem {off n : ℕ} {bytes : List UInt8} (hn : n < 512)
    (h : n < off ∨ off + bytes.length ≤ n) : (s.copyIn off bytes).byte n = s.byte n := by
  rw [byte_of_lt _ hn, byte_of_lt _ hn, copyIn, if_neg]
  simp only
  omega

end Sector

theorem le16_bytes16 (w : UInt16) : le16 w.toUInt8 (UInt8.ofNat (w.toNat / 256)) = w := by
  apply UInt16.toNat_inj.mp
  have := w.toNat_lt
  simp only [le16, UInt16.toNat_ofNat', UInt8.toNat_ofNat', UInt16.toNat_toUInt8]
  omega

theorem le32_bytes32 (w : UInt32) :
    le32 w.toUInt8 (UInt8.ofNat (w.toNat / 256)) (UInt8.ofNat (w.toNat / 65536))
      (UInt8.ofNat (w.toNat / 16777216)) = w := by
  apply UInt32.toNat_inj.mp
  have := w.toNat_lt
  simp only [le32, UInt32.toNat_ofNat', UInt8.toNat_ofNat', UInt32.toNat_toUInt8]
  omega

namespace Dirent

theorem toBytes_length (e : Dirent) : e.toBytes.length = 32 := by
  simp [toBytes, bytes16, bytes32]

/-- Reading a slot back after an entry was written into it. -/
theorem read_copyIn_self (s : Sector) {i : ℕ} (hi : i < 16) (e : Dirent) :
    read (s.copyIn (i * 32) e.toBytes) i = e := by
  have hlen := e.toBytes_length
  have hb : ∀ k, k < 32 →
      (s.copyIn (i * 32) e.toBytes).byte (32 * i + k) = e.toBytes.getD k 0 := by
    intro k hk
    rw [Nat.mul_comm 32 i]
    exact s.copyIn_byte_of_mem (by omega) (by omega)
  obtain ⟨name, attr, reserved, ctt, ct, cd, ad, fch, wt, wd, fcl, fs⟩ := e
  simp only [read, mk.injEq]
  refine ⟨?_, ?_⟩
  · ext k hk
    rw [Vector.getElem_ofFn, hb k (by omega)]
    simp [toBytes, List.getElem?_append_left, hk]
  · simp (disch := decide) only [hb]
    simp [toBytes, bytes16, bytes32, le16_bytes16, le32_bytes32]

/-- Two sectors with the same 32 bytes in a slot hold the same entry there. -/
theorem read_congr {s t : Sector} {i : ℕ}
    (h : ∀ k, k < 32 → s.byte (32 * i + k) = t.byte (32 * i + k)) : read s i = read t i := by
  simp only [read, mk.injEq]
  refine ⟨?_, ?_⟩
  · ext k hk
    rw [Vector.getElem_ofFn, Vector.getElem_ofFn, h k (by omega)]
  · simp (disch := decide) only [h, and_self]

theorem read_copyIn_of_ne (s : Sector) {i j : ℕ} (hj : j < 16) (hne : j ≠ i) (e : Dirent) :
    read (s.copyIn (i * 32) e.toBytes) j = read s j := by
  refine read_congr fun k hk => s.copyIn_byte_of_not_mem (by omega) ?_
  rw [e.toBytes_length]
  omega

/-- Marking slot `i` deleted changes the first byte of its name and nothing else. -/
theorem read_setByte_self (s : Sector) {i : ℕ} (hi : i < 16) (b : UInt8) :
    read (s.setByte (i * 32) b) i = { read s i with name := (read s i).name.set 0 b } := by
  have hb : ∀ k, k < 32 → k ≠ 0 →
      (s.setByte (i * 32) b).byte (32 * i + k) = s.byte (32 * i + k) :=
    fun k hk h0 => s.setByte_byte_of_ne b (by omega) (by omega)
  simp only [read, mk.injEq]
  refine ⟨?_, ?_⟩
  · ext k hk
    rw [Vector.getElem_ofFn, Vector.getElem_set]
    split
    · next h0 =>
      subst h0
      rw [show 32 * i + 0 = i * 32 by omega, s.setByte_byte_self b (by omega)]
    · next h0 => rw [Vector.getElem_ofFn, hb k (by omega) (Ne.symm h0)]
  · simp (disch := decide) only [hb, and_self]

theorem read_setByte_of_ne (s : Sector) {i j : ℕ} (hj : j < 16) (hne : j ≠ i) (b : UInt8) :
    read (s.setByte (i * 32) b) j = read s j :=
  read_congr fun k hk => s.setByte_byte_of_ne b (by omega) (by omega)

end Dirent

/-- The volume over another disk content. -/
def Volume.withDisk (v : Volume) (disk : ℕ → Sector) : Volume := { v with disk := disk }

namespace Volume

variable (v : Volume) (d : ℕ → Sector)

@[simp] theorem withDisk_bpb : (v.withDisk d).bpb = v.bpb := rfl
@[simp] theorem withDisk_mounted : (v.withDisk d).mounted = v.mounted := rfl
@[simp] theorem withDisk_fatStartLba : (v.withDisk d).fatStartLba = v.fatStartLba := rfl
@[simp] theorem withDisk_rootDirStartLba :
    (v.withDisk d).rootDirStartLba = v.rootDirStartLba := rfl
@[simp] theorem withDisk_rootDirSectors : (v.withDisk d).rootDirSectors = v.rootDirSectors := rfl
@[simp] theorem withDisk_dataStartLba : (v.withDisk d).dataStartLba = v.dataStartLba := rfl
@[simp] theorem withDisk_totalClusters : (v.withDisk d).totalClusters = v.totalClusters := rfl
@[simp] theorem withDisk_nextFreeClusterHint :
    (v.withDisk d).nextFreeClusterHint = v.nextFreeClusterHint := rfl
@[simp] theorem withDisk_disk : (v.withDisk d).disk = d := rfl
@[simp] theorem withDisk_withDisk (d' : ℕ → Sector) :
    (v.withDisk d).withDisk d' = v.withDisk d' := rfl

theorem Reliable.withDisk {v : Volume} (hr : v.Reliable) (d : ℕ → Sector) :
    (v.withDisk d).Reliable := hr

/-- The volume with another content in one sector. -/
def setSector (lba : ℕ) (buf : Sector) : Volume := v.withDisk (Function.update v.disk lba buf)

end Volume

theorem readSector_eq {v : Volume} (hr : v.Reliable) (lba : ℕ) :
    readSector lba v = (some (v.disk lba), v) := by
  cases v
  cases hr
  rfl

theorem writeSector_eq {v : Volume} (hr : v.Reliable) (lba : ℕ) (buf : Sector) :
    writeSector lba buf v = (true, v.setSector lba buf) := by
  cases v
  cases hr
  rfl

/-- The link of cluster `c` in the first FAT copy. -/
def Volume.fat (v : Volume) (c : ℕ) : ℕ :=
  ((v.disk (v.fatStartLba + c * 2 / 512)).byte (c * 2 % 512)).toNat +
    256 * ((v.disk (v.fatStartLba + c * 2 / 512)).byte (c * 2 % 512 + 1)).toNat

theorem fatReadEntry_eq {v : Volume} (hr : v.Reliable) (c : ℕ) :
    fatReadEntry c v = (v.fat c, v) := by
  simp only [fatReadEntry, readSector_eq hr, Volume.fat]

/-- A FAT sector with link `x` in the place of cluster `c`. -/
def Sector.setLink (s : Sector) (c x : ℕ) : Sector :=
  (s.setByte (c * 2 % 512) (UInt8.ofNat (x % 256))).setByte (c * 2 % 512 + 1)
    (UInt8.ofNat (x / 256 % 256))

/-- The volume with link `x` for `c` in the sectors `lbas`. -/
def Volume.patchLink (v : Volume) (c x : ℕ) (lbas : List ℕ) : Volume :=
  v.withDisk fun lba => if lba ∈ lbas then (v.disk lba).setLink c x else v.disk lba

/-- The sector that holds the link of `c` in FAT copy `i`. -/
def Volume.fatSector (v : Volume) (c i : ℕ) : ℕ :=
  v.fatStartLba + i * v.bpb.sectorsPerFat + c * 2 / 512

/-- The volume with link `x` for cluster `c` in every FAT copy. -/
def Volume.setFat (v : Volume) (c x : ℕ) : Volume :=
  v.patchLink c x ((List.range v.bpb.numFats).map (v.fatSector c))

theorem fatWriteCopies_eq {v : Volume} (hr : v.Reliable) (c x : ℕ) (copies : List ℕ)
    (hnd : (copies.map (v.fatSector c)).Nodup) :
    fatWriteCopies c x copies v = (true, v.patchLink c x (copies.map (v.fatSector c))) := by
  induction copies generalizing v with
  | nil => simp [fatWriteCopies, Volume.patchLink, Volume.withDisk]
  | cons i rest ih =>
    rw [List.map_cons, List.nodup_cons] at hnd
    simp only [fatWriteCopies, readSector_eq hr, writeSector_eq hr]
    let v₁ := v.setSector (v.fatSector c i) ((v.disk (v.fatSector c i)).setLink c x)
    have hrest := ih (v := v₁) (hr.withDisk _) hnd.2
    refine hrest.trans (Prod.ext rfl (congrArg v.withDisk (funext fun lba => ?_)))
    -- the copies still to be written are other sectors than the one just written
    have hsec : v₁.fatSector c = v.fatSector c := rfl
    simp only [hsec, List.map_cons, List.mem_cons]
    by_cases hlba : lba = v.fatSector c i
    · subst hlba
      simp [hnd.1, v₁, Volume.setSector]
    · simp [hlba, v₁, Volume.setSector]

/-- A mounted volume whose FAT copies, root directory and clusters lie one after the other
    and whose FAT has an entry for every cluster. -/
structure Volume.Sound (v : Volume) : Prop where
  mounted : v.mounted = true
  reliable : v.Reliable
  spc_pos : 0 < v.bpb.sectorsPerCluster
  numFats_pos : 0 < v.bpb.numFats
  root_start : v.rootDirStartLba = v.fatStartLba + v.bpb.numFats * v.bpb.sectorsPerFat
  data_start : v.dataStartLba = v.rootDirStartLba + v.rootDirSectors
  covered : v.totalClusters + 2 ≤ 256 * v.bpb.sectorsPerFat
  clusters : v.totalClusters + 2 ≤ 0xFFF7
  hint_lo : 2 ≤ v.nextFreeClusterHint
  hint_hi : v.nextFreeClusterHint ≤ v.totalClusters + 2

/-- All FAT copies hold the same sectors. -/
def Volume.FatsAgree (v : Volume) : Prop :=
  ∀ i < v.bpb.numFats, ∀ j < v.bpb.sectorsPerFat,
    v.disk (v.fatStartLba + i * v.bpb.sectorsPerFat + j) = v.disk (v.fatStartLba + j)

/-- A number of a data cluster. -/
def Volume.InRange (v : Volume) (c : ℕ) : Prop := 2 ≤ c ∧ c < v.totalClusters + 2

theorem Volume.Sound.withDisk {v : Volume} (hs : v.Sound) (d : ℕ → Sector) :
    (v.withDisk d).Sound :=
  ⟨hs.mounted, hs.reliable, hs.spc_pos, hs.numFats_pos, hs.root_start, hs.data_start, hs.covered,
    hs.clusters, hs.hint_lo, hs.hint_hi⟩

/-- Quotient and remainder determine a number. -/
theorem mul_add_inj {n i j a b : ℕ} (h : i * n + a = j * n + b) (ha : a < n) (hb : b < n) :
    i = j ∧ a = b := by
  have hn : 0 < n := by omega
  have hi : (i * n + a) / n = i := by
    rw [Nat.mul_comm, Nat.mul_add_div hn, Nat.div_eq_of_lt ha, Nat.add_zero]
  have hj : (j * n + b) / n = j := by
    rw [Nat.mul_comm, Nat.mul_add_div hn, Nat.div_eq_of_lt hb, Nat.add_zero]
  have hij : i = j := by rw [← hi, ← hj, h]
  subst hij
  exact ⟨rfl, by omega⟩

section setFat

variable {v : Volume} {c x : ℕ}

theorem Volume.InRange.lt_covered (hc : v.InRange c) (hs : v.Sound) :
    c * 2 / 512 < v.bpb.sectorsPerFat := by
  have := hs.covered
  have := hc.2
  omega

theorem fatSector_injOn (hs : v.Sound) (hc : v.InRange c) :
    ((List.range v.bpb.numFats).map (v.fatSector c)).Nodup := by
  refine List.Nodup.map_on ?_ List.nodup_range
  intro i _ j _ h
  have hlt := hc.lt_covered hs
  simp only [Volume.fatSector] at h
  exact (mul_add_inj (by omega) hlt hlt).1

theorem fatWriteEntry_eq (hs : v.Sound) (hc : v.InRange c) (x : ℕ) :
    fatWriteEntry c x v = (true, v.setFat c x) :=
  fatWriteCopies_eq hs.reliable c x _ (fatSector_injOn hs hc)

theorem setFat_sound (hs : v.Sound) : (v.setFat c x).Sound := hs.withDisk _

/-- Sector `j` of FAT copy `i` is rewritten exactly when it holds the link of `c`. -/
theorem mem_fatSectors_iff (hc : v.InRange c) (hs : v.Sound) {i j : ℕ}
    (hi : i < v.bpb.numFats) (hj : j < v.bpb.sectorsPerFat) :
    v.fatStartLba + i * v.bpb.sectorsPerFat + j ∈
      (List.range v.bpb.numFats).map (v.fatSector c) ↔ j = c * 2 / 512 := by
  have hlt := hc.lt_covered hs
  simp only [List.mem_map, List.mem_range, Volume.fatSector]
  constructor
  · rintro ⟨k, _, hk⟩
    exact ((mul_add_inj (show k * v.bpb.sectorsPerFat + c * 2 / 512 =
      i * v.bpb.sectorsPerFat + j by omega) hlt hj).2).symm
  · rintro rfl
    exact ⟨i, hi, rfl⟩

/-- Writing a link does not touch the sectors behind the FATs. -/
theorem setFat_disk (hs : v.Sound) (hc : v.InRange c) {lba : ℕ} (h : v.rootDirStartLba ≤ lba) :
    (v.setFat c x).disk lba = v.disk lba := by
  refine if_neg fun hmem => ?_
  obtain ⟨i, hi, rfl⟩ := List.mem_map.mp hmem
  have hlt := hc.lt_covered hs
  have hroot := hs.root_start
  have hmul : (i + 1) * v.bpb.sectorsPerFat ≤ v.bpb.numFats * v.bpb.sectorsPerFat :=
    Nat.mul_le_mul_right _ (List.mem_range.mp hi)
  simp only [Volume.fatSector, Nat.add_mul] at h hmul
  omega

theorem setFat_fatsAgree (hs : v.Sound) (hc : v.InRange c) (ha : v.FatsAgree) :
    (v.setFat c x).FatsAgree := by
  intro i hi j hj
  have h0 := mem_fatSectors_iff hc hs hs.numFats_pos hj
  have h := mem_fatSectors_iff hc hs hi hj
  rw [Nat.zero_mul, Nat.add_zero] at h0
  simp only [Volume.setFat, Volume.patchLink, Volume.withDisk_disk, Volume.withDisk_bpb,
    Volume.withDisk_fatStartLba, h, h0, ha i hi j hj]

theorem Sector.setLink_link_self (s : Sector) (hx : x < 65536) :
    ((s.setLink c x).byte (c * 2 % 512)).toNat +
      256 * ((s.setLink c x).byte (c * 2 % 512 + 1)).toNat = x := by
  have hlo : (s.setLink c x).byte (c * 2 % 512) = UInt8.ofNat (x % 256) := by
    rw [setLink, setByte_byte_of_ne _ _ (by omega) (by omega), setByte_byte_self _ _ (by omega)]
  have hhi : (s.setLink c x).byte (c * 2 % 512 + 1) = UInt8.ofNat (x / 256 % 256) := by
    rw [setLink, setByte_byte_self _ _ (by omega)]
  rw [hlo, hhi, UInt8.toNat_ofNat', UInt8.toNat_ofNat']
  omega

/-- Links of other clusters in the same sector stay as they are. -/
theorem Sector.setLink_byte_of_ne (s : Sector) {n : ℕ} (hn : n < 512) (h0 : n ≠ c * 2 % 512)
    (h1 : n ≠ c * 2 % 512 + 1) : (s.setLink c x).byte n = s.byte n := by
  rw [setLink, setByte_byte_of_ne _ _ hn h1, setByte_byte_of_ne _ _ hn h0]

theorem setFat_fat (hs : v.Sound) (hc : v.InRange c) (hx : x < 65536) {c' : ℕ}
    (hc' : v.InRange c') : (v.setFat c x).fat c' = if c' = c then x else v.fat c' := by
  have hmem := mem_fatSectors_iff hc hs hs.numFats_pos (hc'.lt_covered hs)
  rw [Nat.zero_mul, Nat.add_zero] at hmem
  simp only [Volume.fat, Volume.setFat, Volume.patchLink, Volume.withDisk_disk,
    Volume.withDisk_fatStartLba, hmem]
  by_cases hcc : c' = c
  · subst hcc
    simp only [if_true]
    exact Sector.setLink_link_self _ hx
  · rw [if_neg hcc]
    split
    · next hsec =>
      rw [Sector.setLink_byte_of_ne _ (by omega) (by omega) (by omega),
        Sector.setLink_byte_of_ne _ (by omega) (by omega) (by omega)]
    · rfl

end setFat

/-- The sectors of cluster `c`. -/
def clusterSectors (v : Volume) (c : ℕ) : List ℕ :=
  (List.range v.bpb.sectorsPerCluster).map (clusterToLba v c + ·)

theorem mem_clusterSectors {v : Volume} {c lba : ℕ} :
    lba ∈ clusterSectors v c ↔
      clusterToLba v c ≤ lba ∧ lba < clusterToLba v c + v.bpb.sectorsPerCluster := by
  simp only [clusterSectors, List.mem_map, List.mem_range]
  constructor
  · rintro ⟨k, hk, rfl⟩
    omega
  · intro h
    exact ⟨lba - clusterToLba v c, by omega, by omega⟩

/-- A sector belongs to at most one cluster. -/
theorem eq_of_mem_clusterSectors {v : Volume} {c c' lba : ℕ} (h2 : 2 ≤ c) (h2' : 2 ≤ c')
    (h : lba ∈ clusterSectors v c) (h' : lba ∈ clusterSectors v c') : c = c' := by
  rw [mem_clusterSectors, clusterToLba] at h h'
  have hinj := mul_add_inj (n := v.bpb.sectorsPerCluster) (i := c - 2) (j := c' - 2)
    (a := lba - (v.dataStartLba + (c - 2) * v.bpb.sectorsPerCluster))
    (b := lba - (v.dataStartLba + (c' - 2) * v.bpb.sectorsPerCluster))
    (by omega) (by omega) (by omega)
  omega

theorem data_start_le_of_mem {v : Volume} {c lba : ℕ} (h : lba ∈ clusterSectors v c) :
    v.dataStartLba ≤ lba := by
  rw [mem_clusterSectors, clusterToLba] at h
  omega

/-- The clusters visited from `c`, at most `n` of them. -/
def followLinks (next : ℕ → ℕ) : ℕ → ℕ → List ℕ
  | 0, _ => []
  | n + 1, c => if 2 ≤ c ∧ c < eocMin then c :: followLinks next n (next c) else []

/-- The clusters of the chain that starts at `c`; none if `c` is no cluster. -/
def clusterChain (v : Volume) (c : ℕ) : List ℕ := followLinks v.fat 65536 c

/-- `c` heads an acyclic chain of data clusters, `l`, that ends in an end mark. -/
abbrev IsChain (v : Volume) (c : ℕ) (l : List ℕ) : Prop :=
  Lib.LinkedChain v.fat v.InRange (eocMin ≤ ·) c l

theorem inRange_not_eoc {v : Volume} (hs : v.Sound) (c : ℕ) (hc : v.InRange c) :
    ¬ eocMin ≤ c := by
  have := hs.clusters
  have := hc.2
  simp only [eocMin]
  omega

theorem followLinks_eq {v : Volume} {c : ℕ} {l : List ℕ} (hs : v.Sound) (h : IsChain v c l) :
    ∀ n, l.length ≤ n → followLinks v.fat n c = l := by
  induction h with
  | @last a ha hstop =>
    intro n hn
    obtain ⟨n, rfl⟩ : ∃ m, n = m + 1 := ⟨n - 1, by simp at hn; omega⟩
    have hnil : followLinks v.fat n (v.fat a) = [] := by
      cases n with
      | zero => rfl
      | succ n => exact if_neg (by omega)
    rw [followLinks, if_pos ⟨ha.1, Nat.lt_of_not_le (inRange_not_eoc hs a ha)⟩, hnil]
  | @cons a l ha _ ih =>
    intro n hn
    obtain ⟨n, rfl⟩ : ∃ m, n = m + 1 := ⟨n - 1, by simp at hn; omega⟩
    rw [followLinks, if_pos ⟨ha.1, Nat.lt_of_not_le (inRange_not_eoc hs a ha)⟩,
      ih n (by simp at hn; omega)]

/-- A chain visits each data cluster at most once. -/
theorem IsChain.length_le {v : Volume} {c : ℕ} {l : List ℕ} (hs : v.Sound) (h : IsChain v c l) :
    l.length ≤ v.totalClusters := by
  have hsub : l.toFinset ⊆ Finset.Ico 2 (v.totalClusters + 2) := by
    intro x hx
    have := h.live_of_mem x (List.mem_toFinset.mp hx)
    exact Finset.mem_Ico.mpr this
  have hcard := Finset.card_le_card hsub
  rw [List.toFinset_card_of_nodup (h.nodup (inRange_not_eoc hs)), Nat.card_Ico] at hcard
  omega

theorem IsChain.clusterChain_eq {v : Volume} {c : ℕ} {l : List ℕ} (hs : v.Sound)
    (h : IsChain v c l) : clusterChain v c = l := by
  have := h.length_le hs
  have := hs.clusters
  exact followLinks_eq hs h _ (by omega)

theorem clusterChain_zero (v : Volume) : clusterChain v 0 = [] := rfl

/-- The sectors of a directory: the fixed root area, or those of its chain. -/
def dirSectors (v : Volume) (d : ℕ) : List ℕ :=
  if d = 0 then (List.range v.rootDirSectors).map (v.rootDirStartLba + ·)
  else (clusterChain v d).flatMap (clusterSectors v)

/-- The slots of a directory, in the order the driver visits them. -/
def dirSlots (v : Volume) (d : ℕ) : List Slot := (dirSectors v d).flatMap sectorSlots

theorem mem_sectorSlots {p : Slot} {lba : ℕ} :
    p ∈ sectorSlots lba ↔ p.sectorLba = lba ∧ p.indexInSector < 16 := by
  simp only [sectorSlots, List.mem_map, List.mem_range]
  constructor
  · rintro ⟨i, hi, rfl⟩
    exact ⟨rfl, hi⟩
  · rintro ⟨rfl, hi⟩
    exact ⟨_, hi, rfl⟩

theorem mem_dirSlots {v : Volume} {d : ℕ} {p : Slot} :
    p ∈ dirSlots v d ↔ p.sectorLba ∈ dirSectors v d ∧ p.indexInSector < 16 := by
  simp only [dirSlots, List.mem_flatMap, mem_sectorSlots]
  constructor
  · rintro ⟨_, hmem, rfl, hi⟩
    exact ⟨hmem, hi⟩
  · rintro ⟨hmem, hi⟩
    exact ⟨_, hmem, rfl, hi⟩

theorem mem_dirSectors_root {v : Volume} {lba : ℕ} :
    lba ∈ dirSectors v 0 ↔
      v.rootDirStartLba ≤ lba ∧ lba < v.rootDirStartLba + v.rootDirSectors := by
  rw [dirSectors, if_pos rfl, List.mem_map]
  constructor
  · rintro ⟨k, hk, rfl⟩
    have := List.mem_range.mp hk
    omega
  · intro h
    exact ⟨lba - v.rootDirStartLba, List.mem_range.mpr (by omega), by omega⟩

theorem mem_dirSectors_sub {v : Volume} {d lba : ℕ} (hd : d ≠ 0) :
    lba ∈ dirSectors v d ↔ ∃ c ∈ clusterChain v d, lba ∈ clusterSectors v c := by
  rw [dirSectors, if_neg hd, List.mem_flatMap]

theorem root_start_le_of_mem_dirSectors {v : Volume} (hs : v.Sound) {d lba : ℕ}
    (h : lba ∈ dirSectors v d) : v.rootDirStartLba ≤ lba := by
  by_cases hd : d = 0
  · subst hd
    exact (mem_dirSectors_root.mp h).1
  · obtain ⟨c, _, hc⟩ := (mem_dirSectors_sub hd).mp h
    have := data_start_le_of_mem hc
    have := hs.data_start
    omega

namespace Volume

/-- The entry in slot `p`. -/
def dirent (v : Volume) (p : Slot) : Dirent := Dirent.read (v.disk p.sectorLba) p.indexInSector

/-- The volume with another entry in slot `p`. -/
def setDirent (v : Volume) (p : Slot) (e : Dirent) : Volume :=
  v.setSector p.sectorLba ((v.disk p.sectorLba).copyIn (p.indexInSector * 32) e.toBytes)

/-- The volume with slot `p` marked deleted. -/
def markDeleted (v : Volume) (p : Slot) : Volume :=
  v.setSector p.sectorLba ((v.disk p.sectorLba).setByte (p.indexInSector * 32) 0xE5)

variable {v : Volume} {p q : Slot}

theorem setDirent_dirent (hp : p.indexInSector < 16) (hq : q.indexInSector < 16) (e : Dirent) :
    (v.setDirent p e).dirent q = if q = p then e else v.dirent q := by
  obtain ⟨lp, ip⟩ := p
  obtain ⟨lq, iq⟩ := q
  simp only [dirent, setDirent, setSector, withDisk_disk, Slot.mk.injEq]
  by_cases hl : lq = lp
  · subst hl
    rw [Function.update_self]
    by_cases hi : iq = ip
    · subst hi
      rw [if_pos ⟨rfl, rfl⟩, Dirent.read_copyIn_self _ hp]
    · rw [if_neg (fun h => hi h.2), Dirent.read_copyIn_of_ne _ hq hi]
  · rw [Function.update_of_ne hl, if_neg (fun h => hl h.1)]

theorem markDeleted_dirent (hp : p.indexInSector < 16) (hq : q.indexInSector < 16) :
    (v.markDeleted p).dirent q =
      if q = p then { v.dirent p with name := (v.dirent p).name.set 0 0xE5 }
      else v.dirent q := by
  obtain ⟨lp, ip⟩ := p
  obtain ⟨lq, iq⟩ := q
  simp only [dirent, markDeleted, setSector, withDisk_disk, Slot.mk.injEq]
  by_cases hl : lq = lp
  · subst hl
    rw [Function.update_self]
    by_cases hi : iq = ip
    · subst hi
      rw [if_pos ⟨rfl, rfl⟩, Dirent.read_setByte_self _ hp]
    · rw [if_neg (fun h => hi h.2), Dirent.read_setByte_of_ne _ hq hi]
  · rw [Function.update_of_ne hl, if_neg (fun h => hl h.1)]

theorem dirent_congr {v' : Volume} (h : v'.disk p.sectorLba = v.disk p.sectorLba) :
    v'.dirent p = v.dirent p := by
  rw [dirent, dirent, h]

end Volume

theorem writeDirentSlot_eq {v : Volume} (hr : v.Reliable) (p : Slot) (e : Dirent) :
    writeDirentSlot p e v = (true, v.setDirent p e) := by
  simp only [writeDirentSlot, readSector_eq hr, writeSector_eq hr, Volume.setDirent]

/-- An all-zero sector holds end markers only. -/
theorem read_zero_isEnd (i : ℕ) : (Dirent.read Sector.zero i).isEnd = true := by
  simp [Dirent.isEnd, Dirent.read, Sector.byte, Sector.zero]

end AuroraOS.Fat16
