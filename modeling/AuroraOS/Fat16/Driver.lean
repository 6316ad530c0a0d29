import AuroraOS.Fat16.Disk

/-!
# The FAT16 driver

The functions of `kernel/fat16.c` below the public interface and the public operations
themselves, in source order. State is passed explicitly. The loops that follow links on
the disk (a directory's clusters, a chain being freed) need not end on a corrupt disk, so
they take fuel and return `none` when it runs out; all other loops are structural.

## Main definitions

- `fatReadEntry`, `fatWriteEntry`, `fatFindFreeCluster` — the allocation table
- `DirCursor`, `walkDirectory`, `findOrAllocSlot` — directories
- `freeClusterChain`, `extendClusterChain` — cluster chains
- `fat16Stat`, `fat16Create`, `fat16Delete`, `fat16ReadFile`, `fat16WriteFile`
-/

namespace AuroraOS.Fat16

/-- `fat_read_entry`: a failed read reports a bad cluster. -/
def fatReadEntry (cluster : ℕ) (v : Volume) : ℕ × Volume :=
  let fatOffset := cluster * 2
  match readSector (v.fatStartLba + fatOffset / 512) v with
  | (none, v) => (badCluster, v)
  | (some buf, v) =>
    ((buf.byte (fatOffset % 512)).toNat + 256 * (buf.byte (fatOffset % 512 + 1)).toNat, v)

/-- The loop of `fat_write_entry` over the FAT copies still to be written. -/
def fatWriteCopies (cluster value : ℕ) : List ℕ → Volume → Bool × Volume
  | [], v => (true, v)
  | fatIndex :: rest, v =>
    let fatOffset := cluster * 2
    let sector := v.fatStartLba + fatIndex * v.bpb.sectorsPerFat + fatOffset / 512
    match readSector sector v with
    | (none, v) => (false, v)
    | (some buf, v) =>
      let buf := buf.setByte (fatOffset % 512) (UInt8.ofNat (value % 256))
      let buf := buf.setByte (fatOffset % 512 + 1) (UInt8.ofNat (value / 256 % 256))
      match writeSector sector buf v with
      | (false, v) => (false, v)
      | (true, v) => fatWriteCopies cluster value rest v

/-- `fat_write_entry`: the same entry in every FAT copy. -/
def fatWriteEntry (cluster value : ℕ) (v : Volume) : Bool × Volume :=
  fatWriteCopies cluster value (List.range v.bpb.numFats) v

/-- One of the two scans of `fat_find_free_cluster`: the first free cluster among `n`
    clusters from `c` on. A hit moves the hint past it. -/
def scanFree : ℕ → ℕ → Volume → Option ℕ × Volume
  | 0, _, v => (none, v)
  | n + 1, c, v =>
    match fatReadEntry c v with
    | (entry, v) =>
      if entry = freeCluster then (some c, { v with nextFreeClusterHint := (c + 1) % 65536 })
      else scanFree n (c + 1) v

/-- `fat_find_free_cluster`: from the hint to the end, then from 2 to the hint; 0 when
    nothing is free. -/
def fatFindFreeCluster (v : Volume) : ℕ × Volume :=
  let last := (v.totalClusters + 2) % 65536
  match scanFree (last - v.nextFreeClusterHint) v.nextFreeClusterHint v with
  | (some c, v) => (c, v)
  | (none, v) =>
    match scanFree (min v.nextFreeClusterHint last - 2) 2 v with
    | (some c, v) => (c, v)
    | (none, v) => (0, v)

/-- `struct dir_cursor`. -/
structure DirCursor where
  isRoot : Bool
  sectorIndex : ℕ
  cluster : ℕ
  sectorInCluster : ℕ

/-- `dir_cursor_init_root` or `dir_cursor_init_cluster`, whichever the directory asks for. -/
def dirCursorInit (dirCluster : ℕ) : DirCursor :=
  if dirCluster = 0 then ⟨true, 0, 0, 0⟩ else ⟨false, 0, dirCluster, 0⟩

/-- `dir_cursor_next_sector`: the sector under the cursor with its number, and the advanced
    cursor; `none` at the end of the directory and when the sector cannot be read. -/
def dirCursorNextSector (cur : DirCursor) (v : Volume) :
    Option (Sector × ℕ) × DirCursor × Volume :=
  if cur.isRoot then
    if v.rootDirSectors ≤ cur.sectorIndex then (none, cur, v)
    else
      let lba := v.rootDirStartLba + cur.sectorIndex
      match readSector lba v with
      | (buf, v) => (buf.map (·, lba), { cur with sectorIndex := cur.sectorIndex + 1 }, v)
  else if cur.cluster < 2 ∨ eocMin ≤ cur.cluster then (none, cur, v)
  else
    let lba := clusterToLba v cur.cluster + cur.sectorInCluster
    match readSector lba v with
    | (buf, v) =>
      if v.bpb.sectorsPerCluster ≤ cur.sectorInCluster + 1 then
        match fatReadEntry cur.cluster v with
        | (next, v) => (buf.map (·, lba), { cur with cluster := next, sectorInCluster := 0 }, v)
      else
        (buf.map (·, lba), { cur with sectorInCluster := cur.sectorInCluster + 1 }, v)

/-- `struct dirent_slot`: a directory entry's place on the disk. -/
structure Slot where
  sectorLba : ℕ
  indexInSector : ℕ
deriving DecidableEq

/-- The sixteen slots of a sector. -/
def sectorSlots (lba : ℕ) : List Slot := (List.range 16).map (Slot.mk lba)

/-- The public `struct fat16_entry`. -/
structure Fat16Entry where
  name : List UInt8
  isDir : Bool
  size : ℕ
  firstCluster : ℕ
deriving DecidableEq

/-- What `walk_directory` hands to its callback for an entry. -/
def Dirent.toEntry (e : Dirent) : Fat16Entry where
  name := nameFrom83 e.name
  isDir := e.isDir
  size := e.fileSize.toNat
  firstCluster := e.firstCluster

section walk

variable {σ : Type} (cb : Fat16Entry → σ → Bool × σ)

/-- The inner loop of `walk_directory` over the slots of one sector. The flag says whether
    the walk goes on after them. -/
def walkSlots (read : Slot → Dirent) : List Slot → σ → Bool × σ
  | [], acc => (true, acc)
  | p :: rest, acc =>
    let e := read p
    if e.isEnd then (false, acc)
    else if e.isDeleted then walkSlots read rest acc
    else if e.isLongName then walkSlots read rest acc
    else if e.isVolumeId then walkSlots read rest acc
    else
      match cb e.toEntry acc with
      | (false, acc) => (false, acc)
      | (true, acc) => walkSlots read rest acc

/-- The outer loop of `walk_directory` over the cursor's sectors. -/
def walkLoop : ℕ → DirCursor → σ → Volume → Option (σ × Volume)
  | 0, _, _, _ => none
  | fuel + 1, cur, acc, v =>
    match dirCursorNextSector cur v with
    | (none, _, v) => some (acc, v)
    | (some (buf, lba), cur, v) =>
      match walkSlots cb (fun p => Dirent.read buf p.indexInSector) (sectorSlots lba) acc with
      | (false, acc) => some (acc, v)
      | (true, acc) => walkLoop fuel cur acc v

/-- `walk_directory`: run the callback over the entries in use until it returns `false`. -/
def walkDirectory (fuel dirCluster : ℕ) (acc : σ) (v : Volume) : Option (σ × Volume) :=
  walkLoop cb fuel (dirCursorInit dirCluster) acc v

end walk

/-- `fat16_list`: the list of the entries the user's callback is called with. -/
def fat16List (fuel dirCluster : ℕ) (v : Volume) : Option (List Fat16Entry × Volume) :=
  if v.mounted then walkDirectory (fun e acc => (true, acc ++ [e])) fuel dirCluster [] v
  else some ([], v)

/-- `find_trampoline`: keep the first entry whose name converts to the target. -/
def findTrampoline (target11 : Vector UInt8 11) (entry : Fat16Entry) (found : Option Fat16Entry) :
    Bool × Option Fat16Entry :=
  match nameTo83 entry.name with
  | none => (true, found)
  | some entry11 => if entry11 = target11 then (false, some entry) else (true, found)

/-- `find_in_dir`. -/
def findInDir (fuel dirCluster : ℕ) (name : List UInt8) (v : Volume) :
    Option (Option Fat16Entry × Volume) :=
  match nameTo83 name with
  | none => some (none, v)
  | some target11 => walkDirectory (findTrampoline target11) fuel dirCluster none v

/-- `fat16_stat`. -/
def fat16Stat (fuel dirCluster : ℕ) (name : List UInt8) (v : Volume) :
    Option (Option Fat16Entry × Volume) :=
  if v.mounted then findInDir fuel dirCluster name v else some (none, v)

/-- `free_cluster_chain`. -/
def freeClusterChain : ℕ → ℕ → Volume → Option Volume
  | 0, _, _ => none
  | fuel + 1, cluster, v =>
    if 2 ≤ cluster ∧ cluster < eocMin then
      match fatReadEntry cluster v with
      | (next, v) =>
        match fatWriteEntry cluster freeCluster v with
        | (_, v) => freeClusterChain fuel next v
    else some v

/-- The zeroing loop of `extend_cluster_chain`: `n` sectors from `lba` on. -/
def zeroSectors : ℕ → ℕ → Volume → Bool × Volume
  | 0, _, v => (true, v)
  | n + 1, lba, v =>
    match writeSector lba Sector.zero v with
    | (false, v) => (false, v)
    | (true, v) => zeroSectors n (lba + 1) v

/-- The part of `extend_cluster_chain` that links the new cluster behind `lastCluster`. -/
def linkCluster (lastCluster newCluster : ℕ) (v : Volume) : Bool × Volume :=
  if 2 ≤ lastCluster then fatWriteEntry lastCluster newCluster v else (true, v)

/-- `extend_cluster_chain`: one more zeroed cluster behind `lastCluster`, or a fresh chain
    when that is 0; returns 0 when the disk is full or a transfer fails. -/
def extendClusterChain (lastCluster : ℕ) (v : Volume) : ℕ × Volume :=
  match fatFindFreeCluster v with
  | (newCluster, v) =>
    if newCluster = 0 then (0, v)
    else
      match fatWriteEntry newCluster eocMin v with
      | (false, v) => (0, v)
      | (true, v) =>
        match linkCluster lastCluster newCluster v with
        | (false, v) => (0, v)
        | (true, v) =>
          match zeroSectors v.bpb.sectorsPerCluster (clusterToLba v newCluster) v with
          | (false, v) => (0, v)
          | (true, v) => (newCluster, v)

/-- How far a scan for a name has come. -/
inductive SlotScan where
  /-- the entry with the wanted name -/
  | found (slot : Slot) (e : Dirent)
  /-- the end marker was reached; the slot to use -/
  | free (slot : Slot)
  /-- no decision yet; the first deleted slot seen -/
  | more (freeSlot : Option Slot)

/-- The inner loop of `find_or_alloc_slot` over the slots of one sector. -/
def scanSlots (read : Slot → Dirent) (target11 : Vector UInt8 11) :
    List Slot → Option Slot → SlotScan
  | [], freeSlot => .more freeSlot
  | p :: rest, freeSlot =>
    let e := read p
    if e.isEnd then .free (freeSlot.getD p)
    else if e.isDeleted then scanSlots read target11 rest (some (freeSlot.getD p))
    else if e.isLongName then scanSlots read target11 rest freeSlot
    else if e.name = target11 then .found p e
    else scanSlots read target11 rest freeSlot

/-- The outer loop of `find_or_alloc_slot`. Besides the scan's outcome it returns
    `cluster_of_current_sector`. -/
def slotLoop (target11 : Vector UInt8 11) :
    ℕ → DirCursor → Option Slot → ℕ → Volume → Option (SlotScan × ℕ × Volume)
  | 0, _, _, _, _ => none
  | fuel + 1, cur, freeSlot, clusterOfCurrentSector, v =>
    let clusterBeforeRead := if cur.isRoot then 0 else cur.cluster
    match dirCursorNextSector cur v with
    | (none, _, v) => some (.more freeSlot, clusterOfCurrentSector, v)
    | (some (buf, lba), cur, v) =>
      let clusterOfCurrentSector :=
        if cur.isRoot then clusterOfCurrentSector else clusterBeforeRead
      match scanSlots (fun p => Dirent.read buf p.indexInSector) target11 (sectorSlots lba)
          freeSlot with
      | .more freeSlot => slotLoop target11 fuel cur freeSlot clusterOfCurrentSector v
      | result => some (result, clusterOfCurrentSector, v)

/-- `find_or_alloc_slot`: the slot of `name` with its entry, or a slot for a new entry
    (`none` in the second component); `none` in the first when there is no slot to give. A
    directory without an end marker is extended even when a deleted slot was seen. -/
def findOrAllocSlot (fuel dirCluster : ℕ) (name : List UInt8) (v : Volume) :
    Option (Option (Slot × Option Dirent) × Volume) :=
  match nameTo83 name with
  | none => some (none, v)
  | some target11 =>
    match slotLoop target11 fuel (dirCursorInit dirCluster) none dirCluster v with
    | none => none
    | some (.found slot e, _, v) => some (some (slot, some e), v)
    | some (.free slot, _, v) => some (some (slot, none), v)
    | some (.more _, lastCluster, v) =>
      if dirCluster = 0 then some (none, v)
      else
        match extendClusterChain lastCluster v with
        | (newCluster, v) =>
          if newCluster = 0 then some (none, v)
          else some (some (⟨clusterToLba v newCluster, 0⟩, none), v)

/-- `write_dirent_slot`. -/
def writeDirentSlot (slot : Slot) (entry : Dirent) (v : Volume) : Bool × Volume :=
  match readSector slot.sectorLba v with
  | (none, v) => (false, v)
  | (some buf, v) =>
    writeSector slot.sectorLba (buf.copyIn (slot.indexInSector * 32) entry.toBytes) v

/-- `fat16_create`. A name that exists already counts as success. -/
def fat16Create (fuel dirCluster : ℕ) (name : List UInt8) (asDirectory : Bool) (v : Volume) :
    Option (Bool × Volume) :=
  if ¬ v.mounted then some (false, v)
  else
    match findOrAllocSlot fuel dirCluster name v with
    | none => none
    | some (none, v) => some (false, v)
    | some (some (_, some _), v) => some (true, v)
    | some (some (slot, none), v) =>
      match nameTo83 name with
      | none => some (false, v)
      | some name11 =>
        if asDirectory then
          match extendClusterChain 0 v with
          | (newCluster, v) =>
            if newCluster = 0 then some (false, v)
            else some (writeDirentSlot slot
              { Dirent.fresh name11 attrDirectory with
                firstClusterLo := UInt16.ofNat newCluster } v)
        else some (writeDirentSlot slot (Dirent.fresh name11 attrArchive) v)

/-- `if (first_cluster != 0) free_cluster_chain(first_cluster)`. -/
def freeIfAny (fuel firstCluster : ℕ) (v : Volume) : Option Volume :=
  if firstCluster ≠ 0 then freeClusterChain fuel firstCluster v else some v

/-- `fat16_delete`. -/
def fat16Delete (fuel dirCluster : ℕ) (name : List UInt8) (v : Volume) :
    Option (Bool × Volume) :=
  if ¬ v.mounted then some (false, v)
  else
    match findOrAllocSlot fuel dirCluster name v with
    | none => none
    | some (none, v) => some (false, v)
    | some (some (_, none), v) => some (false, v)
    | some (some (slot, some existing), v) =>
      match freeIfAny fuel existing.firstCluster v with
      | none => none
      | some v =>
        match readSector slot.sectorLba v with
        | (none, v) => some (false, v)
        | (some buf, v) =>
          some (writeSector slot.sectorLba (buf.setByte (slot.indexInSector * 32) 0xE5) v)

/-- The sector loop of `fat16_read_file` inside one cluster: from sector `n` places before the
    cluster's end, skipping `byteInSector` bytes of the first, at most `toRead` bytes. The flag
    says whether every transfer succeeded. -/
def readSectors : ℕ → ℕ → ℕ → ℕ → Volume → Bool × List UInt8 × Volume
  | 0, _, _, _, v => (true, [], v)
  | n + 1, lba, byteInSector, toRead, v =>
    if toRead = 0 then (true, [], v)
    else
      match readSector lba v with
      | (none, v) => (false, [], v)
      | (some buf, v) =>
        let chunk := buf.slice byteInSector (min (512 - byteInSector) toRead)
        match readSectors n (lba + 1) 0 (toRead - min (512 - byteInSector) toRead) v with
        | (ok, rest, v) => (ok, chunk ++ rest, v)

/-- The cluster loop of `fat16_read_file`. It reads at least one byte per round, so
    `fuel = toRead` rounds are always enough. -/
def readClusters : ℕ → ℕ → ℕ → ℕ → Volume → List UInt8 × Volume
  | 0, _, _, _, v => ([], v)
  | fuel + 1, cluster, offsetInCluster, toRead, v =>
    if 0 < toRead ∧ 2 ≤ cluster ∧ cluster < eocMin then
      match readSectors (v.bpb.sectorsPerCluster - offsetInCluster / 512)
          (clusterToLba v cluster + offsetInCluster / 512) (offsetInCluster % 512) toRead v with
      | (false, bytes, v) => (bytes, v)
      | (true, bytes, v) =>
        match fatReadEntry cluster v with
        | (next, v) =>
          match readClusters fuel next 0 (toRead - bytes.length) v with
          | (rest, v) => (bytes ++ rest, v)
    else ([], v)

/-- The first loop of `fat16_read_file`: follow `n` links; `none` if the chain ends before. -/
def skipClusters : ℕ → ℕ → Volume → Option ℕ × Volume
  | 0, cluster, v => (some cluster, v)
  | n + 1, cluster, v =>
    match fatReadEntry cluster v with
    | (next, v) =>
      if next < 2 ∨ eocMin ≤ next then (none, v) else skipClusters n next v

/-- `fat16_read_file`: the bytes copied to `out`. -/
def fat16ReadFile (firstCluster fileSize offset maxLen : ℕ) (v : Volume) : List UInt8 × Volume :=
  if ¬ v.mounted ∨ firstCluster < 2 then ([], v)
  else if fileSize ≤ offset then ([], v)
  else
    let toRead := min (fileSize - offset) maxLen
    match skipClusters (offset / v.clusterSize) firstCluster v with
    | (none, v) => ([], v)
    | (some cluster, v) => readClusters toRead cluster (offset % v.clusterSize) toRead v

/-- The sector loop of `fat16_write_file` inside one cluster: `bytes` is what the cluster is to
    hold, cut into zero-padded sectors. -/
def writeSectors : ℕ → ℕ → List UInt8 → Volume → Bool × Volume
  | 0, _, _, v => (true, v)
  | n + 1, lba, bytes, v =>
    if bytes = [] then (true, v)
    else
      match writeSector lba (Sector.ofBytes (bytes.take 512)) v with
      | (false, v) => (false, v)
      | (true, v) => writeSectors n (lba + 1) (bytes.drop 512) v

/-- How the cluster loop of `fat16_write_file` ends. -/
inductive WriteOutcome where
  /-- all data written; the first cluster -/
  | done (firstCluster : ℕ)
  /-- `return false` -/
  | failed
deriving DecidableEq

/-- The cluster loop of `fat16_write_file`, `n` rounds to go: `data` is what has not been
    written yet. When no cluster is free the new chain is freed again. -/
def writeClusters (fuel : ℕ) :
    ℕ → ℕ → ℕ → List UInt8 → Volume → Option (WriteOutcome × Volume)
  | 0, firstCluster, _, _, v => some (.done firstCluster, v)
  | n + 1, firstCluster, lastCluster, data, v =>
    match extendClusterChain lastCluster v with
    | (newCluster, v) =>
      if newCluster = 0 then (freeIfAny fuel firstCluster v).map (.failed, ·)
      else
        match writeSectors v.bpb.sectorsPerCluster (clusterToLba v newCluster)
            (data.take v.clusterSize) v with
        | (false, v) => some (.failed, v)
        | (true, v) =>
          writeClusters fuel n (if firstCluster = 0 then newCluster else firstCluster) newCluster
            (data.drop v.clusterSize) v

/-- `clusters_needed`, with the 32-bit sum of the source. -/
def clustersNeeded (clusterSize len : ℕ) : ℕ :=
  if len = 0 then 0 else (len + clusterSize - 1) % 2 ^ 32 / clusterSize

/-- `fat16_write_file`: the old chain is freed first, then a new one is filled, and the entry
    is rewritten last. -/
def fat16WriteFile (fuel dirCluster : ℕ) (name : List UInt8) (data : List UInt8) (v : Volume) :
    Option (Bool × Volume) :=
  if ¬ v.mounted then some (false, v)
  else
    match findOrAllocSlot fuel dirCluster name v with
    | none => none
    | some (none, v) => some (false, v)
    | some (some (slot, existing), v) =>
      match existing.or ((nameTo83 name).map (Dirent.fresh · attrArchive)) with
      | none => some (false, v)
      | some entry =>
        match freeIfAny fuel entry.firstCluster v with
        | none => none
        | some v =>
          match writeClusters fuel (clustersNeeded v.clusterSize data.length) 0 0 data v with
          | none => none
          | some (.failed, v) => some (false, v)
          | some (.done firstCluster, v) =>
            some (writeDirentSlot slot
              { entry with
                firstClusterLo := UInt16.ofNat firstCluster
                fileSize := UInt32.ofNat data.length } v)

end AuroraOS.Fat16
