import Mathlib

/-!
# The FAT16 disk: sectors, directory entries and the mounted volume

The data model of `kernel/fat16.c`. A disk is a map from sector numbers to 512-byte
sectors; the driver's `static` variables and the disk together form a `Volume`. Sector
input and output may fail, so a volume also carries the stream of faults the controller
will report: `Volume.faults 0` decides the next transfer, and each transfer drops one
element. A controller that never fails is the constant stream `false`, which transfers
leave unchanged.

## Main definitions

- `Sector`, `Dirent` — the two on-disk records, with `Dirent.read` and `Dirent.toBytes`
- `Volume` — the driver's state and the disk below it
- `readSector`, `writeSector` — one transfer each
- `nameTo83`, `nameFrom83` — conversion to and from the padded 11-byte name
-/

namespace AuroraOS.Fat16

/-- One 512-byte sector. -/
abbrev Sector := Fin 512 → UInt8

namespace Sector

/-- The byte at offset `n`. Every offset the driver computes is below 512. -/
def byte (s : Sector) (n : ℕ) : UInt8 := s (Fin.ofNat 512 n)

/-- `buf[n] = b`. -/
def setByte (s : Sector) (n : ℕ) (b : UInt8) : Sector :=
  fun i => if i.val = n then b else s i

/-- `memcpy(&buf[off], bytes, ...)`. -/
def copyIn (s : Sector) (off : ℕ) (bytes : List UInt8) : Sector :=
  fun i => if off ≤ i.val ∧ i.val < off + bytes.length then bytes.getD (i.val - off) 0 else s i

/-- `memset(buf, 0, SECTOR_SIZE)`. -/
def zero : Sector := fun _ => 0

/-- A zeroed sector whose front holds `bytes`. -/
def ofBytes (bytes : List UInt8) : Sector := fun i => bytes.getD i.val 0

/-- The sector's bytes from offset `off` on, at most `len` of them. -/
def slice (s : Sector) (off len : ℕ) : List UInt8 := ((List.ofFn s).drop off).take len

end Sector

/-- `FAT16_EOC_MIN`: links from here on end a chain. -/
def eocMin : ℕ := 0xFFF8

/-- `FAT16_BAD_CLUSTER`, which is also what a failed FAT read reports. -/
def badCluster : ℕ := 0xFFF7

/-- `FAT16_FREE_CLUSTER`. -/
def freeCluster : ℕ := 0

/-- `ATTR_VOLUME_ID`. -/
def attrVolumeId : UInt8 := 0x08

/-- `ATTR_DIRECTORY`. -/
def attrDirectory : UInt8 := 0x10

/-- `ATTR_ARCHIVE`. -/
def attrArchive : UInt8 := 0x20

/-- `ATTR_LONG_NAME`: read-only, hidden, system and volume id together. -/
def attrLongName : UInt8 := 0x0F

/-- Two bytes, least significant first. -/
def le16 (lo hi : UInt8) : UInt16 := UInt16.ofNat (lo.toNat + 256 * hi.toNat)

/-- Four bytes, least significant first. -/
def le32 (a b c d : UInt8) : UInt32 :=
  UInt32.ofNat (a.toNat + 256 * b.toNat + 65536 * c.toNat + 16777216 * d.toNat)

/-- The bytes of a 16-bit word, least significant first. -/
def bytes16 (w : UInt16) : List UInt8 := [UInt8.ofNat w.toNat, UInt8.ofNat (w.toNat / 256)]

/-- The bytes of a 32-bit word, least significant first. -/
def bytes32 (w : UInt32) : List UInt8 :=
  [UInt8.ofNat w.toNat, UInt8.ofNat (w.toNat / 256), UInt8.ofNat (w.toNat / 65536),
    UInt8.ofNat (w.toNat / 16777216)]

/-- The 32-byte `struct fat16_dirent`. -/
structure Dirent where
  name : Vector UInt8 11
  attr : UInt8
  reserved : UInt8
  createTimeTenths : UInt8
  createTime : UInt16
  createDate : UInt16
  accessDate : UInt16
  firstClusterHi : UInt16
  writeTime : UInt16
  writeDate : UInt16
  firstClusterLo : UInt16
  fileSize : UInt32
deriving DecidableEq

theorem zero_lt_eleven : 0 < 11 := by decide

namespace Dirent

/-- Entry number `i` of a sector that holds sixteen of them. -/
def read (s : Sector) (i : ℕ) : Dirent where
  name := Vector.ofFn fun k => s.byte (32 * i + k.val)
  attr := s.byte (32 * i + 11)
  reserved := s.byte (32 * i + 12)
  createTimeTenths := s.byte (32 * i + 13)
  createTime := le16 (s.byte (32 * i + 14)) (s.byte (32 * i + 15))
  createDate := le16 (s.byte (32 * i + 16)) (s.byte (32 * i + 17))
  accessDate := le16 (s.byte (32 * i + 18)) (s.byte (32 * i + 19))
  firstClusterHi := le16 (s.byte (32 * i + 20)) (s.byte (32 * i + 21))
  writeTime := le16 (s.byte (32 * i + 22)) (s.byte (32 * i + 23))
  writeDate := le16 (s.byte (32 * i + 24)) (s.byte (32 * i + 25))
  firstClusterLo := le16 (s.byte (32 * i + 26)) (s.byte (32 * i + 27))
  fileSize := le32 (s.byte (32 * i + 28)) (s.byte (32 * i + 29)) (s.byte (32 * i + 30))
    (s.byte (32 * i + 31))

/-- The packed bytes of an entry. -/
def toBytes (e : Dirent) : List UInt8 :=
  e.name.toList ++ [e.attr, e.reserved, e.createTimeTenths] ++ bytes16 e.createTime ++
    bytes16 e.createDate ++ bytes16 e.accessDate ++ bytes16 e.firstClusterHi ++
    bytes16 e.writeTime ++ bytes16 e.writeDate ++ bytes16 e.firstClusterLo ++ bytes32 e.fileSize

/-- `memset(&entry, 0, sizeof(entry))` followed by copying in the name and setting the
    attribute. -/
def fresh (name : Vector UInt8 11) (attr : UInt8) : Dirent where
  name := name
  attr := attr
  reserved := 0
  createTimeTenths := 0
  createTime := 0
  createDate := 0
  accessDate := 0
  firstClusterHi := 0
  writeTime := 0
  writeDate := 0
  firstClusterLo := 0
  fileSize := 0

/-- First byte `0x00`: this slot and all later ones were never used. -/
def isEnd (e : Dirent) : Bool := getElem e.name 0 zero_lt_eleven == 0x00

/-- First byte `0xE5`: a deleted entry. -/
def isDeleted (e : Dirent) : Bool := getElem e.name 0 zero_lt_eleven == 0xE5

/-- All four long-name attribute bits set. -/
def isLongName (e : Dirent) : Bool := e.attr &&& attrLongName == attrLongName

/-- A volume label. -/
def isVolumeId (e : Dirent) : Bool := e.attr &&& attrVolumeId != 0

/-- A subdirectory. -/
def isDir (e : Dirent) : Bool := e.attr &&& attrDirectory != 0

/-- The first cluster as the number the driver computes with. -/
def firstCluster (e : Dirent) : ℕ := e.firstClusterLo.toNat

end Dirent

/-- The fields of the boot sector's parameter block that the driver keeps using after
    mounting. -/
structure Bpb where
  sectorsPerCluster : ℕ
  numFats : ℕ
  sectorsPerFat : ℕ
deriving DecidableEq

/-- The driver's static variables, the disk, and the faults its controller will report. -/
structure Volume where
  bpb : Bpb
  mounted : Bool
  fatStartLba : ℕ
  rootDirStartLba : ℕ
  rootDirSectors : ℕ
  dataStartLba : ℕ
  totalClusters : ℕ
  nextFreeClusterHint : ℕ
  disk : ℕ → Sector
  faults : ℕ → Bool

/-- The controller never reports a fault. -/
def Volume.Reliable (v : Volume) : Prop := v.faults = fun _ => false

/-- `cluster_size` in bytes. -/
def Volume.clusterSize (v : Volume) : ℕ := v.bpb.sectorsPerCluster * 512

/-- `read_sector`: one transfer from the disk, `none` if the controller reports a fault. -/
def readSector (lba : ℕ) (v : Volume) : Option Sector × Volume :=
  (if v.faults 0 then none else some (v.disk lba), { v with faults := fun n => v.faults (n + 1) })

/-- `write_sector`: one transfer to the disk; a faulty one leaves the sector as it was. -/
def writeSector (lba : ℕ) (buf : Sector) (v : Volume) : Bool × Volume :=
  let v' := { v with faults := fun n => v.faults (n + 1) }
  if v.faults 0 then (false, v') else (true, { v' with disk := Function.update v.disk lba buf })

/-- `cluster_to_lba`. Callers only pass clusters from 2 on, and with 16-bit clusters and
    8-bit cluster sizes the 32-bit sum cannot overflow. -/
def clusterToLba (v : Volume) (cluster : ℕ) : ℕ :=
  v.dataStartLba + (cluster - 2) * v.bpb.sectorsPerCluster

/-- Upper-case an ASCII letter. -/
def upcase (c : UInt8) : UInt8 := if 97 ≤ c ∧ c ≤ 122 then c - 32 else c

/-- Pad with blanks (or cut) to exactly `n` bytes. -/
def padTo (n : ℕ) (l : List UInt8) : Vector UInt8 n := Vector.ofFn fun i => l.getD i.val 32

/-- The 11-byte form of a base and an extension, both upper-cased and blank-padded. -/
def name83 (base ext : List UInt8) : Vector UInt8 11 :=
  padTo 8 (base.map upcase) ++ padTo 3 (ext.map upcase)

/-- A string is what stands in its buffer before the terminating zero, or the whole buffer where
    the zero follows it. -/
def cString (buf : List UInt8) : List UInt8 := buf.takeWhile (· ≠ 0)

/-- `name_to_83`: up to eight characters before the first dot, up to three after it, any of
    which may again be a dot. -/
def nameTo83 (name : List UInt8) : Option (Vector UInt8 11) :=
  let name := cString name
  let base := (name.takeWhile (· ≠ 46)).take 8
  match name.drop base.length with
  | [] => some (name83 base [])
  | c :: ext =>
    if c ≠ 46 then none            -- base name too long
    else if 3 < ext.length then none  -- extension too long
    else some (name83 base ext)

/-- `name_from_83`. -/
def nameFrom83 (n : Vector UInt8 11) : List UInt8 :=
  let base := (n.toList.take 8).takeWhile (· ≠ 32)
  let ext := (n.toList.drop 8).takeWhile (· ≠ 32)
  if n[8] ≠ 32 then base ++ 46 :: ext else base

end AuroraOS.Fat16
