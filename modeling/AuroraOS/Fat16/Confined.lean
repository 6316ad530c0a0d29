import AuroraOS.Fat16.Runs

/-!
# Where the links lead

`free_cluster_chain`, `fat16_read_file` and the directory cursor follow links with one test: a
number from 2 up to the end marks is a cluster. What they access on the way, for any FAT and any
failures of the disk: numbers behind the last cluster pass the test, and so does 0xFFF7, the answer
of a failed read.

## Main definitions

- `ClusterAccess`, `followed` — an access to a cluster, and the links a walk went on from
- `ChainWalk`, `ChainWalk.run` — the walks, and what they hand back
- `ChainWalk.logged`, `ChainWalk.log` — the same with what they access
- `Confined`

## Main results

- `ChainWalk.logged_fst` — the logs are those of the functions
- `confined_iff`
-/

namespace AuroraOS.Fat16

/-- An access to a cluster. -/
inductive ClusterAccess where
  /-- sectors of the cluster are read -/
  | data (cluster : ℕ)
  /-- the entry of the cluster in the FAT is read, in this state, and perhaps freed -/
  | link (cluster : ℕ) (v : Volume)

def ClusterAccess.cluster : ClusterAccess → ℕ
  | .data c => c
  | .link c _ => c

/-- The links that are followed: something is accessed after them. -/
def followed : List ClusterAccess → List (ℕ × Volume)
  | .link c v :: a :: rest => (c, v) :: followed (a :: rest)
  | .data _ :: rest => followed rest
  | _ => []

/-- `free_cluster_chain` with its accesses. -/
def freeClusterChainLog : ℕ → ℕ → Volume → Option Volume × List ClusterAccess
  | 0, _, _ => (none, [])
  | fuel + 1, cluster, v =>
    if 2 ≤ cluster ∧ cluster < eocMin then
      match fatReadEntry cluster v with
      | (next, v₁) =>
        match fatWriteEntry cluster freeCluster v₁ with
        | (_, v₂) =>
          match freeClusterChainLog fuel next v₂ with
          | (r, log) => (r, .link cluster v :: log)
    else (some v, [])

/-- The first loop of `fat16_read_file` with its accesses. -/
def skipClustersLog : ℕ → ℕ → Volume → (Option ℕ × Volume) × List ClusterAccess
  | 0, cluster, v => ((some cluster, v), [])
  | n + 1, cluster, v =>
    match fatReadEntry cluster v with
    | (next, v₁) =>
      if next < 2 ∨ eocMin ≤ next then ((none, v₁), [.link cluster v])
      else
        match skipClustersLog n next v₁ with
        | (r, log) => (r, .link cluster v :: log)

/-- The cluster loop of `fat16_read_file` with its accesses. -/
def readClustersLog : ℕ → ℕ → ℕ → ℕ → Volume → (List UInt8 × Volume) × List ClusterAccess
  | 0, _, _, _, v => (([], v), [])
  | fuel + 1, cluster, offsetInCluster, toRead, v =>
    if 0 < toRead ∧ 2 ≤ cluster ∧ cluster < eocMin then
      match readSectors (v.bpb.sectorsPerCluster - offsetInCluster / 512)
          (clusterToLba v cluster + offsetInCluster / 512) (offsetInCluster % 512) toRead v with
      | (false, bytes, v₁) => ((bytes, v₁), [.data cluster])
      | (true, bytes, v₁) =>
        match fatReadEntry cluster v₁ with
        | (next, v₂) =>
          match readClustersLog fuel next 0 (toRead - bytes.length) v₂ with
          | ((rest, v₃), log) =>
            ((bytes ++ rest, v₃), .data cluster :: .link cluster v₁ :: log)
    else (([], v), [])

/-- `fat16_read_file` with its accesses. -/
def fat16ReadFileLog (firstCluster fileSize offset maxLen : ℕ) (v : Volume) :
    (List UInt8 × Volume) × List ClusterAccess :=
  if ¬ v.mounted ∨ firstCluster < 2 then (([], v), [])
  else if fileSize ≤ offset then (([], v), [])
  else
    let toRead := min (fileSize - offset) maxLen
    match skipClustersLog (offset / v.clusterSize) firstCluster v with
    | ((none, v₁), log) => (([], v₁), log)
    | ((some cluster, v₁), log) =>
      match readClustersLog toRead cluster (offset % v₁.clusterSize) toRead v₁ with
      | (r, log') => (r, log ++ log')

/-- `dir_cursor_next_sector` with its accesses to clusters. -/
def dirCursorNextSectorLog (cur : DirCursor) (v : Volume) :
    (Option (Sector × ℕ) × DirCursor × Volume) × List ClusterAccess :=
  if cur.isRoot then (dirCursorNextSector cur v, [])
  else if cur.cluster < 2 ∨ eocMin ≤ cur.cluster then ((none, cur, v), [])
  else
    let lba := clusterToLba v cur.cluster + cur.sectorInCluster
    match readSector lba v with
    | (buf, v₁) =>
      if v.bpb.sectorsPerCluster ≤ cur.sectorInCluster + 1 then
        match fatReadEntry cur.cluster v₁ with
        | (next, v₂) => ((buf.map (·, lba), { cur with cluster := next, sectorInCluster := 0 }, v₂),
            [.data cur.cluster, .link cur.cluster v₁])
      else
        ((buf.map (·, lba), { cur with sectorInCluster := cur.sectorInCluster + 1 }, v₁),
          [.data cur.cluster])

/-- The sectors of a cursor that is moved on until there is none, at most so many times. -/
def dirCursorSectors : ℕ → DirCursor → Volume → List (Sector × ℕ) × Volume
  | 0, _, v => ([], v)
  | n + 1, cur, v =>
    match dirCursorNextSector cur v with
    | (none, _, v) => ([], v)
    | (some sector, cur, v) =>
      match dirCursorSectors n cur v with
      | (sectors, v) => (sector :: sectors, v)

/-- The same with its accesses. -/
def dirCursorSectorsLog : ℕ → DirCursor → Volume →
    (List (Sector × ℕ) × Volume) × List ClusterAccess
  | 0, _, v => (([], v), [])
  | n + 1, cur, v =>
    match dirCursorNextSectorLog cur v with
    | ((none, _, v), log) => (([], v), log)
    | ((some sector, cur, v), log) =>
      match dirCursorSectorsLog n cur v with
      | ((sectors, v), log') => ((sector :: sectors, v), log ++ log')

section erase

theorem freeClusterChainLog_fst (fuel cluster : ℕ) (v : Volume) :
    (freeClusterChainLog fuel cluster v).1 = freeClusterChain fuel cluster v := by
  induction fuel generalizing cluster v with
  | zero => rfl
  | succ fuel ih =>
    rw [freeClusterChainLog, freeClusterChain]
    split
    · exact ih _ _
    · rfl

theorem skipClustersLog_fst (n cluster : ℕ) (v : Volume) :
    (skipClustersLog n cluster v).1 = skipClusters n cluster v := by
  induction n generalizing cluster v with
  | zero => rfl
  | succ n ih =>
    rw [skipClustersLog, skipClusters]
    cases fatReadEntry cluster v with
    | mk next v₁ =>
      dsimp only
      split
      · rfl
      · exact ih next v₁

theorem readClustersLog_fst (fuel cluster offsetInCluster toRead : ℕ) (v : Volume) :
    (readClustersLog fuel cluster offsetInCluster toRead v).1 =
      readClusters fuel cluster offsetInCluster toRead v := by
  induction fuel generalizing cluster offsetInCluster toRead v with
  | zero => rfl
  | succ fuel ih =>
    rw [readClustersLog, readClusters]
    split
    · generalize readSectors _ _ _ _ v = r
      obtain ⟨ok, bytes, v₁⟩ := r
      cases ok with
      | false => rfl
      | true =>
        cases fatReadEntry cluster v₁ with
        | mk next v₂ =>
          simp only [← ih]
    · rfl

theorem fat16ReadFileLog_fst (firstCluster fileSize offset maxLen : ℕ) (v : Volume) :
    (fat16ReadFileLog firstCluster fileSize offset maxLen v).1 =
      fat16ReadFile firstCluster fileSize offset maxLen v := by
  rw [fat16ReadFileLog, fat16ReadFile]
  split
  · rfl
  · split
    · rfl
    · simp only [← skipClustersLog_fst, ← readClustersLog_fst]
      split
      · next h => simp only [h]
      · next h => simp only [h]

theorem dirCursorNextSectorLog_fst (cur : DirCursor) (v : Volume) :
    (dirCursorNextSectorLog cur v).1 = dirCursorNextSector cur v := by
  rw [dirCursorNextSectorLog]
  split
  · rfl
  · next hroot =>
    rw [dirCursorNextSector, if_neg hroot]
    split
    · rfl
    · have hbpb : (readSector (clusterToLba v cur.cluster + cur.sectorInCluster) v).2.bpb =
          v.bpb := rfl
      dsimp only
      rw [hbpb]
      split <;> rfl

theorem dirCursorSectorsLog_fst (n : ℕ) (cur : DirCursor) (v : Volume) :
    (dirCursorSectorsLog n cur v).1 = dirCursorSectors n cur v := by
  induction n generalizing cur v with
  | zero => rfl
  | succ n ih =>
    rw [dirCursorSectorsLog, dirCursorSectors, ← dirCursorNextSectorLog_fst]
    generalize dirCursorNextSectorLog cur v = r
    obtain ⟨⟨_ | sector, cur', v'⟩, log⟩ := r
    · rfl
    · simp only [← ih]

end erase

/-- The walks along links. -/
inductive ChainWalk where
  /-- `free_cluster_chain` -/
  | free (first : ℕ)
  /-- `fat16_read_file` -/
  | read (first fileSize offset maxLen : ℕ)
  /-- a directory cursor that is moved on -/
  | directory (first : ℕ)

namespace ChainWalk

/-- The cluster the walk begins with. -/
def first : ChainWalk → ℕ
  | .free c => c
  | .read c _ _ _ => c
  | .directory c => c

/-- What a walk hands back, and the volume it leaves. -/
inductive Outcome where
  /-- no answer if the rounds are not enough -/
  | freed (left : Option Volume)
  | bytes (out : List UInt8) (left : Volume)
  | sectors (out : List (Sector × ℕ)) (left : Volume)

/-- The functions, in at most `fuel` rounds of the loops that need not end. -/
def run (fuel : ℕ) (v : Volume) : ChainWalk → Outcome
  | .free c => .freed (freeClusterChain fuel c v)
  | .read c fileSize offset maxLen =>
    match fat16ReadFile c fileSize offset maxLen v with
    | (out, left) => .bytes out left
  | .directory c =>
    match dirCursorSectors fuel (dirCursorInit c) v with
    | (out, left) => .sectors out left

/-- The functions with their accesses. -/
def logged (fuel : ℕ) (v : Volume) : ChainWalk → Outcome × List ClusterAccess
  | .free c =>
    match freeClusterChainLog fuel c v with
    | (left, log) => (.freed left, log)
  | .read c fileSize offset maxLen =>
    match fat16ReadFileLog c fileSize offset maxLen v with
    | ((out, left), log) => (.bytes out left, log)
  | .directory c =>
    match dirCursorSectorsLog fuel (dirCursorInit c) v with
    | ((out, left), log) => (.sectors out left, log)

/-- What the walk accesses. -/
def log (fuel : ℕ) (v : Volume) (w : ChainWalk) : List ClusterAccess :=
  (w.logged fuel v).2

theorem logged_fst (fuel : ℕ) (v : Volume) (w : ChainWalk) :
    (w.logged fuel v).1 = w.run fuel v := by
  cases w with
  | free c => rw [run, ← freeClusterChainLog_fst, logged]
  | read c fileSize offset maxLen => rw [run, ← fat16ReadFileLog_fst, logged]
  | directory c => rw [run, ← dirCursorSectorsLog_fst, logged]

end ChainWalk

/-- The walk accesses clusters of the volume only, and goes on neither from a failed read nor from
    the mark of a bad cluster. -/
structure Confined (v : Volume) (w : ChainWalk) : Prop where
  inRange : ∀ fuel, ∀ a ∈ w.log fuel v, v.InRange a.cluster
  noMark : ∀ fuel, ∀ p ∈ followed (w.log fuel v), p.2.faults 0 = false ∧ p.2.fat p.1 ≠ badCluster

/-- The accesses belong to a walk that is at the given cluster. -/
inductive Along : ℕ → List ClusterAccess → Prop
  | nil {c : ℕ} : Along c []
  | data {c : ℕ} {rest : List ClusterAccess} : 2 ≤ c → Along c rest → Along c (.data c :: rest)
  | link {c : ℕ} {v : Volume} {rest : List ClusterAccess} : 2 ≤ c →
      Along (fatReadEntry c v).1 rest → Along c (.link c v :: rest)

section along

variable {v : Volume} {c : ℕ}

theorem fatReadEntry_fst (c : ℕ) (v : Volume) :
    (fatReadEntry c v).1 = if v.faults 0 then badCluster else v.fat c := by
  rw [fatReadEntry, readSector]
  cases v.faults 0 with
  | false => rfl
  | true => rfl

/-- What is accessed first is the cluster the walk is at. -/
theorem Along.cluster {a : ClusterAccess} {rest : List ClusterAccess} (h : Along c (a :: rest)) :
    a.cluster = c ∧ 2 ≤ c := by
  cases h with
  | data hc _ => exact ⟨rfl, hc⟩
  | link hc _ => exact ⟨rfl, hc⟩

/-- A walk stays below a bound that excludes the answer of a failed read exactly when it begins
    there and every link that it follows is read and leads there. -/
theorem Along.below_iff {l : List ClusterAccess} {bound : ℕ} (hbound : bound ≤ badCluster)
    (h : Along c l) : (∀ a ∈ l, 2 ≤ a.cluster ∧ a.cluster < bound) ↔ (l ≠ [] → c < bound) ∧
      ∀ p ∈ followed l, p.2.faults 0 = false ∧ p.2.fat p.1 < bound := by
  induction h with
  | nil => simp [followed]
  | @data c rest hc _ ih =>
    rw [List.forall_mem_cons, ih, followed]
    simp only [ClusterAccess.cluster, hc, true_and, ne_eq, reduceCtorEq, not_false_eq_true,
      forall_const]
    exact ⟨fun ⟨hlt, _, hrest⟩ => ⟨hlt, hrest⟩, fun ⟨hlt, hrest⟩ => ⟨hlt, fun _ => hlt, hrest⟩⟩
  | @link c v rest hc hrest ih =>
    rw [List.forall_mem_cons, ih]
    simp only [ClusterAccess.cluster, hc, true_and, ne_eq, reduceCtorEq, not_false_eq_true,
      forall_const]
    cases rest with
    | nil => simp [followed]
    | cons a rest =>
      rw [followed, List.forall_mem_cons, fatReadEntry_fst]
      refine and_congr_right fun _ => and_congr_left fun _ => ?_
      cases v.faults 0 with
      | false => simp
      | true => simpa using hbound

theorem along_freeClusterChainLog (fuel c : ℕ) (v : Volume) :
    Along c (freeClusterChainLog fuel c v).2 := by
  induction fuel generalizing c v with
  | zero => exact .nil
  | succ fuel ih =>
    rw [freeClusterChainLog]
    split
    · next hc => exact .link hc.1 (ih _ _)
    · exact .nil

/-- The first loop of `fat16_read_file` ends at the cluster that is read first. -/
theorem along_skipClustersLog (n : ℕ) {c : ℕ} (hc : 2 ≤ c) (v : Volume) :
    Along c (skipClustersLog n c v).2 ∧
      ∀ c', (skipClustersLog n c v).1.1 = some c' → 2 ≤ c' ∧
        ∀ rest, Along c' rest → Along c ((skipClustersLog n c v).2 ++ rest) := by
  induction n generalizing c v with
  | zero =>
    refine ⟨.nil, fun c' hc' => ?_⟩
    obtain rfl : c = c' := Option.some.inj hc'
    exact ⟨hc, fun _ h => h⟩
  | succ n ih =>
    rw [skipClustersLog]
    cases hread : fatReadEntry c v with
    | mk next v₁ =>
      have hfst : (fatReadEntry c v).1 = next := congrArg Prod.fst hread
      dsimp only
      split
      · exact ⟨.link hc .nil, by simp⟩
      · next hgo =>
        obtain ⟨halong, hrest⟩ := ih (c := next) (by omega) v₁
        refine ⟨.link hc (hfst ▸ halong), fun c' hc' => ?_⟩
        obtain ⟨hlo, hall⟩ := hrest c' hc'
        exact ⟨hlo, fun rest h => .link hc (hfst ▸ hall rest h)⟩

theorem along_readClustersLog (fuel c offsetInCluster toRead : ℕ) (v : Volume) :
    Along c (readClustersLog fuel c offsetInCluster toRead v).2 := by
  induction fuel generalizing c offsetInCluster toRead v with
  | zero => exact .nil
  | succ fuel ih =>
    rw [readClustersLog]
    split
    · next hc =>
      generalize readSectors _ _ _ _ v = r
      obtain ⟨ok, bytes, v₁⟩ := r
      cases ok with
      | false => exact .data hc.2.1 .nil
      | true => exact .data hc.2.1 (.link hc.2.1 (ih _ _ _ _))
    · exact .nil

theorem along_fat16ReadFileLog (c fileSize offset maxLen : ℕ) (v : Volume) :
    Along c (fat16ReadFileLog c fileSize offset maxLen v).2 := by
  rw [fat16ReadFileLog]
  split
  · exact .nil
  · next hc =>
    split
    · exact .nil
    · obtain ⟨halong, hrest⟩ := along_skipClustersLog (offset / v.clusterSize)
        (c := c) (by omega) v
      dsimp only
      generalize skipClustersLog (offset / v.clusterSize) c v = s at halong hrest
      obtain ⟨⟨_ | c', v₁⟩, log⟩ := s
      · exact halong
      · exact (hrest c' rfl).2 _ (along_readClustersLog _ _ _ _ _)

/-- A step of the cursor. -/
theorem along_dirCursorNextSectorLog (cur : DirCursor) (v : Volume) (hroot : cur.isRoot = false) :
    Along cur.cluster (dirCursorNextSectorLog cur v).2 ∧
      (dirCursorNextSectorLog cur v).1.2.1.isRoot = false ∧
      ∀ rest, Along (dirCursorNextSectorLog cur v).1.2.1.cluster rest →
        Along cur.cluster ((dirCursorNextSectorLog cur v).2 ++ rest) := by
  rw [dirCursorNextSectorLog, if_neg (by simp [hroot])]
  split
  · exact ⟨.nil, hroot, fun _ h => h⟩
  · next hc =>
    have hlo : 2 ≤ cur.cluster := by omega
    dsimp only
    split
    · exact ⟨.data hlo (.link hlo .nil), hroot, fun rest h => .data hlo (.link hlo h)⟩
    · exact ⟨.data hlo .nil, hroot, fun rest h => .data hlo h⟩

theorem along_dirCursorSectorsLog (n : ℕ) (cur : DirCursor) (v : Volume)
    (hroot : cur.isRoot = false) : Along cur.cluster (dirCursorSectorsLog n cur v).2 := by
  induction n generalizing cur v with
  | zero => exact .nil
  | succ n ih =>
    obtain ⟨halong, hroot', hrest⟩ := along_dirCursorNextSectorLog cur v hroot
    rw [dirCursorSectorsLog]
    generalize dirCursorNextSectorLog cur v = r at halong hroot' hrest
    obtain ⟨⟨_ | sec, cur', v'⟩, log⟩ := r
    · exact halong
    · exact hrest _ (ih cur' v' hroot')

/-- The root directory has no clusters. -/
theorem dirCursorSectorsLog_root (n : ℕ) (cur : DirCursor) (v : Volume)
    (hroot : cur.isRoot = true) : (dirCursorSectorsLog n cur v).2 = [] := by
  induction n generalizing cur v with
  | zero => rfl
  | succ n ih =>
    have hroot' : (dirCursorNextSector cur v).2.1.isRoot = true := by
      rw [dirCursorNextSector, if_pos hroot]
      split
      · exact hroot
      · exact hroot
    rw [dirCursorSectorsLog, dirCursorNextSectorLog, if_pos hroot]
    generalize dirCursorNextSector cur v = r at hroot'
    obtain ⟨_ | sec, cur', v'⟩ := r
    · rfl
    · exact ih cur' v' hroot'

theorem along_log (w : ChainWalk) (fuel : ℕ) (v : Volume) : Along w.first (w.log fuel v) := by
  cases w with
  | free c => exact along_freeClusterChainLog fuel c v
  | read c fileSize offset maxLen => exact along_fat16ReadFileLog c fileSize offset maxLen v
  | directory c =>
    by_cases hc : c = 0
    · have hnone := dirCursorSectorsLog_root fuel (dirCursorInit c) v (by simp [dirCursorInit, hc])
      rw [ChainWalk.log, ChainWalk.logged, hnone]
      exact .nil
    · have halong := along_dirCursorSectorsLog fuel (dirCursorInit c) v
        (by simp [dirCursorInit, hc])
      rwa [show (dirCursorInit c).cluster = c by simp [dirCursorInit, hc]] at halong

end along

/-- Whatever the FAT holds and whichever transfers fail, a walk stays inside the volume exactly when
    its first cluster is in it and every link that it follows can be read and leads to a cluster of
    the volume. The accesses are those on the way to the function's own outcome. -/
theorem confined_iff {v : Volume} (hclusters : v.totalClusters + 2 ≤ badCluster) (w : ChainWalk) :
    (∀ fuel, (w.logged fuel v).1 = w.run fuel v) ∧
      (Confined v w ↔ (∀ fuel, w.log fuel v ≠ [] → w.first < v.totalClusters + 2) ∧
        ∀ fuel, ∀ p ∈ followed (w.log fuel v),
          p.2.faults 0 = false ∧ p.2.fat p.1 < v.totalClusters + 2) := by
  have hiff := fun fuel => (along_log w fuel v).below_iff hclusters
  refine ⟨fun fuel => w.logged_fst fuel v, ?_, ?_⟩
  · intro h
    exact ⟨fun fuel => ((hiff fuel).mp (h.inRange fuel)).1,
      fun fuel => ((hiff fuel).mp (h.inRange fuel)).2⟩
  · rintro ⟨hfirst, hlinks⟩
    refine ⟨fun fuel => (hiff fuel).mpr ⟨hfirst fuel, hlinks fuel⟩, fun fuel p hp => ?_⟩
    obtain ⟨hread, hlt⟩ := hlinks fuel p hp
    exact ⟨hread, by omega⟩

/-- Reading a file of one cluster. -/
theorem confined_oneFile : Confined oneFileVolume (.read 2 1 0 1) := by
  have hone : (followed (fat16ReadFileLog 2 1 0 1 oneFileVolume).2).length = 0 := by decide
  have hnone : ∀ fuel, followed ((ChainWalk.read 2 1 0 1).log fuel oneFileVolume) = [] :=
    fun _ => List.length_eq_zero_iff.mp hone
  refine (confined_iff (by decide) _).2.mpr ⟨fun _ _ => by decide, fun fuel p hp => ?_⟩
  rw [hnone fuel] at hp
  exact absurd hp List.not_mem_nil

/-- A disk whose first transfer fails. -/
def faultyVolume : Volume := { blankVolume 1 with faults := fun n => n == 0 }

/-- The failed read of a link is taken for cluster 0xFFF7, of which the FAT entry is freed. -/
theorem failed_read_followed :
    ¬ ∀ (v : Volume) (w : ChainWalk), v.mounted = true → v.totalClusters + 2 ≤ badCluster →
      Confined v w := by
  intro hall
  have hrange := (hall faultyVolume (.free 2) (by decide) (by decide)).inRange 2
  have hlog : ((ChainWalk.free 2).log 2 faultyVolume).map ClusterAccess.cluster =
      [2, badCluster] := by
    decide
  obtain ⟨a, ha, hbad⟩ := List.mem_map.mp (hlog ▸ (by simp : badCluster ∈ [2, badCluster]))
  have hlt := (hrange a ha).2
  rw [hbad] at hlt
  exact absurd hlt (by decide)

end AuroraOS.Fat16
