import AuroraOS.Fat16.Alloc
import AuroraOS.Lib.Reach

/-!
# The representation invariant

`WellFormed v` is the invariant of a FAT16 volume between operations. The operations pass
through states that break it: a chain is freed before its entry is rewritten, and new clusters
are taken before an entry points at them. `Inv v hole float` describes those states too. The
slot `hole` is being worked on and counts as empty whatever it holds, and the clusters `float`
belong to the operation in progress. Every step of an operation is a lemma about `Inv`, and
`WellFormed v` is `Inv v none []`.

## Main definitions

- `Live`, `ReachDir`, `Entry` — slots in use, reachable directories and their entries
- `WellFormed`, `Inv`
- `Keeps`, `Quiet` — what a step leaves as it was

## Main results

- `Inv.frame` — a step away from the entries and their clusters keeps the invariant
-/

namespace AuroraOS.Fat16

/-- Neither an end marker nor a deleted entry. -/
def Dirent.inUse (e : Dirent) : Bool := !e.isEnd && !e.isDeleted

/-- The directory a slot leads to. -/
def Volume.child (v : Volume) (p : Slot) : Option ℕ :=
  if (v.dirent p).isDir then some (v.dirent p).firstCluster else none

/-- The clusters of the entry in slot `p`. -/
def Volume.chainOf (v : Volume) (p : Slot) : List ℕ := clusterChain v (v.dirent p).firstCluster

/-- Slot `p` of directory `d` is in use. -/
def Live (v : Volume) (d : ℕ) (p : Slot) : Prop := p ∈ dirSlots v d ∧ (v.dirent p).inUse = true

/-- Directory `d` (0 is the root) is reachable through slots other than `hole`. -/
def ReachDir (v : Volume) (hole : Option Slot) (d : ℕ) : Prop :=
  Lib.Reach (fun d p => Live v d p ∧ hole ≠ some p) v.child 0 d

/-- Slot `p` of the reachable directory `d` is in use. -/
structure Entry (v : Volume) (hole : Option Slot) (d : ℕ) (p : Slot) : Prop where
  reach : ReachDir v hole d
  live : Live v d p
  ne : hole ≠ some p

/-- The state of a volume between two operations. -/
structure WellFormed (v : Volume) : Prop where
  /-- the areas of the disk are where they should be, and the FAT covers all clusters -/
  sound : v.Sound
  /-- the FAT copies are identical -/
  agree : v.FatsAgree
  /-- there are neither volume labels nor long names -/
  plain : ∀ d p, Entry v none d p → (v.dirent p).isVolumeId = false
  /-- an entry has no cluster, being a file, or heads a chain -/
  chained : ∀ d p, Entry v none d p →
    ((v.dirent p).firstCluster = 0 ∧ (v.dirent p).isDir = false) ∨
      IsChain v (v.dirent p).firstCluster (v.chainOf p)
  /-- a file's bytes fit its chain -/
  sized : ∀ d p, Entry v none d p → (v.dirent p).isDir = false →
    (v.dirent p).fileSize.toNat ≤ (v.chainOf p).length * v.clusterSize
  /-- different entries have different clusters -/
  disjoint : ∀ d p d' q, Entry v none d p → Entry v none d' q → p ≠ q →
    List.Disjoint (v.chainOf p) (v.chainOf q)
  /-- a cluster is taken exactly when it belongs to an entry -/
  used : ∀ c, v.InRange c → (v.fat c ≠ 0 ↔ ∃ d p, Entry v none d p ∧ c ∈ v.chainOf p)
  /-- names in a directory are different -/
  names : ∀ d p q, Entry v none d p → Entry v none d q →
    (v.dirent p).name = (v.dirent q).name → p = q
  /-- behind an end marker there are only end markers -/
  ends : ∀ d, ReachDir v none d →
    (dirSlots v d).Pairwise fun p q => (v.dirent p).isEnd = true → (v.dirent q).isEnd = true

/-- The state of a volume inside an operation that works on the slot `hole` and owns the
    clusters `float`. -/
structure Inv (v : Volume) (hole : Option Slot) (float : List ℕ) : Prop where
  sound : v.Sound
  agree : v.FatsAgree
  plain : ∀ d p, Entry v hole d p → (v.dirent p).isVolumeId = false
  chained : ∀ d p, Entry v hole d p →
    ((v.dirent p).firstCluster = 0 ∧ (v.dirent p).isDir = false) ∨
      IsChain v (v.dirent p).firstCluster (v.chainOf p)
  disjoint : ∀ d p d' q, Entry v hole d p → Entry v hole d' q → p ≠ q →
    List.Disjoint (v.chainOf p) (v.chainOf q)
  used : ∀ c, v.InRange c →
    (v.fat c ≠ 0 ↔ c ∈ float ∨ ∃ d p, Entry v hole d p ∧ c ∈ v.chainOf p)
  names : ∀ d p q, Entry v hole d p → Entry v hole d q →
    (v.dirent p).name = (v.dirent q).name → p = q
  ends : ∀ d, ReachDir v hole d →
    (dirSlots v d).Pairwise fun p q => (v.dirent p).isEnd = true → (v.dirent q).isEnd = true
  float_chain : float = [] ∨ ∃ c, IsChain v c float
  float_disjoint : ∀ d p, Entry v hole d p → List.Disjoint (v.chainOf p) float

/-- The bytes of every file outside `hole` fit its chain. -/
def Sized (v : Volume) (hole : Option Slot) : Prop :=
  ∀ d p, Entry v hole d p → (v.dirent p).isDir = false →
    (v.dirent p).fileSize.toNat ≤ (v.chainOf p).length * v.clusterSize

theorem wellFormed_iff_inv {v : Volume} : WellFormed v ↔ Inv v none [] ∧ Sized v none := by
  constructor
  · intro h
    exact ⟨⟨h.sound, h.agree, h.plain, h.chained, h.disjoint,
      fun c hc => by simpa using h.used c hc, h.names, h.ends, .inl rfl,
      fun _ _ _ => List.disjoint_nil_right _⟩, h.sized⟩
  · rintro ⟨h, hsized⟩
    exact ⟨h.sound, h.agree, h.plain, h.chained, hsized, h.disjoint,
      fun c hc => by simpa using h.used c hc, h.names, h.ends⟩

theorem WellFormed.inv {v : Volume} (h : WellFormed v) : Inv v none [] :=
  (wellFormed_iff_inv.mp h).1

section basics

variable {v : Volume} {hole : Option Slot} {float : List ℕ} {d : ℕ} {p : Slot}

theorem reachDir_root : ReachDir v hole 0 := .root

/-- A reachable directory is the root or the target of an entry. -/
theorem ReachDir.cases (h : ReachDir v hole d) :
    d = 0 ∨ ∃ d' q, Entry v hole d' q ∧ (v.dirent q).isDir = true ∧
      (v.dirent q).firstCluster = d := by
  cases h with
  | root => exact .inl rfl
  | @step d' _ q hd hq hc =>
    refine .inr ⟨d', q, ⟨hd, hq.1, hq.2⟩, ?_⟩
    simp only [Volume.child] at hc
    split at hc
    · next hdir => exact ⟨hdir, Option.some.inj hc⟩
    · exact absurd hc (by simp)

theorem Entry.reach_sub (h : Entry v hole d p) (hdir : (v.dirent p).isDir = true) :
    ReachDir v hole (v.dirent p).firstCluster :=
  .step h.reach ⟨h.live, h.ne⟩ (by simp [Volume.child, hdir])

namespace Inv

theorem isChain_of_mem (h : Inv v hole float) (he : Entry v hole d p) {c : ℕ}
    (hc : c ∈ v.chainOf p) : IsChain v (v.dirent p).firstCluster (v.chainOf p) := by
  obtain ⟨hz, _⟩ | hch := h.chained d p he
  · rw [Volume.chainOf, hz, clusterChain_zero] at hc
    exact absurd hc List.not_mem_nil
  · exact hch

theorem inRange_of_mem (h : Inv v hole float) (he : Entry v hole d p) {c : ℕ}
    (hc : c ∈ v.chainOf p) : v.InRange c :=
  (h.isChain_of_mem he hc).live_of_mem c hc

theorem isChain_of_isDir (h : Inv v hole float) (he : Entry v hole d p)
    (hdir : (v.dirent p).isDir = true) : IsChain v (v.dirent p).firstCluster (v.chainOf p) := by
  obtain ⟨_, hfile⟩ | hch := h.chained d p he
  · rw [hfile] at hdir
    exact absurd hdir (by simp)
  · exact hch

/-- A reachable directory other than the root heads the chain of its entry. -/
theorem reachDir_isChain (h : Inv v hole float) (hd : ReachDir v hole d) (h0 : d ≠ 0) :
    ∃ d' q, Entry v hole d' q ∧ (v.dirent q).isDir = true ∧ (v.dirent q).firstCluster = d ∧
      IsChain v d (v.chainOf q) ∧ clusterChain v d = v.chainOf q := by
  obtain rfl | ⟨d', q, hq, hdir, rfl⟩ := hd.cases
  · exact absurd rfl h0
  · exact ⟨d', q, hq, hdir, rfl, h.isChain_of_isDir hq hdir, rfl⟩

theorem inRange_of_mem_float (h : Inv v hole float) {c : ℕ} (hc : c ∈ float) : v.InRange c := by
  obtain rfl | ⟨a, ha⟩ := h.float_chain
  · exact absurd hc List.not_mem_nil
  · exact ha.live_of_mem c hc

/-- The cluster of an entry, or of the operation in progress, is not free. -/
theorem fat_ne_zero_of_mem (h : Inv v hole float) (he : Entry v hole d p) {c : ℕ}
    (hc : c ∈ v.chainOf p) : v.fat c ≠ 0 :=
  (h.used c (h.inRange_of_mem he hc)).mpr (.inr ⟨d, p, he, hc⟩)

theorem fat_ne_zero_of_mem_float (h : Inv v hole float) {c : ℕ} (hc : c ∈ float) :
    v.fat c ≠ 0 :=
  (h.used c (h.inRange_of_mem_float hc)).mpr (.inl hc)

/-- A sector of a directory lies in the root area or in a cluster of an entry. -/
theorem dirSector_cases (h : Inv v hole float) (hd : ReachDir v hole d) {lba : ℕ}
    (hlba : lba ∈ dirSectors v d) :
    (v.rootDirStartLba ≤ lba ∧ lba < v.dataStartLba) ∨
      ∃ d' q, Entry v hole d' q ∧ (v.dirent q).isDir = true ∧ (v.dirent q).firstCluster = d ∧
        ∃ c ∈ v.chainOf q, lba ∈ clusterSectors v c := by
  by_cases h0 : d = 0
  · subst h0
    have := mem_dirSectors_root.mp hlba
    have := h.sound.data_start
    exact .inl ⟨by omega, by omega⟩
  · obtain ⟨d', q, hq, hdir, hfc, _, hch⟩ := h.reachDir_isChain hd h0
    obtain ⟨c, hc, hmem⟩ := (mem_dirSectors_sub h0).mp hlba
    exact .inr ⟨d', q, hq, hdir, hfc, c, hch ▸ hc, hmem⟩

/-- A sector of a directory is not a sector of a cluster that no entry owns. -/
theorem dirSector_not_mem_cluster (h : Inv v hole float) (hd : ReachDir v hole d) {lba c : ℕ}
    (hlba : lba ∈ dirSectors v d) (hc : v.InRange c)
    (hfree : ∀ d p, Entry v hole d p → c ∉ v.chainOf p) : lba ∉ clusterSectors v c := by
  intro hmem
  obtain ⟨_, hlt⟩ | ⟨d', q, hq, _, _, c', hc', hmem'⟩ := h.dirSector_cases hd hlba
  · have := data_start_le_of_mem hmem
    omega
  · have := eq_of_mem_clusterSectors hc.1 (h.inRange_of_mem hq hc').1 hmem hmem'
    exact hfree d' q hq (this ▸ hc')

/-- A slot belongs to at most one reachable directory. -/
theorem dir_unique (h : Inv v hole float) {d' : ℕ} (hd : ReachDir v hole d)
    (hd' : ReachDir v hole d') {lba : ℕ} (hl : lba ∈ dirSectors v d)
    (hl' : lba ∈ dirSectors v d') : d = d' := by
  by_cases h0 : d = 0 <;> by_cases h0' : d' = 0
  · rw [h0, h0']
  · -- the root area lies before all clusters
    subst h0
    obtain ⟨c, _, hmem⟩ := (mem_dirSectors_sub h0').mp hl'
    have := data_start_le_of_mem hmem
    have := (mem_dirSectors_root.mp hl).2
    have := h.sound.data_start
    omega
  · subst h0'
    obtain ⟨c, _, hmem⟩ := (mem_dirSectors_sub h0).mp hl
    have := data_start_le_of_mem hmem
    have := (mem_dirSectors_root.mp hl').2
    have := h.sound.data_start
    omega
  · obtain ⟨e, q, hq, _, hfc, _, hch⟩ := h.reachDir_isChain hd h0
    obtain ⟨e', q', hq', _, hfc', _, hch'⟩ := h.reachDir_isChain hd' h0'
    obtain ⟨c, hc, hmem⟩ := (mem_dirSectors_sub h0).mp hl
    obtain ⟨c', hc', hmem'⟩ := (mem_dirSectors_sub h0').mp hl'
    rw [hch] at hc
    rw [hch'] at hc'
    have hcc := eq_of_mem_clusterSectors (h.inRange_of_mem hq hc).1
      (h.inRange_of_mem hq' hc').1 hmem hmem'
    subst hcc
    by_cases hqq : q = q'
    · rw [← hfc, ← hfc', hqq]
    · exact absurd hc' (h.disjoint e q e' q' hq hq' hqq hc)

end Inv

end basics

/-- The entry is a file, or a directory other than `d₀`. -/
def Dirent.Outside (e : Dirent) (d₀ : ℕ) : Prop := e.isDir = true → e.firstCluster ≠ d₀

theorem Dirent.outside_of_file {e : Dirent} (h : e.isDir = false) (d₀ : ℕ) : e.Outside d₀ :=
  fun hdir => by rw [h] at hdir; exact absurd hdir (by simp)

/-- From `v` to `v'` no entry outside `hole` changed: directories have grown by end markers at
    most, entries are the same, and all but the directory `d₀` have the same clusters with the
    same bytes. -/
structure Keeps (hole : Option Slot) (d₀ : ℕ) (v v' : Volume) : Prop where
  geometry : v.SameGeometry v'
  slots : ∀ d, ReachDir v hole d →
    ∃ ext, dirSlots v' d = dirSlots v d ++ ext ∧
      ∀ p ∈ ext, (v'.dirent p).isEnd = true ∧ hole ≠ some p
  dirent : ∀ d, ReachDir v hole d → ∀ p ∈ dirSlots v d, hole ≠ some p → v'.dirent p = v.dirent p
  chain : ∀ d p, Entry v hole d p → (v.dirent p).Outside d₀ → v'.chainOf p = v.chainOf p
  data : ∀ d p, Entry v hole d p → (v.dirent p).Outside d₀ → ∀ c ∈ v.chainOf p,
    ∀ lba ∈ clusterSectors v c, v'.disk lba = v.disk lba

namespace Keeps

variable {hole : Option Slot} {d₀ : ℕ} {v v' v'' : Volume}

theorem refl (hole : Option Slot) (d₀ : ℕ) (v : Volume) : Keeps hole d₀ v v :=
  ⟨.refl v, fun _ _ => ⟨[], by simp, by simp⟩, fun _ _ _ _ _ => rfl, fun _ _ _ _ => rfl,
    fun _ _ _ _ _ _ _ _ => rfl⟩

theorem live_iff (h : Keeps hole d₀ v v') {d : ℕ} (hd : ReachDir v hole d) {p : Slot}
    (hp : hole ≠ some p) : Live v d p ↔ Live v' d p := by
  obtain ⟨ext, hslots, hend⟩ := h.slots d hd
  rw [Live, Live, hslots, List.mem_append]
  constructor
  · rintro ⟨hmem, huse⟩
    exact ⟨.inl hmem, by rwa [h.dirent d hd p hmem hp]⟩
  · rintro ⟨hmem | hmem, huse⟩
    · exact ⟨hmem, by rwa [h.dirent d hd p hmem hp] at huse⟩
    · simp [Dirent.inUse, (hend p hmem).1] at huse

theorem reachDir_iff (h : Keeps hole d₀ v v') {d : ℕ} : ReachDir v hole d ↔ ReachDir v' hole d := by
  refine Lib.Reach.congr (fun d hd p => ?_) fun d hd p hp => ?_
  · constructor
    · rintro ⟨hl, hne⟩
      exact ⟨(h.live_iff hd hne).mp hl, hne⟩
    · rintro ⟨hl, hne⟩
      exact ⟨(h.live_iff hd hne).mpr hl, hne⟩
  · rw [Volume.child, Volume.child, h.dirent d hd p hp.1.1 hp.2]

theorem entry_iff (h : Keeps hole d₀ v v') {d : ℕ} {p : Slot} :
    Entry v hole d p ↔ Entry v' hole d p := by
  constructor
  · rintro ⟨hd, hl, hne⟩
    exact ⟨h.reachDir_iff.mp hd, (h.live_iff hd hne).mp hl, hne⟩
  · rintro ⟨hd, hl, hne⟩
    have hd := h.reachDir_iff.mpr hd
    exact ⟨hd, (h.live_iff hd hne).mpr hl, hne⟩

theorem dirent_of_entry (h : Keeps hole d₀ v v') {d : ℕ} {p : Slot} (he : Entry v hole d p) :
    v'.dirent p = v.dirent p :=
  h.dirent d he.reach p he.live.1 he.ne

theorem trans (h : Keeps hole d₀ v v') (h' : Keeps hole d₀ v' v'') : Keeps hole d₀ v v'' := by
  refine ⟨h.geometry.trans h'.geometry, fun d hd => ?_, fun d hd p hp hne => ?_,
    fun d p he hout => ?_, fun d p he hout c hc lba hlba => ?_⟩
  · obtain ⟨ext, hslots, hend⟩ := h.slots d hd
    have hd' := h.reachDir_iff.mp hd
    obtain ⟨ext', hslots', hend'⟩ := h'.slots d hd'
    refine ⟨ext ++ ext', by rw [hslots', hslots, List.append_assoc], fun p hp => ?_⟩
    obtain hp | hp := List.mem_append.mp hp
    · obtain ⟨hpe, hne⟩ := hend p hp
      refine ⟨?_, hne⟩
      rwa [h'.dirent d hd' p (by rw [hslots]; exact List.mem_append_right _ hp) hne]
    · exact hend' p hp
  · obtain ⟨ext, hslots, _⟩ := h.slots d hd
    have hp' : p ∈ dirSlots v' d := by rw [hslots]; exact List.mem_append_left _ hp
    rw [h'.dirent d (h.reachDir_iff.mp hd) p hp' hne, h.dirent d hd p hp hne]
  · have hout' : (v'.dirent p).Outside d₀ := by rwa [h.dirent_of_entry he]
    rw [h'.chain d p (h.entry_iff.mp he) hout', h.chain d p he hout]
  · have hout' : (v'.dirent p).Outside d₀ := by rwa [h.dirent_of_entry he]
    rw [h'.data d p (h.entry_iff.mp he) hout' c (by rwa [h.chain d p he hout]) lba
      (by rwa [h.geometry.clusterSectors]), h.data d p he hout c hc lba hlba]

/-- File sizes only depend on what a step keeps. -/
theorem sized (h : Keeps hole d₀ v v') (hsized : Sized v hole) : Sized v' hole := by
  intro d p he hfile
  have he := h.entry_iff.mpr he
  rw [h.dirent_of_entry he] at hfile ⊢
  rw [h.chain d p he (Dirent.outside_of_file hfile d₀), h.geometry.clusterSize]
  exact hsized d p he hfile

end Keeps

/-- The chain of an entry only depends on the links of its clusters. -/
theorem Inv.chainOf_congr {v v' : Volume} {hole : Option Slot} {float : List ℕ} {d : ℕ} {p : Slot}
    (h : Inv v hole float) (hg : v.SameGeometry v') (hs : v'.Sound) (he : Entry v hole d p)
    (hdirent : v'.dirent p = v.dirent p) (hfat : ∀ c ∈ v.chainOf p, v'.fat c = v.fat c) :
    v'.chainOf p = v.chainOf p ∧ (IsChain v (v.dirent p).firstCluster (v.chainOf p) →
      IsChain v' (v'.dirent p).firstCluster (v'.chainOf p)) := by
  have hcongr : ∀ l, l = v.chainOf p → IsChain v (v.dirent p).firstCluster l →
      IsChain v' (v.dirent p).firstCluster l := by
    rintro l rfl hch
    exact hch.congr hfat fun x _ hx => hg.inRange.mpr hx
  have heq : v'.chainOf p = v.chainOf p := by
    rw [Volume.chainOf, hdirent]
    obtain ⟨hz, _⟩ | hch := h.chained d p he
    · rw [Volume.chainOf, hz, clusterChain_zero, clusterChain_zero]
    · exact (hcongr _ rfl hch).clusterChain_eq hs
  refine ⟨heq, fun hch => ?_⟩
  rw [hdirent, heq]
  exact hcongr _ rfl hch

/-- Nothing outside the clusters in progress changed at all. -/
structure Quiet (hole : Option Slot) (v v' : Volume) : Prop where
  keeps : ∀ d₀, Keeps hole d₀ v v'
  slots : ∀ d, ReachDir v hole d → dirSlots v' d = dirSlots v d
  dirent : ∀ d, ReachDir v hole d → ∀ p ∈ dirSlots v d, v'.dirent p = v.dirent p

namespace Quiet

variable {hole : Option Slot} {v v' v'' : Volume}

theorem refl (hole : Option Slot) (v : Volume) : Quiet hole v v :=
  ⟨fun d₀ => .refl hole d₀ v, fun _ _ => rfl, fun _ _ _ _ => rfl⟩

theorem geometry (h : Quiet hole v v') : v.SameGeometry v' := (h.keeps 0).geometry

theorem reachDir_iff (h : Quiet hole v v') {d : ℕ} : ReachDir v hole d ↔ ReachDir v' hole d :=
  (h.keeps 0).reachDir_iff

theorem entry_iff (h : Quiet hole v v') {d : ℕ} {p : Slot} :
    Entry v hole d p ↔ Entry v' hole d p :=
  (h.keeps 0).entry_iff

theorem trans (h : Quiet hole v v') (h' : Quiet hole v' v'') : Quiet hole v v'' := by
  refine ⟨fun d₀ => (h.keeps d₀).trans (h'.keeps d₀), fun d hd => ?_, fun d hd p hp => ?_⟩
  · rw [h'.slots d (h.reachDir_iff.mp hd), h.slots d hd]
  · rw [h'.dirent d (h.reachDir_iff.mp hd) p (by rwa [h.slots d hd]), h.dirent d hd p hp]

end Quiet

/-- A step that neither touches the links and bytes of entries nor the slots of directories,
    described by what becomes of the clusters in progress. -/
theorem Inv.frame {v v' : Volume} {hole : Option Slot} {float float' : List ℕ}
    (h : Inv v hole float) (hg : v.SameGeometry v') (hs : v'.Sound) (ha : v'.FatsAgree)
    (hfat : ∀ d p, Entry v hole d p → ∀ c ∈ v.chainOf p, v'.fat c = v.fat c)
    (hsec : ∀ d, ReachDir v hole d → ∀ lba ∈ dirSectors v d, v'.disk lba = v.disk lba)
    (hdata : ∀ d p, Entry v hole d p → ∀ c ∈ v.chainOf p,
      ∀ lba ∈ clusterSectors v c, v'.disk lba = v.disk lba)
    (hused : ∀ c, v.InRange c →
      (v'.fat c ≠ 0 ↔ c ∈ float' ∨ ∃ d p, Entry v hole d p ∧ c ∈ v.chainOf p))
    (hfc : float' = [] ∨ ∃ c, IsChain v' c float')
    (hfd : ∀ d p, Entry v hole d p → List.Disjoint (v.chainOf p) float') :
    Inv v' hole float' ∧ Quiet hole v v' := by
  have hdirent : ∀ d, ReachDir v hole d → ∀ p ∈ dirSlots v d, v'.dirent p = v.dirent p :=
    fun d hd p hp => Volume.dirent_congr (hsec d hd _ (mem_dirSlots.mp hp).1)
  have hchain : ∀ d p, Entry v hole d p → v'.chainOf p = v.chainOf p ∧
      (IsChain v (v.dirent p).firstCluster (v.chainOf p) →
        IsChain v' (v'.dirent p).firstCluster (v'.chainOf p)) :=
    fun d p he => h.chainOf_congr hg hs he (hdirent d he.reach p he.live.1) (hfat d p he)
  have hslots : ∀ d, ReachDir v hole d → dirSlots v' d = dirSlots v d := by
    intro d hd
    by_cases h0 : d = 0
    · subst h0
      exact hg.dirSlots_congr rfl
    · obtain ⟨e, q, hq, _, hfc, _, hch⟩ := h.reachDir_isChain hd h0
      refine hg.dirSlots_congr ?_
      rw [hch, ← (hchain e q hq).1, Volume.chainOf, hdirent e hq.reach q hq.live.1, hfc]
  have hks : ∀ d₀, Keeps hole d₀ v v' := fun d₀ =>
    ⟨hg, fun d hd => ⟨[], by simp [hslots d hd], by simp⟩,
      fun d hd p hp _ => hdirent d hd p hp, fun d p he _ => (hchain d p he).1,
      fun d p he _ => hdata d p he⟩
  have hk := hks 0
  refine ⟨⟨hs, ha, fun d p he => ?_, fun d p he => ?_,
    fun d p d' q he he' hne => ?_, fun c hc => ?_, fun d p q he he' hname => ?_,
    fun d hd => ?_, hfc, fun d p he => ?_⟩, ⟨hks, hslots, hdirent⟩⟩
  · have he := hk.entry_iff.mpr he
    rw [hk.dirent_of_entry he]
    exact h.plain d p he
  · have he := hk.entry_iff.mpr he
    refine (h.chained d p he).imp (fun hz => ?_) (hchain d p he).2
    rwa [hk.dirent_of_entry he]
  · have he := hk.entry_iff.mpr he
    have he' := hk.entry_iff.mpr he'
    rw [(hchain d p he).1, (hchain d' q he').1]
    exact h.disjoint d p d' q he he' hne
  · rw [hused c (hg.inRange.mp hc)]
    refine or_congr_right ⟨?_, ?_⟩
    · rintro ⟨d, p, he, hmem⟩
      exact ⟨d, p, hk.entry_iff.mp he, by rwa [(hchain d p he).1]⟩
    · rintro ⟨d, p, he, hmem⟩
      have he := hk.entry_iff.mpr he
      exact ⟨d, p, he, by rwa [(hchain d p he).1] at hmem⟩
  · have he := hk.entry_iff.mpr he
    have he' := hk.entry_iff.mpr he'
    rw [hk.dirent_of_entry he, hk.dirent_of_entry he'] at hname
    exact h.names d p q he he' hname
  · have hd := hk.reachDir_iff.mpr hd
    rw [hslots d hd]
    refine (h.ends d hd).imp_of_mem fun {p q} hp hq hpq => ?_
    rwa [hdirent d hd p hp, hdirent d hd q hq]
  · have he := hk.entry_iff.mpr he
    rw [(hchain d p he).1]
    exact hfd d p he

/-- With an empty root directory there is no other directory. -/
theorem reachDir_of_empty {v : Volume} (hroot : ∀ p ∈ dirSlots v 0, (v.dirent p).isEnd = true)
    {d : ℕ} (hd : ReachDir v none d) : d = 0 := by
  induction hd with
  | root => rfl
  | step _ hp _ ih =>
    subst ih
    obtain ⟨⟨hmem, huse⟩, _⟩ := hp
    simp [Dirent.inUse, hroot _ hmem] at huse

/-- Nor is there any entry. -/
theorem not_entry_of_empty {v : Volume} (hroot : ∀ p ∈ dirSlots v 0, (v.dirent p).isEnd = true)
    (d : ℕ) (p : Slot) : ¬ Entry v none d p := by
  rintro ⟨hd, ⟨hmem, huse⟩, _⟩
  rw [reachDir_of_empty hroot hd] at hmem
  simp [Dirent.inUse, hroot p hmem] at huse

/-- A freshly formatted volume: all links are free and the root directory is empty. -/
theorem wellFormed_of_empty {v : Volume} (hs : v.Sound) (ha : v.FatsAgree)
    (hfat : ∀ c, v.InRange c → v.fat c = 0)
    (hroot : ∀ p ∈ dirSlots v 0, (v.dirent p).isEnd = true) : WellFormed v := by
  have hno := not_entry_of_empty hroot
  refine ⟨hs, ha, fun d p he => absurd he (hno d p), fun d p he => absurd he (hno d p),
    fun d p he => absurd he (hno d p), fun d p _ _ he => absurd he (hno d p), fun c hc => ?_,
    fun d p _ he => absurd he (hno d p), fun d hd => ?_⟩
  · refine ⟨fun hne => absurd (hfat c hc) hne, ?_⟩
    rintro ⟨d, p, he, _⟩
    exact absurd he (hno d p)
  · rw [reachDir_of_empty hroot hd]
    exact List.pairwise_of_forall_mem_list fun _ _ q hq _ => hroot q hq

/-- The smallest formatted volume with `n` clusters of one sector: two FATs of one sector each
    and sixteen root entries. -/
def blankVolume (n : ℕ) : Volume where
  bpb := ⟨1, 2, 1⟩
  mounted := true
  fatStartLba := 1
  rootDirStartLba := 3
  rootDirSectors := 1
  dataStartLba := 4
  totalClusters := n
  nextFreeClusterHint := 2
  disk := fun _ => Sector.zero
  faults := fun _ => false

theorem blankVolume_wellFormed {n : ℕ} (hn : n ≤ 254) : WellFormed (blankVolume n) := by
  refine wellFormed_of_empty ⟨rfl, rfl, ?_, ?_, rfl, rfl, ?_, ?_, ?_, ?_⟩ (fun _ _ _ _ => rfl)
    (fun _ _ => rfl) fun p _ => read_zero_isEnd _
  all_goals simp only [blankVolume]
  all_goals omega

end AuroraOS.Fat16
