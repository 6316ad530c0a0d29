import AuroraOS.Fat16.Layout

/-!
# Allocation on a sound volume

What the free-cluster search, `extend_cluster_chain`, `free_cluster_chain` and the data loop
of `fat16_write_file` do when every transfer succeeds, as pure updates of the volume.

## Main definitions

- `Volume.extended` — the volume after one more cluster was linked behind another
- `Volume.SameGeometry` — the fields no operation on a mounted volume changes

## Main results

- `fatFindFreeCluster_spec` — the search finds a free cluster if there is one
- `extendClusterChain_spec` — it extends, or the disk is full and nothing changes
-/

namespace AuroraOS.Fat16

/-- The volume with another hint for the free-cluster search. -/
def Volume.withHint (v : Volume) (hint : ℕ) : Volume := { v with nextFreeClusterHint := hint }

/-- Nothing but the hint, the disk and the faults to come differs. -/
structure Volume.SameGeometry (v v' : Volume) : Prop where
  bpb : v'.bpb = v.bpb
  mounted : v'.mounted = v.mounted
  fatStartLba : v'.fatStartLba = v.fatStartLba
  rootDirStartLba : v'.rootDirStartLba = v.rootDirStartLba
  rootDirSectors : v'.rootDirSectors = v.rootDirSectors
  dataStartLba : v'.dataStartLba = v.dataStartLba
  totalClusters : v'.totalClusters = v.totalClusters

namespace Volume.SameGeometry

variable {v v' v'' : Volume}

theorem refl (v : Volume) : v.SameGeometry v := ⟨rfl, rfl, rfl, rfl, rfl, rfl, rfl⟩

theorem trans (h : v.SameGeometry v') (h' : v'.SameGeometry v'') : v.SameGeometry v'' :=
  ⟨h'.bpb.trans h.bpb, h'.mounted.trans h.mounted, h'.fatStartLba.trans h.fatStartLba,
    h'.rootDirStartLba.trans h.rootDirStartLba, h'.rootDirSectors.trans h.rootDirSectors,
    h'.dataStartLba.trans h.dataStartLba, h'.totalClusters.trans h.totalClusters⟩

theorem withDisk (v : Volume) (d : ℕ → Sector) : v.SameGeometry (v.withDisk d) :=
  ⟨rfl, rfl, rfl, rfl, rfl, rfl, rfl⟩

theorem inRange (h : v.SameGeometry v') {c : ℕ} : v'.InRange c ↔ v.InRange c := by
  rw [Volume.InRange, Volume.InRange, h.totalClusters]

theorem clusterToLba (h : v.SameGeometry v') (c : ℕ) :
    Fat16.clusterToLba v' c = Fat16.clusterToLba v c := by
  rw [Fat16.clusterToLba, Fat16.clusterToLba, h.dataStartLba, h.bpb]

theorem clusterSectors (h : v.SameGeometry v') (c : ℕ) :
    Fat16.clusterSectors v' c = Fat16.clusterSectors v c := by
  simp only [Fat16.clusterSectors, h.clusterToLba c, h.bpb]

theorem clusterSize (h : v.SameGeometry v') : v'.clusterSize = v.clusterSize := by
  rw [Volume.clusterSize, Volume.clusterSize, h.bpb]

/-- Directories with the same clusters have the same slots. -/
theorem dirSlots_congr (h : v.SameGeometry v') {d : ℕ} (hc : clusterChain v' d = clusterChain v d) :
    dirSlots v' d = dirSlots v d := by
  have hfun : Fat16.clusterSectors v' = Fat16.clusterSectors v := funext h.clusterSectors
  simp only [dirSlots, dirSectors, hc, hfun, h.rootDirSectors, h.rootDirStartLba]

end Volume.SameGeometry

theorem scanFree_eq {v : Volume} (hr : v.Reliable) (n c : ℕ) :
    scanFree n c v =
      match (List.range' c n).find? (fun k => v.fat k = freeCluster) with
      | some k => (some k, v.withHint ((k + 1) % 65536))
      | none => (none, v) := by
  induction n generalizing c with
  | zero => rfl
  | succ n ih =>
    rw [scanFree, fatReadEntry_eq hr, List.range'_succ, List.find?_cons]
    by_cases hf : v.fat c = freeCluster
    · simp [hf, Volume.withHint]
    · simp only [hf, if_false, decide_false]
      exact ih (c + 1)

/-- The search returns a free data cluster and moves the hint behind it, or there is none and
    nothing changes. -/
theorem fatFindFreeCluster_spec {v : Volume} (hs : v.Sound) :
    (∃ c, v.InRange c ∧ v.fat c = 0 ∧ fatFindFreeCluster v = (c, v.withHint (c + 1))) ∨
      ((∀ c, v.InRange c → v.fat c ≠ 0) ∧ fatFindFreeCluster v = (0, v)) := by
  have hcl := hs.clusters
  have hlo := hs.hint_lo
  have hhi := hs.hint_hi
  have hmod : (v.totalClusters + 2) % 65536 = v.totalClusters + 2 := Nat.mod_eq_of_lt (by omega)
  simp only [fatFindFreeCluster, hmod]
  rw [scanFree_eq hs.reliable]
  cases h1 : (List.range' v.nextFreeClusterHint (v.totalClusters + 2 - v.nextFreeClusterHint)).find?
      (fun k => v.fat k = freeCluster) with
  | some c =>
    have hfree := List.find?_some h1
    have hmem := List.mem_range'_1.mp (List.mem_of_find?_eq_some h1)
    refine .inl ⟨c, ⟨by omega, by omega⟩, of_decide_eq_true hfree, ?_⟩
    simp only [Nat.mod_eq_of_lt (show c + 1 < 65536 by omega)]
  | none =>
    simp only
    rw [scanFree_eq hs.reliable]
    cases h2 : (List.range' 2 (min v.nextFreeClusterHint (v.totalClusters + 2) - 2)).find?
        (fun k => v.fat k = freeCluster) with
    | some c =>
      have hfree := List.find?_some h2
      have hmem := List.mem_range'_1.mp (List.mem_of_find?_eq_some h2)
      refine .inl ⟨c, ⟨by omega, by omega⟩, of_decide_eq_true hfree, ?_⟩
      simp only [Nat.mod_eq_of_lt (show c + 1 < 65536 by omega)]
    | none =>
      refine .inr ⟨fun c hc hfree => ?_, rfl⟩
      -- every cluster lies in one of the two scanned ranges
      have hc1 := hc.1
      have hc2 := hc.2
      rw [List.find?_eq_none] at h1 h2
      by_cases hlt : c < v.nextFreeClusterHint
      · exact h2 c (List.mem_range'_1.mpr ⟨by omega, by omega⟩) (decide_eq_true hfree)
      · exact h1 c (List.mem_range'_1.mpr ⟨by omega, by omega⟩) (decide_eq_true hfree)

theorem zeroSectors_eq {v : Volume} (hr : v.Reliable) (n lba : ℕ) :
    zeroSectors n lba v =
      (true, v.withDisk fun l => if lba ≤ l ∧ l < lba + n then Sector.zero else v.disk l) := by
  induction n generalizing lba v with
  | zero =>
    refine Prod.ext rfl (congrArg v.withDisk (funext fun l => ?_))
    rw [if_neg (by omega)]
  | succ n ih =>
    simp only [zeroSectors, writeSector_eq hr]
    refine (ih (v := v.setSector lba Sector.zero) (hr.withDisk _) (lba + 1)).trans
      (Prod.ext rfl (congrArg v.withDisk (funext fun l => ?_)))
    simp only [Volume.setSector, Volume.withDisk_disk]
    by_cases hl : l = lba
    · subst hl
      simp
    · rw [Function.update_of_ne hl]
      exact if_congr (by omega) rfl rfl

/-- The volume with all sectors of cluster `c` zeroed. -/
def Volume.zeroCluster (v : Volume) (c : ℕ) : Volume :=
  v.withDisk fun l => if l ∈ clusterSectors v c then Sector.zero else v.disk l

/-- The volume after cluster `c` was taken, marked as an end, linked behind `last` (unless that
    is 0) and zeroed. -/
def Volume.extended (v : Volume) (last c : ℕ) : Volume :=
  let v₁ := (v.withHint (c + 1)).setFat c eocMin
  (if 2 ≤ last then v₁.setFat last c else v₁).zeroCluster c

/-- One more cluster for a chain: the chain is extended by a free cluster, or the disk is full
    and the volume stays as it was. -/
theorem extendClusterChain_spec {v : Volume} (hs : v.Sound) {last : ℕ}
    (hlast : last = 0 ∨ v.InRange last) :
    (∃ c, v.InRange c ∧ v.fat c = 0 ∧ extendClusterChain last v = (c, v.extended last c)) ∨
      ((∀ c, v.InRange c → v.fat c ≠ 0) ∧ extendClusterChain last v = (0, v)) := by
  obtain ⟨c, hc, hfree, heq⟩ | ⟨hfull, heq⟩ := fatFindFreeCluster_spec hs
  · refine .inl ⟨c, hc, hfree, ?_⟩
    have hne : c ≠ 0 := by have := hc.1; omega
    have hs₀ : (v.withHint (c + 1)).Sound := by
      have := hc.1
      have := hc.2
      exact ⟨hs.mounted, hs.reliable, hs.spc_pos, hs.numFats_pos, hs.root_start, hs.data_start,
        hs.covered, hs.clusters, by simp only [Volume.withHint]; omega,
        by simp only [Volume.withHint]; omega⟩
    have hs₁ : ((v.withHint (c + 1)).setFat c eocMin).Sound := setFat_sound hs₀
    have hlink : linkCluster last c ((v.withHint (c + 1)).setFat c eocMin) =
        (true, if 2 ≤ last then ((v.withHint (c + 1)).setFat c eocMin).setFat last c
          else (v.withHint (c + 1)).setFat c eocMin) := by
      obtain rfl | hlast := hlast
      · simp [linkCluster]
      · rw [linkCluster, if_pos hlast.1, if_pos hlast.1]
        exact fatWriteEntry_eq hs₁ hlast c
    simp only [extendClusterChain, heq, hne, if_false, fatWriteEntry_eq hs₀ hc eocMin, hlink]
    have hr₂ : (if 2 ≤ last then ((v.withHint (c + 1)).setFat c eocMin).setFat last c
        else (v.withHint (c + 1)).setFat c eocMin).Reliable := by
      split
      · exact hs.reliable
      · exact hs.reliable
    rw [zeroSectors_eq hr₂]
    simp only [Volume.extended, Volume.zeroCluster, mem_clusterSectors]
  · refine .inr ⟨hfull, ?_⟩
    simp only [extendClusterChain, heq, if_true]

/-- Links only depend on the sectors before the root directory. -/
theorem fat_congr {v v' : Volume} (hs : v.Sound) (hg : v.SameGeometry v')
    (hdisk : ∀ lba < v.rootDirStartLba, v'.disk lba = v.disk lba) {c : ℕ} (hc : v.InRange c) :
    v'.fat c = v.fat c := by
  have hlt := hc.lt_covered hs
  have hroot := hs.root_start
  have hmul : 1 * v.bpb.sectorsPerFat ≤ v.bpb.numFats * v.bpb.sectorsPerFat :=
    Nat.mul_le_mul_right _ hs.numFats_pos
  rw [Volume.fat, Volume.fat, hg.fatStartLba, hdisk _ (by omega)]

theorem fatsAgree_congr {v v' : Volume} (hs : v.Sound) (hg : v.SameGeometry v')
    (hdisk : ∀ lba < v.rootDirStartLba, v'.disk lba = v.disk lba) (ha : v.FatsAgree) :
    v'.FatsAgree := by
  intro i hi j hj
  rw [hg.bpb] at hi hj
  rw [hg.bpb, hg.fatStartLba]
  have hroot := hs.root_start
  have hmul : (i + 1) * v.bpb.sectorsPerFat ≤ v.bpb.numFats * v.bpb.sectorsPerFat :=
    Nat.mul_le_mul_right _ hi
  rw [Nat.add_mul] at hmul
  rw [hdisk _ (by omega), hdisk _ (by omega)]
  exact ha i hi j hj

theorem setFat_sameGeometry (v : Volume) (c x : ℕ) : v.SameGeometry (v.setFat c x) :=
  .withDisk _ _

theorem withHint_sameGeometry (v : Volume) (h : ℕ) : v.SameGeometry (v.withHint h) :=
  ⟨rfl, rfl, rfl, rfl, rfl, rfl, rfl⟩

/-- Everything a caller needs to know about an extended volume. -/
structure Extended (v : Volume) (last c : ℕ) (v' : Volume) : Prop where
  geometry : v.SameGeometry v'
  sound : v'.Sound
  agree : v.FatsAgree → v'.FatsAgree
  fat : ∀ c', v.InRange c' →
    v'.fat c' = if c' = last then c else if c' = c then eocMin else v.fat c'
  disk : ∀ lba, v.rootDirStartLba ≤ lba →
    v'.disk lba = if lba ∈ clusterSectors v c then Sector.zero else v.disk lba

theorem extended_spec {v : Volume} (hs : v.Sound) {last c : ℕ} (hc : v.InRange c)
    (hlast : last = 0 ∨ v.InRange last) : Extended v last c (v.extended last c) := by
  have hc1 := hc.1
  have hc2 := hc.2
  have hcl := hs.clusters
  let v₁ := (v.withHint (c + 1)).setFat c eocMin
  have hs₀ : (v.withHint (c + 1)).Sound :=
    ⟨hs.mounted, hs.reliable, hs.spc_pos, hs.numFats_pos, hs.root_start, hs.data_start,
      hs.covered, hs.clusters, by simp only [Volume.withHint]; omega,
      by simp only [Volume.withHint]; omega⟩
  have hs₁ : v₁.Sound := setFat_sound hs₀
  let v₂ := if 2 ≤ last then v₁.setFat last c else v₁
  -- the links after the two FAT writes
  have h₂ : v₂.Sound ∧ v.SameGeometry v₂ ∧ (v.FatsAgree → v₂.FatsAgree) ∧
      (∀ c', v.InRange c' →
        v₂.fat c' = if c' = last then c else if c' = c then eocMin else v.fat c') ∧
      ∀ lba, v.rootDirStartLba ≤ lba → v₂.disk lba = v.disk lba := by
    have hfat₁ : ∀ c', v.InRange c' → v₁.fat c' = if c' = c then eocMin else v.fat c' :=
      fun c' hc' => setFat_fat hs₀ hc (by decide) hc'
    have hdisk₁ : ∀ lba, v.rootDirStartLba ≤ lba → v₁.disk lba = v.disk lba :=
      fun lba hlba => setFat_disk hs₀ hc hlba
    obtain rfl | hlast := hlast
    · refine ⟨hs₁, ?_, fun ha => setFat_fatsAgree hs₀ hc ha, fun c' hc' => ?_, hdisk₁⟩
      · exact (withHint_sameGeometry v _).trans (setFat_sameGeometry _ _ _)
      · have hne : c' ≠ 0 := by have := hc'.1; omega
        rw [if_neg hne]
        exact hfat₁ c' hc'
    · have hv₂ : v₂ = v₁.setFat last c := if_pos hlast.1
      rw [hv₂]
      refine ⟨setFat_sound hs₁, ?_, fun ha => setFat_fatsAgree hs₁ hlast
        (setFat_fatsAgree hs₀ hc ha), fun c' hc' => ?_, fun lba hlba => ?_⟩
      · exact ((withHint_sameGeometry v _).trans (setFat_sameGeometry _ _ _)).trans
          (setFat_sameGeometry _ _ _)
      · rw [setFat_fat hs₁ hlast (by omega) hc', hfat₁ c' hc']
      · rw [setFat_disk hs₁ hlast hlba, hdisk₁ lba hlba]
  obtain ⟨hs₂, hg₂, ha₂, hfat₂, hdisk₂⟩ := h₂
  have hv : v.extended last c = v₂.zeroCluster c := rfl
  have hlow : ∀ lba < v₂.rootDirStartLba, (v₂.zeroCluster c).disk lba = v₂.disk lba := by
    intro lba hlba
    refine if_neg fun hmem => ?_
    have := data_start_le_of_mem hmem
    have := hs₂.data_start
    omega
  rw [hv]
  refine ⟨hg₂.trans (.withDisk _ _), hs₂.withDisk _,
    fun ha => fatsAgree_congr hs₂ (.withDisk _ _) hlow (ha₂ ha), fun c' hc' => ?_,
    fun lba hlba => ?_⟩
  · rw [← hfat₂ c' hc']
    exact fat_congr hs₂ (.withDisk _ _) hlow (hg₂.inRange.mpr hc')
  · simp only [Volume.zeroCluster, Volume.withDisk_disk, hg₂.clusterSectors c, hdisk₂ lba hlba]

/-- The volume with all clusters of `l` free. -/
def Volume.freeAll (v : Volume) : List ℕ → Volume
  | [] => v
  | c :: l => (v.setFat c freeCluster).freeAll l

/-- Everything a caller needs to know about a volume with a chain freed. -/
structure Freed (v : Volume) (l : List ℕ) (v' : Volume) : Prop where
  geometry : v.SameGeometry v'
  sound : v'.Sound
  agree : v.FatsAgree → v'.FatsAgree
  fat : ∀ c, v.InRange c → v'.fat c = if c ∈ l then 0 else v.fat c
  disk : ∀ lba, v.rootDirStartLba ≤ lba → v'.disk lba = v.disk lba

theorem freeAll_spec {v : Volume} (hs : v.Sound) {l : List ℕ} (hl : ∀ c ∈ l, v.InRange c) :
    Freed v l (v.freeAll l) := by
  induction l generalizing v with
  | nil =>
    exact ⟨.refl v, hs, id, fun c _ => by simp [Volume.freeAll], fun _ _ => rfl⟩
  | cons a l ih =>
    have ha := hl a List.mem_cons_self
    have h := ih (v := v.setFat a freeCluster) (setFat_sound hs)
      fun c hc => hl c (List.mem_cons_of_mem _ hc)
    refine ⟨(setFat_sameGeometry _ _ _).trans h.geometry, h.sound,
      fun hag => h.agree (setFat_fatsAgree hs ha hag), fun c hc => ?_, fun lba hlba => ?_⟩
    · rw [Volume.freeAll, h.fat c hc, setFat_fat hs ha (by decide) hc]
      by_cases hca : c = a
      · simp [hca, freeCluster]
      · simp [hca]
    · rw [Volume.freeAll, h.disk lba hlba, setFat_disk hs ha hlba]

theorem freeClusterChain_stop {v : Volume} {c : ℕ} (hc : eocMin ≤ c) {fuel : ℕ} (hf : 0 < fuel) :
    freeClusterChain fuel c v = some v := by
  obtain ⟨n, rfl⟩ : ∃ n, fuel = n + 1 := ⟨fuel - 1, by omega⟩
  rw [freeClusterChain, if_neg (by omega)]

/-- Freeing a chain frees exactly its clusters. -/
theorem freeClusterChain_eq {v : Volume} (hs : v.Sound) {c : ℕ} {l : List ℕ}
    (h : IsChain v c l) {fuel : ℕ} (hfuel : l.length < fuel) :
    freeClusterChain fuel c v = some (v.freeAll l) := by
  induction l generalizing v c fuel with
  | nil => exact absurd rfl h.ne_nil
  | cons a l ih =>
    obtain ⟨t, ht⟩ := h.exists_eq_cons
    obtain ⟨rfl, rfl⟩ := List.cons.inj ht
    obtain ⟨n, rfl⟩ : ∃ n, fuel = n + 1 := ⟨fuel - 1, by omega⟩
    have ha := h.live_of_mem a List.mem_cons_self
    have hnd := h.nodup (inRange_not_eoc hs)
    rw [freeClusterChain, if_pos ⟨ha.1, Nat.lt_of_not_le (inRange_not_eoc hs a ha)⟩,
      fatReadEntry_eq hs.reliable]
    simp only [fatWriteEntry_eq hs ha]
    obtain ⟨rfl, hstop⟩ | htail := h.tail
    · exact freeClusterChain_stop hstop (by simpa using hfuel)
    · refine ih (setFat_sound hs) ?_ (by simpa using hfuel)
      -- the rest of the chain does not contain the cluster just freed
      refine htail.congr (fun x hx => ?_) fun x _ hx => hx
      have hne : x ≠ a := fun he => (List.nodup_cons.mp hnd).1 (he ▸ hx)
      rw [setFat_fat hs ha (by decide) (htail.live_of_mem x hx), if_neg hne]

end AuroraOS.Fat16
