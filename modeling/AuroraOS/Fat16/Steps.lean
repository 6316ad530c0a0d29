import AuroraOS.Fat16.Invariant

/-!
# The steps of an operation

How each thing an operation does to the disk moves the invariant: taking and freeing clusters,
writing file data, growing a directory, and opening and closing the slot that is worked on.
-/

namespace AuroraOS.Fat16

variable {v v' : Volume} {hole : Option Slot} {float : List ℕ}

theorem root_start_le_of_mem_cluster (hs : v.Sound) {c lba : ℕ} (h : lba ∈ clusterSectors v c) :
    v.rootDirStartLba ≤ lba := by
  have := data_start_le_of_mem h
  have := hs.data_start
  omega

/-- Freeing the clusters in progress. -/
theorem Inv.free_float (h : Inv v hole float) (hf : Freed v float v') :
    Inv v' hole [] ∧ Quiet hole v v' := by
  refine h.frame hf.geometry hf.sound (hf.agree h.agree) (fun d p he c hc => ?_)
    (fun d _ lba hlba => hf.disk lba (root_start_le_of_mem_dirSectors h.sound hlba))
    (fun d p _ c _ lba hlba => hf.disk lba (root_start_le_of_mem_cluster h.sound hlba))
    (fun c hc => ?_) (.inl rfl) fun _ _ _ => List.disjoint_nil_right _
  · rw [hf.fat c (h.inRange_of_mem he hc), if_neg (h.float_disjoint d p he hc)]
  · rw [hf.fat c hc]
    by_cases hmem : c ∈ float
    · rw [if_pos hmem]
      refine ⟨fun hne => absurd rfl hne, ?_⟩
      rintro (hnil | ⟨d, p, he, hc'⟩)
      · exact absurd hnil List.not_mem_nil
      · exact absurd hmem (h.float_disjoint d p he hc')
    · rw [if_neg hmem, h.used c hc]
      simp [hmem]

/-- One more cluster for the chain in progress. -/
theorem Inv.extend_float (h : Inv v hole float) {last c : ℕ} (hc : v.InRange c)
    (hfree : v.fat c = 0) (hlast : (float = [] ∧ last = 0) ∨ ∃ hne, last = float.getLast hne)
    (hx : Extended v last c v') : Inv v' hole (float ++ [c]) ∧ Quiet hole v v' := by
  -- the new cluster was free, so nobody owns it
  have hnew : ∀ d p, Entry v hole d p → c ∉ v.chainOf p :=
    fun d p he hmem => h.fat_ne_zero_of_mem he hmem hfree
  have hnewf : c ∉ float := fun hmem => h.fat_ne_zero_of_mem_float hmem hfree
  have hlastf : last = 0 ∨ last ∈ float := by
    obtain ⟨_, h0⟩ | ⟨hne, rfl⟩ := hlast
    · exact .inl h0
    · exact .inr (List.getLast_mem hne)
  have hkeep : ∀ c', v.InRange c' → c' ∉ float → c' ≠ c → v'.fat c' = v.fat c' := by
    intro c' hc' hnf hne
    have hnl : c' ≠ last := by
      obtain rfl | hmem := hlastf
      · have := hc'.1
        omega
      · exact fun he => hnf (he ▸ hmem)
    rw [hx.fat c' hc', if_neg hnl, if_neg hne]
  refine h.frame hx.geometry hx.sound (hx.agree h.agree) (fun d p he c' hc' => ?_)
    (fun d hd lba hlba => ?_) (fun d p he c' hc' lba hlba => ?_) (fun c' hc' => ?_) (.inr ?_)
    fun d p he => ?_
  · exact hkeep c' (h.inRange_of_mem he hc') (h.float_disjoint d p he hc')
      fun hcc => hnew d p he (hcc ▸ hc')
  · rw [hx.disk lba (root_start_le_of_mem_dirSectors h.sound hlba),
      if_neg (h.dirSector_not_mem_cluster hd hlba hc hnew)]
  · rw [hx.disk lba (root_start_le_of_mem_cluster h.sound hlba), if_neg fun hmem => ?_]
    have hcc := eq_of_mem_clusterSectors hc.1 (h.inRange_of_mem he hc').1 hmem hlba
    exact hnew d p he (hcc ▸ hc')
  · rw [hx.fat c' hc', List.mem_append, List.mem_singleton]
    have hc2 := hc.1
    by_cases hcl : c' = last
    · rw [if_pos hcl]
      obtain h0 | hmem := hlastf
      · have := hc'.1
        omega
      · exact ⟨fun _ => .inl (.inl (hcl ▸ hmem)), fun _ => by omega⟩
    · rw [if_neg hcl]
      by_cases hcc : c' = c
      · rw [if_pos hcc]
        exact ⟨fun _ => .inl (.inr hcc), fun _ => by simp [eocMin]⟩
      · rw [if_neg hcc, h.used c' hc']
        simp [hcc]
  · have hstop : eocMin ≤ v'.fat c := by
      have hcl : c ≠ last := by
        obtain rfl | hmem := hlastf
        · have := hc.1
          omega
        · exact fun he => hnewf (he ▸ hmem)
      rw [hx.fat c hc, if_neg hcl, if_pos rfl]
    have hc' : v'.InRange c := hx.geometry.inRange.mpr hc
    obtain ⟨rfl, _⟩ | ⟨hne, rfl⟩ := hlast
    · exact ⟨c, .last hc' hstop⟩
    · obtain hnil | ⟨a, ha⟩ := h.float_chain
      · exact absurd hnil hne
      · have ha' : Lib.LinkedChain v.fat v'.InRange (eocMin ≤ ·) a float :=
          ha.congr (fun _ _ => rfl) fun x _ hx' => hx.geometry.inRange.mpr hx'
        refine ⟨a, ha'.concat (inRange_not_eoc hx.sound) hne hc' ?_ hstop fun x hxm hxl => ?_⟩
        · rw [hx.fat _ (ha.live_of_mem _ (List.getLast_mem hne)), if_pos rfl]
        · rw [hx.fat x (ha.live_of_mem x hxm), if_neg hxl,
            if_neg fun he : x = c => hnewf (he ▸ hxm)]
  · exact List.disjoint_append_right.mpr
      ⟨h.float_disjoint d p he, List.disjoint_singleton.mpr (hnew d p he)⟩

/-- Writing data into clusters in progress. -/
theorem Inv.write_float (h : Inv v hole float) (hg : v.SameGeometry v') (hs : v'.Sound)
    (ha : v'.FatsAgree) (hfat : ∀ c, v.InRange c → v'.fat c = v.fat c)
    (hdisk : ∀ lba, v.rootDirStartLba ≤ lba → (∀ c ∈ float, lba ∉ clusterSectors v c) →
      v'.disk lba = v.disk lba) : Inv v' hole float ∧ Quiet hole v v' := by
  refine h.frame hg hs ha (fun d p he c hc => hfat c (h.inRange_of_mem he hc))
    (fun d hd lba hlba => ?_) (fun d p he c hc lba hlba => ?_) (fun c hc => ?_) ?_
    h.float_disjoint
  · refine hdisk lba (root_start_le_of_mem_dirSectors h.sound hlba) fun c hc => ?_
    exact h.dirSector_not_mem_cluster hd hlba (h.inRange_of_mem_float hc)
      fun d p he hmem => h.float_disjoint d p he hmem hc
  · refine hdisk lba (root_start_le_of_mem_cluster h.sound hlba) fun c' hc' hmem => ?_
    have hcc := eq_of_mem_clusterSectors (h.inRange_of_mem_float hc').1
      (h.inRange_of_mem he hc).1 hmem hlba
    exact h.float_disjoint d p he hc (hcc ▸ hc')
  · rw [hfat c hc, h.used c hc]
  · refine h.float_chain.imp_right fun ⟨c, hch⟩ => ⟨c, ?_⟩
    exact hch.congr (fun x hx => hfat x (hch.live_of_mem x hx))
      fun x _ hx => hg.inRange.mpr hx

/-- A directory grows by one zeroed cluster behind its last one. -/
theorem Inv.extend_dir (h : Inv v none []) {d last c : ℕ} (hd : ReachDir v none d) (h0 : d ≠ 0)
    (hne : clusterChain v d ≠ []) (hlast : last = (clusterChain v d).getLast hne)
    (hc : v.InRange c) (hfree : v.fat c = 0) (hx : Extended v last c v') :
    Inv v' none [] ∧ Keeps none d v v' ∧
      dirSlots v' d = dirSlots v d ++ (clusterSectors v c).flatMap sectorSlots := by
  obtain ⟨e, q, hq, hqdir, hqfc, hqch, hqeq⟩ := h.reachDir_isChain hd h0
  have hnew : ∀ d p, Entry v none d p → c ∉ v.chainOf p :=
    fun d p he hmem => h.fat_ne_zero_of_mem he hmem hfree
  have hlastmem : last ∈ v.chainOf q := by
    rw [hlast, ← hqeq]
    exact List.getLast_mem hne
  have hdirent : ∀ d, ReachDir v none d → ∀ p ∈ dirSlots v d, v'.dirent p = v.dirent p := by
    intro d hd p hp
    have hsec := (mem_dirSlots.mp hp).1
    refine Volume.dirent_congr ?_
    rw [hx.disk _ (root_start_le_of_mem_dirSectors h.sound hsec),
      if_neg (h.dirSector_not_mem_cluster hd hsec hc hnew)]
  -- only the entry of the directory itself gets another chain
  have hother : ∀ d p, Entry v none d p → p ≠ q → v'.chainOf p = v.chainOf p ∧
      (IsChain v (v.dirent p).firstCluster (v.chainOf p) →
        IsChain v' (v'.dirent p).firstCluster (v'.chainOf p)) := by
    intro d p he hpq
    refine h.chainOf_congr hx.geometry hx.sound he (hdirent d he.reach p he.live.1)
      fun c' hc' => ?_
    have hcl : c' ≠ last := fun heq => h.disjoint d p e q he hq hpq hc' (heq ▸ hlastmem)
    have hcc : c' ≠ c := fun heq => hnew d p he (heq ▸ hc')
    rw [hx.fat c' (h.inRange_of_mem he hc'), if_neg hcl, if_neg hcc]
  have hqd : v'.dirent q = v.dirent q := hdirent e hq.reach q hq.live.1
  have hself : IsChain v' d (v.chainOf q ++ [c]) := by
    have hne' : v.chainOf q ≠ [] := hqeq ▸ hne
    have hlast' : last = (v.chainOf q).getLast hne' := by
      rw [hlast]
      simp only [hqeq]
    have hqch' : Lib.LinkedChain v.fat v'.InRange (eocMin ≤ ·) d (v.chainOf q) :=
      hqch.congr (fun _ _ => rfl) fun x _ hx' => hx.geometry.inRange.mpr hx'
    refine hqch'.concat (inRange_not_eoc hx.sound) hne' (hx.geometry.inRange.mpr hc) ?_ ?_
      fun x hxm hxl => ?_
    · rw [← hlast', hx.fat last (h.inRange_of_mem hq hlastmem), if_pos rfl]
    · have hcl : c ≠ last := fun heq => hnew e q hq (heq ▸ hlastmem)
      rw [hx.fat c hc, if_neg hcl, if_pos rfl]
    · have hcc : x ≠ c := fun heq => hnew e q hq (heq ▸ hxm)
      rw [hx.fat x (h.inRange_of_mem hq hxm), if_neg (hlast' ▸ hxl), if_neg hcc]
  have hselfeq : v'.chainOf q = v.chainOf q ++ [c] := by
    rw [Volume.chainOf, hqd, hqfc]
    exact hself.clusterChain_eq hx.sound
  have hslotsd : dirSlots v' d = dirSlots v d ++ (clusterSectors v c).flatMap sectorSlots := by
    have hfun : clusterSectors v' = clusterSectors v := funext hx.geometry.clusterSectors
    have hch' : clusterChain v' d = clusterChain v d ++ [c] := by
      rw [hself.clusterChain_eq hx.sound, hqeq]
    simp only [dirSlots, dirSectors, if_neg h0, hch', hfun, List.flatMap_append,
      List.flatMap_singleton]
  have hslots : ∀ d', ReachDir v none d' → d' ≠ d → dirSlots v' d' = dirSlots v d' := by
    intro d' hd' hdd
    by_cases h0' : d' = 0
    · subst h0'
      exact hx.geometry.dirSlots_congr rfl
    · obtain ⟨e', q', hq', _, hfc', _, hch'⟩ := h.reachDir_isChain hd' h0'
      have hqq : q' ≠ q := fun heq => hdd (by rw [← hfc', ← hqfc, heq])
      refine hx.geometry.dirSlots_congr ?_
      rw [hch', ← (hother e' q' hq' hqq).1, Volume.chainOf, hdirent e' hq'.reach q' hq'.live.1,
        hfc']
  have hends : ∀ p ∈ (clusterSectors v c).flatMap sectorSlots, (v'.dirent p).isEnd = true := by
    intro p hp
    obtain ⟨lba, hlba, hpm⟩ := List.mem_flatMap.mp hp
    obtain ⟨rfl, _⟩ := mem_sectorSlots.mp hpm
    rw [Volume.dirent, hx.disk _ (root_start_le_of_mem_cluster h.sound hlba), if_pos hlba]
    exact read_zero_isEnd _
  have hk : Keeps none d v v' := by
    refine ⟨hx.geometry, fun d' hd' => ?_, fun d' hd' p hp _ => hdirent d' hd' p hp,
      fun d' p he hout => ?_, fun d' p he _ c' hc' lba hlba => ?_⟩
    · by_cases hdd : d' = d
      · subst hdd
        exact ⟨_, hslotsd, fun p hp => ⟨hends p hp, by simp⟩⟩
      · exact ⟨[], by simp [hslots d' hd' hdd], by simp⟩
    · have hpq : p ≠ q := by
        rintro rfl
        exact hout hqdir hqfc
      exact (hother d' p he hpq).1
    · rw [hx.disk lba (root_start_le_of_mem_cluster h.sound hlba), if_neg fun hmem => ?_]
      have hcc := eq_of_mem_clusterSectors hc.1 (h.inRange_of_mem he hc').1 hmem hlba
      exact hnew d' p he (hcc ▸ hc')
  -- a cluster of an entry after the step is one of before, or the new one
  have hmem : ∀ d' p, Entry v none d' p → ∀ c',
      c' ∈ v'.chainOf p ↔ c' ∈ v.chainOf p ∨ (p = q ∧ c' = c) := by
    intro d' p he c'
    by_cases hpq : p = q
    · subst hpq
      simp [hselfeq]
    · simp [(hother d' p he hpq).1, hpq]
  refine ⟨⟨hx.sound, hx.agree h.agree, fun d' p he => ?_, fun d' p he => ?_,
    fun d' p d'' p' he he' hpp => ?_, fun c' hc' => ?_,
    fun d' p p' he he' hname => ?_, fun d' hd' => ?_, .inl rfl,
    fun _ _ _ => List.disjoint_nil_right _⟩, hk, hslotsd⟩
  · have he := hk.entry_iff.mpr he
    rw [hk.dirent_of_entry he]
    exact h.plain d' p he
  · have he := hk.entry_iff.mpr he
    by_cases hpq : p = q
    · subst hpq
      refine .inr ?_
      rw [hqd, hqfc, hselfeq]
      exact hself
    · refine (h.chained d' p he).imp (fun hz => ?_) (hother d' p he hpq).2
      rwa [hk.dirent_of_entry he]
  · have he := hk.entry_iff.mpr he
    have he' := hk.entry_iff.mpr he'
    intro c' hc' hc''
    rw [hmem d' p he] at hc'
    rw [hmem d'' p' he'] at hc''
    obtain hc' | ⟨rfl, rfl⟩ := hc'
    · obtain hc'' | ⟨rfl, rfl⟩ := hc''
      · exact h.disjoint d' p d'' p' he he' hpp hc' hc''
      · exact hnew d' p he hc'
    · obtain hc'' | ⟨rfl, _⟩ := hc''
      · exact hnew d'' p' he' hc''
      · exact hpp rfl
  · have hc'v := hx.geometry.inRange.mp hc'
    have hc2 := hc.1
    simp only [List.not_mem_nil, false_or]
    rw [hx.fat c' hc'v]
    constructor
    · intro hne0
      by_cases hcl : c' = last
      · exact ⟨e, q, hk.entry_iff.mp hq, (hmem e q hq c').mpr (.inl (hcl ▸ hlastmem))⟩
      · by_cases hcc : c' = c
        · exact ⟨e, q, hk.entry_iff.mp hq, (hmem e q hq c').mpr (.inr ⟨rfl, hcc⟩)⟩
        · rw [if_neg hcl, if_neg hcc, h.used c' hc'v] at hne0
          obtain hnil | ⟨d', p, he, hin⟩ := hne0
          · exact absurd hnil List.not_mem_nil
          · exact ⟨d', p, hk.entry_iff.mp he, (hmem d' p he c').mpr (.inl hin)⟩
    · rintro ⟨d', p, he, hin⟩
      have he := hk.entry_iff.mpr he
      by_cases hcl : c' = last
      · rw [if_pos hcl]
        omega
      · rw [if_neg hcl]
        obtain hin | ⟨_, hcc⟩ := (hmem d' p he c').mp hin
        · rw [if_neg fun hcc : c' = c => hnew d' p he (hcc ▸ hin)]
          exact h.fat_ne_zero_of_mem he hin
        · rw [if_pos hcc]
          simp [eocMin]
  · have he := hk.entry_iff.mpr he
    have he' := hk.entry_iff.mpr he'
    rw [hk.dirent_of_entry he, hk.dirent_of_entry he'] at hname
    exact h.names d' p p' he he' hname
  · have hd' := hk.reachDir_iff.mpr hd'
    have hold : (dirSlots v d').Pairwise fun p q =>
        (v'.dirent p).isEnd = true → (v'.dirent q).isEnd = true := by
      refine (h.ends d' hd').imp_of_mem fun {p p'} hp hp' hpp => ?_
      rwa [hdirent d' hd' p hp, hdirent d' hd' p' hp']
    obtain ⟨ext, heq, hext⟩ := hk.slots d' hd'
    rw [heq]
    refine List.pairwise_append.mpr ⟨hold, ?_, fun _ _ p' hp' _ => (hext p' hp').1⟩
    exact List.pairwise_of_forall_mem_list fun _ _ p' hp' _ => (hext p' hp').1

/-- Without a slot that is not in use the volume has the same entries. -/
theorem entry_some_iff_of_not_inUse {p : Slot} (hp : (v.dirent p).inUse = false) {d : ℕ}
    {q : Slot} : Entry v (some p) d q ↔ Entry v none d q := by
  have hlive : ∀ d q, Live v d q → some p ≠ some q := by
    rintro d q ⟨_, huse⟩ heq
    obtain rfl := Option.some.inj heq
    rw [hp] at huse
    exact absurd huse (by simp)
  have hreach : ∀ d, ReachDir v (some p) d ↔ ReachDir v none d := by
    intro d
    refine Lib.Reach.congr (fun d _ q => ?_) fun _ _ _ _ => rfl
    exact ⟨fun hq => ⟨hq.1, by simp⟩, fun hq => ⟨hq.1, hlive d q hq.1⟩⟩
  constructor
  · rintro ⟨hd, hl, _⟩
    exact ⟨(hreach d).mp hd, hl, by simp⟩
  · rintro ⟨hd, hl, _⟩
    exact ⟨(hreach d).mpr hd, hl, hlive d q hl⟩

/-- A slot leads nowhere, or to a directory without entries. -/
def LeafSlot (v : Volume) (p : Slot) : Prop :=
  (v.dirent p).isDir = true → ∀ q, ¬ Live v (v.dirent p).firstCluster q

theorem LeafSlot.child {p : Slot} (h : LeafSlot v p) {c : ℕ} (hc : v.child p = some c) :
    ∀ q, ¬ Live v c q := by
  simp only [Volume.child] at hc
  split at hc
  · next hdir =>
    obtain rfl := Option.some.inj hc
    exact h hdir
  · exact absurd hc (by simp)

/-- Reachability with and without the slot of a leaf. -/
theorem reachDir_none_iff {p : Slot} {d : ℕ} (hd : ReachDir v none d) (hp : Live v d p)
    (hleaf : LeafSlot v p) (d' : ℕ) :
    ReachDir v none d' ↔ ReachDir v (some p) d' ∨ v.child p = some d' := by
  have hnone : ∀ d', ReachDir v none d' ↔ Lib.Reach (Live v) v.child 0 d' := fun d' =>
    Lib.Reach.congr (fun _ _ q => ⟨fun hq => hq.1, fun hq => ⟨hq, by simp⟩⟩) fun _ _ _ _ => rfl
  have hsome : ∀ d', ReachDir v (some p) d' ↔
      Lib.Reach (fun d q => Live v d q ∧ q ≠ p) v.child 0 d' := fun d' =>
    Lib.Reach.congr (fun _ _ q => and_congr_right fun _ =>
      ⟨fun hne heq => hne (by rw [heq]), fun hne heq => hne (Option.some.inj heq).symm⟩)
      fun _ _ _ _ => rfl
  rw [hnone, hsome]
  exact Lib.reach_iff_of_remove ((hnone d).mp hd) hp (fun c hc q => hleaf.child hc q) d'

/-- The entries are those outside a leaf's slot and the leaf itself. -/
theorem entry_none_iff {p : Slot} {d : ℕ} (hd : ReachDir v none d) (hp : Live v d p)
    (hleaf : LeafSlot v p) {d' : ℕ} {q : Slot} :
    Entry v none d' q ↔ Entry v (some p) d' q ∨ (q = p ∧ ReachDir v none d' ∧ Live v d' p) := by
  constructor
  · rintro ⟨hd', hl, _⟩
    by_cases hqp : q = p
    · subst hqp
      exact .inr ⟨rfl, hd', hl⟩
    · refine .inl ⟨?_, hl, fun heq => hqp (Option.some.inj heq).symm⟩
      obtain hd' | hc := (reachDir_none_iff hd hp hleaf d').mp hd'
      · exact hd'
      · exact absurd hl (hleaf.child hc q)
  · rintro (⟨hd', hl, _⟩ | ⟨rfl, hd', hl⟩)
    · exact ⟨(reachDir_none_iff hd hp hleaf d').mpr (.inl hd'), hl, by simp⟩
    · exact ⟨hd', hl, by simp⟩

/-- The directory of a leaf stays reachable without it. -/
theorem reachDir_some_of_live {p : Slot} {d : ℕ} (hd : ReachDir v none d) (hp : Live v d p)
    (hleaf : LeafSlot v p) : ReachDir v (some p) d := by
  obtain hd | hc := (reachDir_none_iff hd hp hleaf d).mp hd
  · exact hd
  · exact absurd hp (hleaf.child hc p)

/-- Starting to work on an unused slot. -/
theorem Inv.open_free (h : Inv v none []) {p : Slot} (hp : (v.dirent p).inUse = false) :
    Inv v (some p) [] := by
  have hiff := fun d q => entry_some_iff_of_not_inUse hp (d := d) (q := q)
  have hreach : ∀ d, ReachDir v (some p) d → ReachDir v none d :=
    fun d hd => hd.mono fun _ _ _ hq => ⟨⟨hq.1, by simp⟩, rfl⟩
  refine ⟨h.sound, h.agree, fun d q he => h.plain d q ((hiff d q).mp he),
    fun d q he => h.chained d q ((hiff d q).mp he),
    fun d q d' q' he he' => h.disjoint d q d' q' ((hiff d q).mp he) ((hiff d' q').mp he'),
    fun c hc => ?_, fun d q q' he he' => h.names d q q' ((hiff d q).mp he) ((hiff d q').mp he'),
    fun d hd => h.ends d (hreach d hd), .inl rfl, fun _ _ _ => List.disjoint_nil_right _⟩
  simpa only [hiff] using h.used c hc

/-- Starting to work on the slot of a file or of an empty directory: its clusters now belong to
    the operation. -/
theorem Inv.open_entry (h : Inv v none []) {d : ℕ} {p : Slot} (he : Entry v none d p)
    (hleaf : LeafSlot v p) : Inv v (some p) (v.chainOf p) := by
  have hiff : ∀ d' q, Entry v none d' q ↔
      Entry v (some p) d' q ∨ (q = p ∧ ReachDir v none d' ∧ Live v d' p) :=
    fun _ _ => entry_none_iff he.reach he.live hleaf
  have hup : ∀ d' q, Entry v (some p) d' q → Entry v none d' q :=
    fun d' q hq => (hiff d' q).mpr (.inl hq)
  have hne : ∀ d' q, Entry v (some p) d' q → q ≠ p :=
    fun d' q hq heq => hq.ne (by rw [heq])
  have hreach : ∀ d, ReachDir v (some p) d → ReachDir v none d :=
    fun d hd => hd.mono fun _ _ _ hq => ⟨⟨hq.1, by simp⟩, rfl⟩
  refine ⟨h.sound, h.agree, fun d' q hq => h.plain d' q (hup d' q hq),
    fun d' q hq => h.chained d' q (hup d' q hq),
    fun d₁ q₁ d₂ q₂ h₁ h₂ => h.disjoint d₁ q₁ d₂ q₂ (hup _ _ h₁) (hup _ _ h₂),
    fun c hc => ?_, fun d' q q' hq hq' => h.names d' q q' (hup _ _ hq) (hup _ _ hq'),
    fun d' hd' => h.ends d' (hreach d' hd'), ?_,
    fun d' q hq => h.disjoint d' q d p (hup _ _ hq) he (hne d' q hq)⟩
  · rw [h.used c hc]
    simp only [List.not_mem_nil, false_or]
    constructor
    · rintro ⟨d', q, hq, hmem⟩
      obtain hq | ⟨rfl, _⟩ := (hiff d' q).mp hq
      · exact .inr ⟨d', q, hq, hmem⟩
      · exact .inl hmem
    · rintro (hmem | ⟨d', q, hq, hmem⟩)
      · exact ⟨d, p, he, hmem⟩
      · exact ⟨d', q, hup _ _ hq, hmem⟩
  · obtain ⟨hz, _⟩ | hch := h.chained d p he
    · left
      rw [Volume.chainOf, hz, clusterChain_zero]
    · exact .inr ⟨_, hch⟩

/-- Only slot `p` was rewritten. -/
structure SlotWritten (v : Volume) (p : Slot) (v' : Volume) : Prop where
  geometry : v.SameGeometry v'
  sound : v'.Sound
  agree : v.FatsAgree → v'.FatsAgree
  fat : ∀ c, v.InRange c → v'.fat c = v.fat c
  disk : ∀ lba, lba ≠ p.sectorLba → v'.disk lba = v.disk lba
  dirent : ∀ q : Slot, q.indexInSector < 16 → q ≠ p → v'.dirent q = v.dirent q

theorem setSector_slotWritten (hs : v.Sound) {p : Slot} (hp : v.rootDirStartLba ≤ p.sectorLba)
    {buf : Sector} (hdirent : ∀ q : Slot, q.indexInSector < 16 → q ≠ p →
      (v.setSector p.sectorLba buf).dirent q = v.dirent q) :
    SlotWritten v p (v.setSector p.sectorLba buf) := by
  have hdisk : ∀ lba, lba ≠ p.sectorLba → (v.setSector p.sectorLba buf).disk lba = v.disk lba :=
    fun lba hne => Function.update_of_ne hne _ _
  have hlow : ∀ lba < v.rootDirStartLba, (v.setSector p.sectorLba buf).disk lba = v.disk lba :=
    fun lba hlba => hdisk lba (by omega)
  exact ⟨.withDisk _ _, hs.withDisk _, fatsAgree_congr hs (.withDisk _ _) hlow,
    fun c hc => fat_congr hs (.withDisk _ _) hlow hc, hdisk, hdirent⟩

theorem setDirent_slotWritten (hs : v.Sound) {p : Slot} (hp : v.rootDirStartLba ≤ p.sectorLba)
    (hi : p.indexInSector < 16) (e : Dirent) : SlotWritten v p (v.setDirent p e) :=
  setSector_slotWritten hs hp fun q hq hne => by
    have h := Volume.setDirent_dirent (v := v) hi hq e
    rwa [if_neg hne] at h

theorem markDeleted_slotWritten (hs : v.Sound) {p : Slot} (hp : v.rootDirStartLba ≤ p.sectorLba)
    (hi : p.indexInSector < 16) : SlotWritten v p (v.markDeleted p) :=
  setSector_slotWritten hs hp fun q hq hne => by
    have h := Volume.markDeleted_dirent (v := v) hi hq
    rwa [if_neg hne] at h

/-- A reachable directory has no slot twice. -/
theorem Inv.dirSlots_nodup (h : Inv v hole float) {d : ℕ} (hd : ReachDir v hole d) :
    (dirSlots v d).Nodup := by
  have hslots : ∀ lba, (sectorSlots lba).Nodup := fun lba =>
    List.nodup_range.map fun i j hij => (Slot.mk.inj hij).2
  have hsectors : (dirSectors v d).Nodup := by
    by_cases h0 : d = 0
    · subst h0
      exact List.nodup_range.map fun i j hij => Nat.add_left_cancel hij
    · obtain ⟨e, q, hq, _, _, hch, heq⟩ := h.reachDir_isChain hd h0
      rw [dirSectors, if_neg h0, heq, List.nodup_flatMap]
      refine ⟨fun c _ => List.nodup_range.map fun i j hij => Nat.add_left_cancel hij, ?_⟩
      refine (hch.nodup (inRange_not_eoc h.sound)).imp_of_mem fun {c c'} hc hc' hne lba hl hl' => ?_
      exact hne (eq_of_mem_clusterSectors (hch.live_of_mem c hc).1
        (hch.live_of_mem c' hc').1 hl hl')
  rw [dirSlots, List.nodup_flatMap]
  refine ⟨fun lba _ => hslots lba, hsectors.imp fun {l l'} hne p hp hp' => hne ?_⟩
  exact (mem_sectorSlots.mp hp).1.symm.trans (mem_sectorSlots.mp hp').1

section close

variable {p : Slot} {d : ℕ}

/-- Rewriting the slot that is worked on changes nothing outside it. -/
theorem SlotWritten.keeps (hw : SlotWritten v p v') (h : Inv v (some p) float)
    (hd : ReachDir v (some p) d) (hp : p ∈ dirSlots v d) :
    Keeps (some p) d v v' ∧
      (∀ d', ReachDir v (some p) d' → dirSlots v' d' = dirSlots v d') ∧
      ∀ d' q, Entry v (some p) d' q → v'.chainOf q = v.chainOf q ∧
        (IsChain v (v.dirent q).firstCluster (v.chainOf q) →
          IsChain v' (v'.dirent q).firstCluster (v'.chainOf q)) := by
  have hsec := (mem_dirSlots.mp hp).1
  have hdirent : ∀ d', ReachDir v (some p) d' → ∀ q ∈ dirSlots v d', some p ≠ some q →
      v'.dirent q = v.dirent q :=
    fun d' _ q hq hne => hw.dirent q (mem_dirSlots.mp hq).2 fun heq => hne (by rw [heq])
  have hchain : ∀ d' q, Entry v (some p) d' q → v'.chainOf q = v.chainOf q ∧
      (IsChain v (v.dirent q).firstCluster (v.chainOf q) →
        IsChain v' (v'.dirent q).firstCluster (v'.chainOf q)) :=
    fun d' q he => h.chainOf_congr hw.geometry hw.sound he
      (hdirent d' he.reach q he.live.1 he.ne)
      fun c hc => hw.fat c (h.inRange_of_mem he hc)
  have hslots : ∀ d', ReachDir v (some p) d' → dirSlots v' d' = dirSlots v d' := by
    intro d' hd'
    by_cases h0 : d' = 0
    · subst h0
      exact hw.geometry.dirSlots_congr rfl
    · obtain ⟨e, q, hq, _, hfc, _, heq⟩ := h.reachDir_isChain hd' h0
      refine hw.geometry.dirSlots_congr ?_
      rw [heq, ← (hchain e q hq).1, Volume.chainOf, hdirent e hq.reach q hq.live.1 hq.ne, hfc]
  refine ⟨⟨hw.geometry, fun d' hd' => ⟨[], by simp [hslots d' hd'], by simp⟩, hdirent,
    fun d' q he _ => (hchain d' q he).1, fun d' q he hout c hc lba hlba => ?_⟩, hslots, hchain⟩
  -- the sector of the slot belongs to the directory `d`
  refine hw.disk lba ?_
  rintro rfl
  obtain ⟨_, hlt⟩ | ⟨e, q', hq', hdir, hfc, c', hc', hmem⟩ := h.dirSector_cases hd hsec
  · have := data_start_le_of_mem hlba
    omega
  · have hcc := eq_of_mem_clusterSectors (h.inRange_of_mem he hc).1
      (h.inRange_of_mem hq' hc').1 hlba hmem
    have hne : q ≠ q' := by
      rintro rfl
      exact hout hdir hfc
    exact h.disjoint d' q e q' he hq' hne hc (hcc ▸ hc')

/-- End markers stay at the end when a slot behind no end marker is rewritten. -/
theorem SlotWritten.ends (hw : SlotWritten v p v') (h : Inv v (some p) float)
    (hd : ReachDir v (some p) d) {l₁ l₂ : List Slot} (hsplit : dirSlots v d = l₁ ++ p :: l₂)
    (hprev : ∀ q ∈ l₁, (v.dirent q).isEnd = false) (hend : (v'.dirent p).isEnd = false) {d' : ℕ}
    (hd' : ReachDir v (some p) d') :
    (dirSlots v d').Pairwise fun p q =>
    (v'.dirent p).isEnd = true → (v'.dirent q).isEnd = true := by
  have hp : p ∈ dirSlots v d := by simp [hsplit]
  have hold := h.ends d' hd'
  by_cases hdd : d' = d
  · subst hdd
    have hnd := h.dirSlots_nodup hd'
    have hidx : ∀ q ∈ dirSlots v d', q.indexInSector < 16 := fun q hq => (mem_dirSlots.mp hq).2
    rw [hsplit] at hnd hold hidx ⊢
    have hp₂ : p ∉ l₂ := (List.nodup_cons.mp hnd.of_append_right).1
    have hfront : ∀ q ∈ l₁, (v'.dirent q).isEnd = false := by
      intro q hq
      by_cases hqp : q = p
      · rw [hqp]
        exact hend
      · rw [hw.dirent q (hidx q (List.mem_append_left _ hq)) hqp]
        exact hprev q hq
    have hback : l₂.Pairwise fun p q =>
      (v'.dirent p).isEnd = true → (v'.dirent q).isEnd = true := by
      have hold₂ := (List.pairwise_append.mp hold).2.1.of_cons
      have hsame : ∀ q ∈ l₂, v'.dirent q = v.dirent q := fun q hq =>
        hw.dirent q (hidx q (by simp [hq])) fun heq => hp₂ (heq ▸ hq)
      refine hold₂.imp_of_mem fun {a b} ha hb hab => ?_
      rwa [hsame a ha, hsame b hb]
    refine List.pairwise_append.mpr ⟨?_, List.pairwise_cons.mpr ⟨?_, hback⟩, ?_⟩
    · refine List.pairwise_of_forall_mem_list fun a ha _ _ hae => ?_
      rw [hfront a ha] at hae
      exact absurd hae (by simp)
    · intro _ _ hpe
      rw [hend] at hpe
      exact absurd hpe (by simp)
    · intro a ha _ _ hae
      rw [hfront a ha] at hae
      exact absurd hae (by simp)
  · refine hold.imp_of_mem fun {a b} ha hb hab => ?_
    have hsame : ∀ q ∈ dirSlots v d', v'.dirent q = v.dirent q := fun q hq =>
      hw.dirent q (mem_dirSlots.mp hq).2 fun heq =>
        hdd (h.dir_unique hd' hd (mem_dirSlots.mp hq).1 (heq ▸ (mem_dirSlots.mp hp).1))
    rwa [hsame a ha, hsame b hb]

/-- Marking the slot that is worked on as deleted ends the operation. -/
theorem Inv.mark_deleted (h : Inv v (some p) []) (hd : ReachDir v (some p) d)
    {l₁ l₂ : List Slot} (hsplit : dirSlots v d = l₁ ++ p :: l₂)
    (hprev : ∀ q ∈ l₁, (v.dirent q).isEnd = false) :
    Inv (v.markDeleted p) none [] ∧ Keeps (some p) d v (v.markDeleted p) ∧
      (∀ d' q, Entry (v.markDeleted p) none d' q ↔ Entry v (some p) d' q) ∧
      ((v.markDeleted p).dirent p).inUse = false := by
  have hp : p ∈ dirSlots v d := by simp [hsplit]
  obtain ⟨hsec, hi⟩ := mem_dirSlots.mp hp
  have hw := markDeleted_slotWritten h.sound (root_start_le_of_mem_dirSectors h.sound hsec) hi
  obtain ⟨hk, hslots, hchain⟩ := hw.keeps h hd hp
  have hdel : getElem ((v.markDeleted p).dirent p).name 0 zero_lt_eleven = 0xE5 := by
    rw [Volume.markDeleted_dirent hi hi, if_pos rfl]
    simp
  have hend : ((v.markDeleted p).dirent p).isEnd = false := by simp [Dirent.isEnd, hdel]
  have huse : ((v.markDeleted p).dirent p).inUse = false := by
    simp [Dirent.inUse, Dirent.isDeleted, hdel]
  have hiff : ∀ d' q, Entry (v.markDeleted p) none d' q ↔ Entry v (some p) d' q := fun d' q =>
    (entry_some_iff_of_not_inUse huse).symm.trans hk.entry_iff.symm
  refine ⟨⟨hw.sound, hw.agree h.agree, fun d' q he => ?_,
    fun d' q he => ?_, fun d₁ q₁ d₂ q₂ h₁ h₂ hne => ?_, fun c hc => ?_,
    fun d' q q' hq hq' hname => ?_, fun d' hd' => ?_, .inl rfl,
    fun _ _ _ => List.disjoint_nil_right _⟩, hk, hiff, huse⟩
  · have he := (hiff d' q).mp he
    rw [hk.dirent_of_entry he]
    exact h.plain d' q he
  · have he := (hiff d' q).mp he
    refine (h.chained d' q he).imp (fun hz => ?_) (hchain d' q he).2
    rwa [hk.dirent_of_entry he]
  · have h₁ := (hiff d₁ q₁).mp h₁
    have h₂ := (hiff d₂ q₂).mp h₂
    rw [(hchain d₁ q₁ h₁).1, (hchain d₂ q₂ h₂).1]
    exact h.disjoint d₁ q₁ d₂ q₂ h₁ h₂ hne
  · rw [hw.fat c hc, h.used c hc]
    refine or_congr_right ⟨?_, ?_⟩
    · rintro ⟨d', q, he, hmem⟩
      exact ⟨d', q, (hiff d' q).mpr he, by rwa [(hchain d' q he).1]⟩
    · rintro ⟨d', q, he, hmem⟩
      have he := (hiff d' q).mp he
      exact ⟨d', q, he, by rwa [(hchain d' q he).1] at hmem⟩
  · have hq := (hiff d' q).mp hq
    have hq' := (hiff d' q').mp hq'
    rw [hk.dirent_of_entry hq, hk.dirent_of_entry hq'] at hname
    exact h.names d' q q' hq hq' hname
  · have hd' : ReachDir v (some p) d' := by
      obtain rfl | ⟨e, q, he, hdir, rfl⟩ := hd'.cases
      · exact reachDir_root
      · have he' := (hiff e q).mp he
        have hsame := hk.dirent_of_entry he'
        rw [hsame] at hdir ⊢
        exact he'.reach_sub hdir
    rw [hslots d' hd']
    exact hw.ends h hd hsplit hprev hend hd'

/-- An entry that may be written into the slot that is worked on: it takes over the clusters in
    progress. -/
structure Fits (v : Volume) (p : Slot) (float : List ℕ) (d : ℕ) (e : Dirent) : Prop where
  inUse : e.inUse = true
  plain : e.isVolumeId = false
  chain : (e.firstCluster = 0 ∧ e.isDir = false ∧ float = []) ∨ IsChain v e.firstCluster float
  empty : e.isDir = true → ∀ c ∈ float, ∀ lba ∈ clusterSectors v c, v.disk lba = Sector.zero
  name : ∀ q, Entry v (some p) d q → (v.dirent q).name ≠ e.name

/-- Writing a fitting entry into the slot that is worked on ends the operation. -/
theorem Inv.write_entry (h : Inv v (some p) float) (hd : ReachDir v (some p) d)
    {l₁ l₂ : List Slot} (hsplit : dirSlots v d = l₁ ++ p :: l₂)
    (hprev : ∀ q ∈ l₁, (v.dirent q).isEnd = false) {e : Dirent} (hfit : Fits v p float d e) :
    Inv (v.setDirent p e) none [] ∧ Keeps (some p) d v (v.setDirent p e) ∧
      (∀ d' q, Entry (v.setDirent p e) none d' q ↔ Entry v (some p) d' q ∨ (q = p ∧ d' = d)) ∧
      (v.setDirent p e).dirent p = e ∧ (v.setDirent p e).chainOf p = float := by
  have hp : p ∈ dirSlots v d := by simp [hsplit]
  obtain ⟨hsec, hi⟩ := mem_dirSlots.mp hp
  have hw := setDirent_slotWritten h.sound (root_start_le_of_mem_dirSectors h.sound hsec) hi e
  obtain ⟨hk, hslots, hchain⟩ := hw.keeps h hd hp
  have hpe : (v.setDirent p e).dirent p = e := by
    rw [Volume.setDirent_dirent hi hi, if_pos rfl]
  generalize v.setDirent p e = v' at hw hk hslots hchain hpe ⊢
  have hend : (v'.dirent p).isEnd = false := by
    have huse := hfit.inUse
    simp only [Dirent.inUse, Bool.and_eq_true, Bool.not_eq_true'] at huse
    rw [hpe]
    exact huse.1
  -- the clusters in progress are now those of the entry
  have hpchain : (e.firstCluster = 0 ∧ e.isDir = false) ∨ IsChain v' e.firstCluster float := by
    refine hfit.chain.imp (fun hz => ⟨hz.1, hz.2.1⟩) fun hch => ?_
    exact hch.congr (fun c hc => hw.fat c (hch.live_of_mem c hc))
      fun c _ hc => hw.geometry.inRange.mpr hc
  have hpeq : v'.chainOf p = float := by
    rw [Volume.chainOf, hpe]
    obtain ⟨hz, _, hnil⟩ | hch := hfit.chain
    · rw [hz, clusterChain_zero, hnil]
    · obtain ⟨hz, _⟩ | hch' := hpchain
      · have := (hch.live_of_mem _ hch.head_mem).1
        omega
      · exact hch'.clusterChain_eq hw.sound
  have hnewdir : e.isDir = true → ∀ q ∈ dirSlots v' e.firstCluster, (v'.dirent q).isEnd = true := by
    intro hdir q hq
    obtain ⟨_, hfile, _⟩ | hch := hfit.chain
    · rw [hdir] at hfile
      exact absurd hfile (by simp)
    · have h0 : e.firstCluster ≠ 0 := by
        have := (hch.live_of_mem _ hch.head_mem).1
        omega
      obtain ⟨c, hc, hmem⟩ := (mem_dirSectors_sub h0).mp (mem_dirSlots.mp hq).1
      rw [show clusterChain v' e.firstCluster = float by rw [← hpeq, Volume.chainOf, hpe]] at hc
      rw [hw.geometry.clusterSectors] at hmem
      have hne : q.sectorLba ≠ p.sectorLba := by
        intro heq
        refine h.dirSector_not_mem_cluster hd hsec (h.inRange_of_mem_float hc)
          (fun d q he hmem' => h.float_disjoint d q he hmem' hc) (heq ▸ hmem)
      rw [Volume.dirent, hw.disk _ hne, hfit.empty hdir c hc _ hmem]
      exact read_zero_isEnd _
  have hleaf : LeafSlot v' p := by
    rintro hdir q ⟨hq, huse⟩
    rw [hpe] at hdir hq
    simp [Dirent.inUse, hnewdir hdir q hq] at huse
  have hlive : Live v' d p := ⟨by rwa [hslots d hd], by rw [hpe]; exact hfit.inUse⟩
  have hreach : ReachDir v' none d :=
    (hk.reachDir_iff.mp hd).mono fun _ _ _ hq => ⟨⟨hq.1, by simp⟩, rfl⟩
  have hreach_iff := reachDir_none_iff hreach hlive hleaf
  have hiff : ∀ d' q, Entry v' none d' q ↔ Entry v (some p) d' q ∨ (q = p ∧ d' = d) := by
    intro d' q
    rw [entry_none_iff hreach hlive hleaf, hk.entry_iff]
    refine or_congr_right (and_congr_right fun _ => ⟨?_, ?_⟩)
    · rintro ⟨hd', hl⟩
      obtain hd' | hc := (hreach_iff d').mp hd'
      · have hd' := hk.reachDir_iff.mpr hd'
        have hl' := hl.1
        rw [hslots d' hd'] at hl'
        exact h.dir_unique hd' hd (mem_dirSlots.mp hl').1 hsec
      · exact absurd hl (hleaf.child hc p)
    · rintro rfl
      exact ⟨hreach, hlive⟩
  refine ⟨⟨hw.sound, hw.agree h.agree, fun d' q he => ?_,
    fun d' q he => ?_, fun d₁ q₁ d₂ q₂ h₁ h₂ hne => ?_, fun c hc => ?_,
    fun d' q q' hq hq' hname => ?_, fun d' hd' => ?_, .inl rfl,
    fun _ _ _ => List.disjoint_nil_right _⟩, hk, hiff, hpe, hpeq⟩
  · obtain he | ⟨rfl, _⟩ := (hiff d' q).mp he
    · rw [hk.dirent_of_entry he]
      exact h.plain d' q he
    · rw [hpe]
      exact hfit.plain
  · obtain he | ⟨rfl, _⟩ := (hiff d' q).mp he
    · refine (h.chained d' q he).imp (fun hz => ?_) (hchain d' q he).2
      rwa [hk.dirent_of_entry he]
    · rw [hpe, hpeq]
      exact hpchain
  · obtain h₁ | ⟨rfl, _⟩ := (hiff d₁ q₁).mp h₁
    · obtain h₂ | ⟨rfl, _⟩ := (hiff d₂ q₂).mp h₂
      · rw [(hchain d₁ q₁ h₁).1, (hchain d₂ q₂ h₂).1]
        exact h.disjoint d₁ q₁ d₂ q₂ h₁ h₂ hne
      · rw [(hchain d₁ q₁ h₁).1, hpeq]
        exact h.float_disjoint d₁ q₁ h₁
    · obtain h₂ | ⟨rfl, _⟩ := (hiff d₂ q₂).mp h₂
      · rw [(hchain d₂ q₂ h₂).1, hpeq]
        exact (h.float_disjoint d₂ q₂ h₂).symm
      · exact absurd rfl hne
  · have hc := hw.geometry.inRange.mp hc
    rw [hw.fat c hc, h.used c hc]
    simp only [List.not_mem_nil, false_or]
    constructor
    · rintro (hmem | ⟨d', q, he, hmem⟩)
      · exact ⟨d, p, (hiff d p).mpr (.inr ⟨rfl, rfl⟩), by rwa [hpeq]⟩
      · exact ⟨d', q, (hiff d' q).mpr (.inl he), by rwa [(hchain d' q he).1]⟩
    · rintro ⟨d', q, he, hmem⟩
      obtain he | ⟨rfl, _⟩ := (hiff d' q).mp he
      · exact .inr ⟨d', q, he, by rwa [(hchain d' q he).1] at hmem⟩
      · exact .inl (by rwa [hpeq] at hmem)
  · obtain hq | ⟨rfl, rfl⟩ := (hiff d' q).mp hq
    · obtain hq' | ⟨rfl, rfl⟩ := (hiff d' q').mp hq'
      · rw [hk.dirent_of_entry hq, hk.dirent_of_entry hq'] at hname
        exact h.names d' q q' hq hq' hname
      · rw [hk.dirent_of_entry hq, hpe] at hname
        exact absurd hname (hfit.name q hq)
    · obtain hq' | ⟨rfl, _⟩ := (hiff d' q').mp hq'
      · rw [hk.dirent_of_entry hq', hpe] at hname
        exact absurd hname.symm (hfit.name q' hq')
      · rfl
  · obtain hd' | hc := (hreach_iff d').mp hd'
    · have hd' := hk.reachDir_iff.mpr hd'
      rw [hslots d' hd']
      exact hw.ends h hd hsplit hprev hend hd'
    · simp only [Volume.child, hpe] at hc
      split at hc
      · next hdir =>
        obtain rfl := Option.some.inj hc
        exact List.pairwise_of_forall_mem_list fun _ _ q hq _ => hnewdir hdir q hq
      · exact absurd hc (by simp)

end close

end AuroraOS.Fat16
