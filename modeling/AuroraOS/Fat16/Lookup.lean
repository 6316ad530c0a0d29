import AuroraOS.Fat16.Steps

/-!
# Looking up names

On a sound volume the directory cursor visits exactly the slots of the directory, so that the
two lookups of the driver become searches in a list: `fat16_stat` finds the first entry whose
name converts to the target (`fat16Stat_eq`), and `find_or_alloc_slot` finds the slot with the
target's bytes, or a slot for a new entry (`findOrAllocSlot_spec`).
-/

namespace AuroraOS.Fat16

/-- The sectors a cursor has still to visit. -/
inductive CursorAt (v : Volume) : DirCursor → List ℕ → Prop
  | root {i c s : ℕ} : CursorAt v ⟨true, i, c, s⟩
      ((List.range' i (v.rootDirSectors - i)).map (v.rootDirStartLba + ·))
  | stop {i c s : ℕ} : eocMin ≤ c → CursorAt v ⟨false, i, c, s⟩ []
  | chain {i c s : ℕ} {l : List ℕ} : IsChain v c (c :: l) → s < v.bpb.sectorsPerCluster →
      CursorAt v ⟨false, i, c, s⟩
        ((List.range' s (v.bpb.sectorsPerCluster - s)).map (clusterToLba v c + ·) ++
          l.flatMap (clusterSectors v))

theorem clusterSectors_eq_range' (v : Volume) (c : ℕ) :
    clusterSectors v c =
      (List.range' 0 (v.bpb.sectorsPerCluster - 0)).map (clusterToLba v c + ·) := by
  rw [clusterSectors, List.range_eq_range', Nat.sub_zero]

/-- The cursor that `walk_directory` and `find_or_alloc_slot` start with. -/
theorem cursorAt_init {v : Volume} (hs : v.Sound) {d : ℕ}
    (hd : d = 0 ∨ ∃ l, IsChain v d l) : CursorAt v (dirCursorInit d) (dirSectors v d) := by
  obtain rfl | ⟨l, hl⟩ := hd
  · have hroot := CursorAt.root (v := v) (i := 0) (c := 0) (s := 0)
    rw [Nat.sub_zero, ← List.range_eq_range'] at hroot
    exact hroot
  · have h0 : d ≠ 0 := by
      have := (hl.live_of_mem d hl.head_mem).1
      omega
    obtain ⟨t, rfl⟩ := hl.exists_eq_cons
    have hch := CursorAt.chain (i := 0) hl hs.spc_pos
    rw [← clusterSectors_eq_range'] at hch
    rwa [dirCursorInit, if_neg h0, dirSectors, if_neg h0, hl.clusterChain_eq hs,
      List.flatMap_cons]

theorem cursorAt_nil {v : Volume} {cur : DirCursor} (h : CursorAt v cur []) :
    dirCursorNextSector cur v = (none, cur, v) := by
  generalize hl : ([] : List ℕ) = l at h
  cases h with
  | @root i c s =>
    have hlen := congrArg List.length hl
    simp only [List.length_nil, List.length_map, List.length_range'] at hlen
    simp only [dirCursorNextSector, if_true]
    rw [if_pos (by omega)]
  | stop hc =>
    simp only [dirCursorNextSector, Bool.false_eq_true, if_false]
    rw [if_pos (.inr hc)]
  | chain _ hs =>
    have hlen := congrArg List.length hl
    simp only [List.length_nil, List.length_append, List.length_map, List.length_range'] at hlen
    omega

/-- The cursor delivers its first sector and moves on to the others. -/
theorem cursorAt_cons {v : Volume} (hs : v.Sound) {cur : DirCursor} {lba : ℕ} {rest : List ℕ}
    (h : CursorAt v cur (lba :: rest)) :
    ∃ cur', dirCursorNextSector cur v = (some (v.disk lba, lba), cur', v) ∧
      CursorAt v cur' rest ∧ cur'.isRoot = cur.isRoot ∧
      (cur.isRoot = false → ∀ l, IsChain v cur.cluster l →
        cur'.cluster = cur.cluster ∨ ∃ t, l = cur.cluster :: t ∧
          ((t = [] ∧ eocMin ≤ cur'.cluster) ∨ IsChain v cur'.cluster t)) := by
  generalize hl : lba :: rest = sectors at h
  cases h with
  | @root i c s =>
    have hlt : i < v.rootDirSectors := by
      have hlen := congrArg List.length hl
      simp only [List.length_cons, List.length_map, List.length_range'] at hlen
      omega
    obtain ⟨n, hn⟩ : ∃ n, v.rootDirSectors - i = n + 1 := ⟨v.rootDirSectors - i - 1, by omega⟩
    rw [hn, List.range'_succ, List.map_cons] at hl
    obtain ⟨rfl, rfl⟩ := List.cons.inj hl
    refine ⟨⟨true, i + 1, c, s⟩, ?_, ?_, rfl, by simp⟩
    · simp only [dirCursorNextSector, if_true]
      rw [if_neg (by omega)]
      simp only [readSector_eq hs.reliable, Option.map_some]
    · have hroot := CursorAt.root (v := v) (i := i + 1) (c := c) (s := s)
      rwa [show v.rootDirSectors - (i + 1) = n by omega] at hroot
  | stop _ => simp at hl
  | @chain i c s l hch hlt =>
    have hc := hch.live_of_mem c hch.head_mem
    have hguard : ¬ (c < 2 ∨ eocMin ≤ c) := by
      have := hc.1
      have := inRange_not_eoc hs c hc
      omega
    obtain ⟨n, hn⟩ : ∃ n, v.bpb.sectorsPerCluster - s = n + 1 :=
      ⟨v.bpb.sectorsPerCluster - s - 1, by omega⟩
    rw [hn, List.range'_succ, List.map_cons, List.cons_append] at hl
    obtain ⟨rfl, rfl⟩ := List.cons.inj hl
    by_cases hfin : v.bpb.sectorsPerCluster ≤ s + 1
    · -- last sector of the cluster: follow the link
      have hn0 : n = 0 := by omega
      subst hn0
      refine ⟨⟨false, i, v.fat c, 0⟩, ?_, ?_, rfl, fun _ l' hl' => .inr ⟨l, ?_, ?_⟩⟩
      · simp only [dirCursorNextSector, Bool.false_eq_true, if_false, hguard,
          readSector_eq hs.reliable, hfin, if_true, fatReadEntry_eq hs.reliable, Option.map_some]
      · obtain ⟨rfl, hstop⟩ | htail := hch.tail
        · exact .stop hstop
        · obtain ⟨t, rfl⟩ := htail.exists_eq_cons
          have hnext := CursorAt.chain (i := i) htail hs.spc_pos
          rw [← clusterSectors_eq_range'] at hnext
          simpa using hnext
      · exact hl'.unique (inRange_not_eoc hs) hch
      · exact hch.tail
    · refine ⟨⟨false, i, c, s + 1⟩, ?_, ?_, rfl, fun _ _ _ => .inl rfl⟩
      · simp only [dirCursorNextSector, Bool.false_eq_true, if_false, hguard,
          readSector_eq hs.reliable, hfin, Option.map_some]
      · have hnext := CursorAt.chain (i := i) (s := s + 1) hch (by omega)
        rwa [show v.bpb.sectorsPerCluster - (s + 1) = n by omega] at hnext

section walk

variable {σ : Type} (cb : Fat16Entry → σ → Bool × σ)

theorem walkSlots_congr {read read' : Slot → Dirent} {l : List Slot}
    (h : ∀ p ∈ l, read p = read' p) (acc : σ) :
    walkSlots cb read l acc = walkSlots cb read' l acc := by
  induction l generalizing acc with
  | nil => rfl
  | cons p l ih =>
    have htail := ih fun q hq => h q (List.mem_cons_of_mem _ hq)
    simp only [walkSlots, h p List.mem_cons_self, htail]

theorem walkSlots_append (read : Slot → Dirent) (l l' : List Slot) (acc : σ) :
    walkSlots cb read (l ++ l') acc =
      match walkSlots cb read l acc with
      | (false, acc) => (false, acc)
      | (true, acc) => walkSlots cb read l' acc := by
  induction l generalizing acc with
  | nil => rfl
  | cons p l ih =>
    simp only [List.cons_append, walkSlots]
    split
    · rfl
    · split
      · exact ih acc
      · split
        · exact ih acc
        · split
          · exact ih acc
          · cases cb (read p).toEntry acc with
            | mk go acc =>
              cases go with
              | false => rfl
              | true => exact ih acc

/-- Reading a sector's entries from a buffer is reading them from the disk. -/
theorem read_sectorSlots (v : Volume) (lba : ℕ) :
    ∀ p ∈ sectorSlots lba, Dirent.read (v.disk lba) p.indexInSector = v.dirent p := by
  intro p hp
  obtain ⟨rfl, _⟩ := mem_sectorSlots.mp hp
  rfl

theorem walkLoop_eq {v : Volume} (hs : v.Sound) {sectors : List ℕ} {cur : DirCursor} {fuel : ℕ}
    (h : CursorAt v cur sectors) (hfuel : sectors.length < fuel) (acc : σ) :
    walkLoop cb fuel cur acc v =
      some ((walkSlots cb v.dirent (sectors.flatMap sectorSlots) acc).2, v) := by
  induction sectors generalizing cur fuel acc with
  | nil =>
    obtain ⟨n, rfl⟩ : ∃ n, fuel = n + 1 := ⟨fuel - 1, by simp at hfuel; omega⟩
    simp only [walkLoop, cursorAt_nil h, List.flatMap_nil, walkSlots]
  | cons lba rest ih =>
    obtain ⟨n, rfl⟩ : ∃ n, fuel = n + 1 := ⟨fuel - 1, by simp at hfuel; omega⟩
    obtain ⟨cur', hnext, hcur', _, _⟩ := cursorAt_cons hs h
    rw [List.flatMap_cons, walkSlots_append]
    simp only [walkLoop, hnext, walkSlots_congr cb (read_sectorSlots v lba)]
    cases walkSlots cb v.dirent (sectorSlots lba) acc with
    | mk go acc =>
      cases go with
      | false => rfl
      | true => exact ih hcur' (by simpa using hfuel) acc

end walk

section scan

variable (target11 : Vector UInt8 11)

theorem scanSlots_congr {read read' : Slot → Dirent} {l : List Slot}
    (h : ∀ p ∈ l, read p = read' p) (free : Option Slot) :
    scanSlots read target11 l free = scanSlots read' target11 l free := by
  induction l generalizing free with
  | nil => rfl
  | cons p l ih =>
    have htail := ih fun q hq => h q (List.mem_cons_of_mem _ hq)
    simp only [scanSlots, h p List.mem_cons_self, htail]

theorem scanSlots_append (read : Slot → Dirent) (l l' : List Slot) (free : Option Slot) :
    scanSlots read target11 (l ++ l') free =
      match scanSlots read target11 l free with
      | .more free => scanSlots read target11 l' free
      | result => result := by
  induction l generalizing free with
  | nil => rfl
  | cons p l ih =>
    simp only [List.cons_append, scanSlots]
    split
    · rfl
    · split
      · exact ih _
      · split
        · exact ih _
        · split
          · rfl
          · exact ih _

/-- The loop scans the directory's slots. When it runs off the end of a subdirectory it knows
    the directory's last cluster. -/
theorem slotLoop_eq {v : Volume} (hs : v.Sound) {sectors : List ℕ} {cur : DirCursor} {fuel : ℕ}
    (h : CursorAt v cur sectors) (hfuel : sectors.length < fuel) (free : Option Slot) (cc : ℕ) :
    ∃ k, slotLoop target11 fuel cur free cc v =
        some (scanSlots v.dirent target11 (sectors.flatMap sectorSlots) free, k, v) ∧
      ((∃ f, scanSlots v.dirent target11 (sectors.flatMap sectorSlots) free = .more f) →
        cur.isRoot = false → (eocMin ≤ cur.cluster → k = cc) ∧
          ∀ l hne, IsChain v cur.cluster l → k = l.getLast hne) := by
  induction sectors generalizing cur fuel free cc with
  | nil =>
    obtain ⟨n, rfl⟩ : ∃ n, fuel = n + 1 := ⟨fuel - 1, by simp at hfuel; omega⟩
    refine ⟨cc, by simp only [slotLoop, cursorAt_nil h, List.flatMap_nil, scanSlots],
      fun _ hroot => ⟨fun _ => rfl, fun l hne hch => ?_⟩⟩
    -- a cursor without sectors is behind the end of its chain
    have hnil := cursorAt_nil h
    have hlive := hch.live_of_mem _ hch.head_mem
    have hguard : ¬ (cur.cluster < 2 ∨ eocMin ≤ cur.cluster) := by
      have := hlive.1
      have := inRange_not_eoc hs _ hlive
      omega
    simp only [dirCursorNextSector, hroot, Bool.false_eq_true, if_false, hguard,
      readSector_eq hs.reliable, Option.map_some] at hnil
    split at hnil <;> simp [fatReadEntry_eq hs.reliable] at hnil
  | cons lba rest ih =>
    obtain ⟨n, rfl⟩ : ∃ n, fuel = n + 1 := ⟨fuel - 1, by simp at hfuel; omega⟩
    obtain ⟨cur', hnext, hcur', hroot', hchain⟩ := cursorAt_cons hs h
    rw [List.flatMap_cons, scanSlots_append]
    simp only [slotLoop, hnext, scanSlots_congr target11 (read_sectorSlots v lba)]
    cases hscan : scanSlots v.dirent target11 (sectorSlots lba) free with
    | found p e => exact ⟨_, rfl, fun h => absurd h.choose_spec (by simp)⟩
    | free p => exact ⟨_, rfl, fun h => absurd h.choose_spec (by simp)⟩
    | more f =>
      obtain ⟨k, hk, hmore⟩ := @ih cur' n hcur' (by simpa using hfuel) f
        (if cur'.isRoot then cc else if cur.isRoot then 0 else cur.cluster)
      refine ⟨k, hk, fun hm hroot => ?_⟩
      obtain ⟨hstop, hlast⟩ := hmore hm (hroot'.trans hroot)
      simp only [hroot', hroot, Bool.false_eq_true, if_false] at hstop
      refine ⟨fun heoc => ?_, fun l hne hch => ?_⟩
      · simp [dirCursorNextSector, hroot, heoc] at hnext
      · obtain hsame | ⟨t, rfl, ⟨rfl, heoc⟩ | ht⟩ := hchain hroot l hch
        · exact hlast l hne (hsame ▸ hch)
        · exact hstop heoc
        · rw [List.getLast_cons ht.ne_nil]
          exact hlast t ht.ne_nil ht

end scan

/-- A long-name entry has the volume-label bit set too. -/
theorem Dirent.isLongName_of_plain {e : Dirent} (h : e.isVolumeId = false) :
    e.isLongName = false := by
  simp only [isVolumeId, bne_eq_false_iff_eq] at h
  simp only [isLongName, beq_eq_false_iff_ne]
  intro hl
  have hmask : attrLongName &&& attrVolumeId = attrVolumeId := by decide
  have hbit : e.attr &&& attrVolumeId = attrVolumeId := by
    calc e.attr &&& attrVolumeId = e.attr &&& (attrLongName &&& attrVolumeId) := by rw [hmask]
      _ = attrVolumeId := by rw [← UInt8.and_assoc, hl, hmask]
  rw [h] at hbit
  exact absurd hbit (by decide)

theorem Dirent.inUse_eq_false_of_isEnd {e : Dirent} (h : e.isEnd = true) : e.inUse = false := by
  simp [inUse, h]

theorem Dirent.inUse_eq_false_of_isDeleted {e : Dirent} (h : e.isDeleted = true) :
    e.inUse = false := by
  simp [inUse, h]

theorem Dirent.isEnd_eq_false_of_inUse {e : Dirent} (h : e.inUse = true) : e.isEnd = false := by
  simp only [inUse, Bool.and_eq_true, Bool.not_eq_true'] at h
  exact h.1

section search

variable {read : Slot → Dirent} {l : List Slot}

/-- What a scan for the name `t` can answer in a list of slots that has its end markers at the
    end. -/
def ScanAnswer (read : Slot → Dirent) (t : Vector UInt8 11) (l : List Slot) (free : Option Slot) :
    SlotScan → Prop
  | .found p e => e = read p ∧ p ∈ l ∧ (read p).inUse = true ∧ (read p).name = t
  | .free p => (∀ q ∈ l, (read q).inUse = true → (read q).name ≠ t) ∧
      (free = some p ∨ (free = none ∧ (read p).inUse = false ∧
        ∃ l₁ l₂, l = l₁ ++ p :: l₂ ∧ ∀ q ∈ l₁, (read q).isEnd = false))
  | .more _ => (∀ q ∈ l, (read q).inUse = true → (read q).name ≠ t) ∧
      ∀ q ∈ l, (read q).isEnd = false

theorem scanSlots_spec (t : Vector UInt8 11)
    (hends : l.Pairwise fun p q => (read p).isEnd = true → (read q).isEnd = true)
    (hplain : ∀ p ∈ l, (read p).inUse = true → (read p).isVolumeId = false)
    (free : Option Slot) : ScanAnswer read t l free (scanSlots read t l free) := by
  induction l generalizing free with
  | nil => exact ⟨by simp, by simp⟩
  | cons p l ih =>
    obtain ⟨hfirst, hends'⟩ := List.pairwise_cons.mp hends
    have ih := ih hends' fun q hq => hplain q (List.mem_cons_of_mem _ hq)
    -- a slot that does not answer, put before the answer for the rest
    have hskip : ∀ free', (read p).isEnd = false →
        ((read p).inUse = true → (read p).name ≠ t) →
        (free' = free ∨ (free' = some (free.getD p) ∧ (read p).inUse = false)) →
        ScanAnswer read t (p :: l) free (scanSlots read t l free') := by
      intro free' hne hname hfree
      have ih' := ih free'
      cases hr : scanSlots read t l free' with
      | found q e =>
        rw [hr] at ih'
        exact ⟨ih'.1, List.mem_cons_of_mem _ ih'.2.1, ih'.2.2⟩
      | free q =>
        rw [hr] at ih'
        refine ⟨List.forall_mem_cons.mpr ⟨hname, ih'.1⟩, ?_⟩
        obtain rfl | ⟨rfl, hdel⟩ := hfree
        · refine ih'.2.imp_right fun ⟨hnone, huse, l₁, l₂, hsplit, hprev⟩ => ⟨hnone, huse,
            p :: l₁, l₂, by rw [hsplit, List.cons_append], List.forall_mem_cons.mpr ⟨hne, hprev⟩⟩
        · obtain hq | ⟨hnone, _⟩ := ih'.2
          · cases free with
            | some f => exact .inl hq
            | none =>
              obtain rfl : p = q := Option.some.inj hq
              exact .inr ⟨rfl, hdel, [], l, rfl, by simp⟩
          · exact absurd hnone (by simp)
      | more f =>
        rw [hr] at ih'
        exact ⟨List.forall_mem_cons.mpr ⟨hname, ih'.1⟩, List.forall_mem_cons.mpr ⟨hne, ih'.2⟩⟩
    rw [scanSlots]
    by_cases hend : (read p).isEnd = true
    · -- the end marker: nothing behind it is in use
      rw [if_pos hend]
      refine ⟨List.forall_mem_cons.mpr ⟨fun huse => ?_, fun q hq huse => ?_⟩, ?_⟩
      · rw [Dirent.inUse_eq_false_of_isEnd hend] at huse
        exact absurd huse (by simp)
      · rw [Dirent.inUse_eq_false_of_isEnd (hfirst q hq hend)] at huse
        exact absurd huse (by simp)
      · cases free with
        | some f => exact .inl rfl
        | none => exact .inr ⟨rfl, Dirent.inUse_eq_false_of_isEnd hend, [], l, rfl, by simp⟩
    · rw [if_neg hend]
      have hend := Bool.eq_false_iff.mpr hend
      by_cases hdel : (read p).isDeleted = true
      · have huse := Dirent.inUse_eq_false_of_isDeleted hdel
        rw [if_pos hdel]
        exact hskip _ hend (fun h => absurd h (by simp [huse])) (.inr ⟨rfl, huse⟩)
      · have huse : (read p).inUse = true := by
          simp [Dirent.inUse, hend, Bool.eq_false_iff.mpr hdel]
        rw [if_neg hdel, if_neg (by
          simp [Dirent.isLongName_of_plain (hplain p List.mem_cons_self huse)])]
        by_cases hname : (read p).name = t
        · rw [if_pos hname]
          exact ⟨rfl, List.mem_cons_self, huse, hname⟩
        · rw [if_neg hname]
          exact hskip _ hend (fun _ => hname) (.inl rfl)

/-- The entry is in use and its displayed name converts to `t`. -/
def Dirent.answersTo (e : Dirent) (t : Vector UInt8 11) : Bool :=
  e.inUse && decide (nameTo83 (nameFrom83 e.name) = some t)

/-- Walking with `find_trampoline` finds the first slot that answers to the target. -/
theorem walkSlots_find (t : Vector UInt8 11)
    (hends : l.Pairwise fun p q => (read p).isEnd = true → (read q).isEnd = true)
    (hplain : ∀ p ∈ l, (read p).inUse = true → (read p).isVolumeId = false) :
    (walkSlots (findTrampoline t) read l none).2 =
      (l.find? fun p => (read p).answersTo t).map fun p => (read p).toEntry := by
  induction l with
  | nil => rfl
  | cons p l ih =>
    obtain ⟨hfirst, hends'⟩ := List.pairwise_cons.mp hends
    have ih := ih hends' fun q hq => hplain q (List.mem_cons_of_mem _ hq)
    have hunused : ∀ q, (read q).inUse = false → (read q).answersTo t = false := by
      intro q hq
      rw [Dirent.answersTo, hq, Bool.false_and]
    rw [walkSlots, List.find?_cons]
    by_cases hend : (read p).isEnd = true
    · have hnone : l.find? (fun p => (read p).answersTo t) = none := by
        rw [List.find?_eq_none]
        intro q hq
        rw [hunused q (Dirent.inUse_eq_false_of_isEnd (hfirst q hq hend))]
        simp
      rw [if_pos hend, hunused p (Dirent.inUse_eq_false_of_isEnd hend), hnone]
      rfl
    · rw [if_neg hend]
      have hend := Bool.eq_false_iff.mpr hend
      by_cases hdel : (read p).isDeleted = true
      · rw [if_pos hdel, hunused p (Dirent.inUse_eq_false_of_isDeleted hdel)]
        exact ih
      · have huse : (read p).inUse = true := by
          simp [Dirent.inUse, hend, Bool.eq_false_iff.mpr hdel]
        have hvol := hplain p List.mem_cons_self huse
        rw [if_neg hdel, if_neg (by simp [Dirent.isLongName_of_plain hvol]),
          if_neg (by simp [hvol]), Dirent.answersTo, huse, Bool.true_and]
        simp only [findTrampoline, Dirent.toEntry]
        cases hn : nameTo83 (nameFrom83 (read p).name) with
        | none =>
          simp only [reduceCtorEq, decide_false]
          exact ih
        | some n =>
          by_cases hnt : n = t
          · simp only [hnt, if_true, decide_true, Option.map_some]
          · simp only [hnt, if_false, Option.some.injEq, decide_false]
            exact ih

end search

/-- More rounds than any loop over a directory or a chain of a sound volume takes. -/
def Volume.fuelBound (v : Volume) : ℕ :=
  v.rootDirSectors + v.totalClusters * v.bpb.sectorsPerCluster + v.totalClusters + 1

theorem Volume.SameGeometry.fuelBound {v v' : Volume} (h : v.SameGeometry v') :
    v'.fuelBound = v.fuelBound := by
  rw [Volume.fuelBound, Volume.fuelBound, h.rootDirSectors, h.totalClusters, h.bpb]

theorem IsChain.length_lt_fuelBound {v : Volume} (hs : v.Sound) {c : ℕ} {l : List ℕ}
    (h : IsChain v c l) : l.length < v.fuelBound := by
  have := h.length_le hs
  rw [Volume.fuelBound]
  omega

theorem dirSectors_length_lt {v : Volume} (hs : v.Sound) {d : ℕ}
    (hd : d = 0 ∨ ∃ l, IsChain v d l) : (dirSectors v d).length < v.fuelBound := by
  obtain rfl | ⟨l, hl⟩ := hd
  · rw [dirSectors, if_pos rfl, List.length_map, List.length_range, Volume.fuelBound]
    omega
  · have h0 : d ≠ 0 := by
      have := (hl.live_of_mem d hl.head_mem).1
      omega
    have hlen : (dirSectors v d).length = l.length * v.bpb.sectorsPerCluster := by
      rw [dirSectors, if_neg h0, hl.clusterChain_eq hs, List.length_flatMap]
      simp [clusterSectors]
    have hmul := Nat.mul_le_mul_right v.bpb.sectorsPerCluster (hl.length_le hs)
    rw [hlen, Volume.fuelBound]
    omega

section lookups

variable {v : Volume} {hole : Option Slot} {float : List ℕ} {d fuel : ℕ} {name : List UInt8}
  {t : Vector UInt8 11}

theorem Inv.dir_chain (h : Inv v hole float) (hd : ReachDir v hole d) :
    d = 0 ∨ ∃ l, IsChain v d l := by
  by_cases h0 : d = 0
  · exact .inl h0
  · obtain ⟨_, _, _, _, _, hch, _⟩ := h.reachDir_isChain hd h0
    exact .inr ⟨_, hch⟩

theorem Inv.plain_of_mem (h : Inv v none float) (hd : ReachDir v none d) :
    ∀ p ∈ dirSlots v d, (v.dirent p).inUse = true → (v.dirent p).isVolumeId = false :=
  fun p hp huse => h.plain d p ⟨hd, ⟨hp, huse⟩, by simp⟩

/-- `fat16_stat` finds the first entry that answers to the name. -/
theorem fat16Stat_eq (h : Inv v none float) (hd : ReachDir v none d)
    (hfuel : v.fuelBound ≤ fuel) (ht : nameTo83 name = some t) :
    fat16Stat fuel d name v =
      some (((dirSlots v d).find? fun p => (v.dirent p).answersTo t).map
        fun p => (v.dirent p).toEntry, v) := by
  have hchain := h.dir_chain hd
  have hlen := dirSectors_length_lt h.sound hchain
  rw [fat16Stat, if_pos h.sound.mounted, findInDir, ht]
  simp only [walkDirectory]
  rw [walkLoop_eq _ h.sound (cursorAt_init h.sound hchain) (by omega)]
  exact congrArg (fun r => some (r, v)) (walkSlots_find t (h.ends d hd) (h.plain_of_mem hd))

/-- What `find_or_alloc_slot` can answer for the name `t` in directory `d`, and the volume it
    leaves behind. -/
inductive SlotAnswer (v : Volume) (d : ℕ) (t : Vector UInt8 11) :
    Option (Slot × Option Dirent) → Volume → Prop
  /-- the entry exists -/
  | found {p : Slot} : Entry v none d p → (v.dirent p).name = t →
      SlotAnswer v d t (some (p, some (v.dirent p))) v
  /-- a slot for a new entry, perhaps in a cluster the directory has just got -/
  | free {p : Slot} {v' : Volume} {l₁ l₂ : List Slot} :
      (∀ q, Entry v none d q → (v.dirent q).name ≠ t) → Inv v' none [] → Keeps none d v v' →
      (v'.dirent p).inUse = false → dirSlots v' d = l₁ ++ p :: l₂ →
      (∀ q ∈ l₁, (v'.dirent q).isEnd = false) → SlotAnswer v d t (some (p, none)) v'
  /-- no slot left, and no cluster to put one in -/
  | full : (∀ q, Entry v none d q → (v.dirent q).name ≠ t) → SlotAnswer v d t none v

/-- A directory without an end marker gets a new cluster, whose first slot is the answer. -/
theorem slotAnswer_extend (h : Inv v none []) (hd : ReachDir v none d) (h0 : d ≠ 0)
    (hnot : ∀ q, Entry v none d q → (v.dirent q).name ≠ t)
    (hends : ∀ q ∈ dirSlots v d, (v.dirent q).isEnd = false) {last : ℕ}
    (hlast : ∀ l hne, IsChain v d l → last = l.getLast hne) :
    ∃ r v', (match extendClusterChain last v with
        | (newCluster, v) =>
          if newCluster = 0 then some (none, v)
          else some (some (⟨clusterToLba v newCluster, 0⟩, none), v)) = some (r, v') ∧
      SlotAnswer v d t r v' := by
  obtain ⟨e, q, hq, _, _, hch, heq⟩ := h.reachDir_isChain hd h0
  have hne : clusterChain v d ≠ [] := heq ▸ hch.ne_nil
  have hl : last = (clusterChain v d).getLast hne := hlast _ hne (heq ▸ hch)
  have hrange : v.InRange last := by
    rw [hl]
    exact (heq ▸ hch : IsChain v d (clusterChain v d)).live_of_mem _ (List.getLast_mem hne)
  obtain ⟨c, hc, hfree, hext⟩ | ⟨_, hext⟩ := extendClusterChain_spec h.sound (.inr hrange)
  · have hx := extended_spec h.sound hc (.inr hrange)
    obtain ⟨hinv, hk, hslots⟩ := h.extend_dir hd h0 hne hl hc hfree hx
    have hc0 : c ≠ 0 := by
      have := hc.1
      omega
    obtain ⟨n, hn⟩ : ∃ n, v.bpb.sectorsPerCluster = n + 1 :=
      ⟨v.bpb.sectorsPerCluster - 1, by have := h.sound.spc_pos; omega⟩
    -- the new slots begin with the first one of the new cluster
    obtain ⟨l₂, hl₂⟩ : ∃ l₂, (clusterSectors v c).flatMap sectorSlots =
        ⟨clusterToLba v c, 0⟩ :: l₂ := by
      rw [clusterSectors, hn, List.range_succ_eq_map, List.map_cons, List.flatMap_cons,
        sectorSlots, List.range_succ_eq_map, List.map_cons, List.cons_append]
      exact ⟨_, rfl⟩
    refine ⟨some (⟨clusterToLba v c, 0⟩, none), v.extended last c, ?_, ?_⟩
    · rw [hext]
      simp only [if_neg hc0, hx.geometry.clusterToLba]
    · refine .free hnot hinv hk ?_ (hslots.trans (by rw [hl₂])) fun q' hq' => ?_
      · refine Dirent.inUse_eq_false_of_isEnd ?_
        obtain ⟨ext, hext', hend⟩ := hk.slots d hd
        rw [hslots, hl₂] at hext'
        exact (hend _ (List.append_cancel_left hext' ▸ List.mem_cons_self)).1
      · rw [hk.dirent d hd q' hq' (by simp)]
        exact hends q' hq'
  · exact ⟨none, v, by rw [hext]; rfl, .full hnot⟩

theorem findOrAllocSlot_spec (h : Inv v none []) (hd : ReachDir v none d)
    (hfuel : v.fuelBound ≤ fuel) (ht : nameTo83 name = some t) :
    ∃ r v', findOrAllocSlot fuel d name v = some (r, v') ∧ SlotAnswer v d t r v' := by
  have hchain := h.dir_chain hd
  have hlen := dirSectors_length_lt h.sound hchain
  obtain ⟨k, hloop, hmore⟩ := slotLoop_eq t h.sound (cursorAt_init h.sound hchain)
    (show (dirSectors v d).length < fuel by omega) none d
  have hscan := scanSlots_spec t (h.ends d hd) (h.plain_of_mem hd) none
  have hentry : ∀ {q}, Entry v none d q → q ∈ dirSlots v d ∧ (v.dirent q).inUse = true :=
    fun hq => hq.live
  rw [findOrAllocSlot, ht]
  simp only [hloop]
  have hslots : (dirSectors v d).flatMap sectorSlots = dirSlots v d := rfl
  rw [hslots] at hmore ⊢
  cases hr : scanSlots v.dirent t (dirSlots v d) none with
  | found p e =>
    rw [hr] at hscan
    obtain ⟨rfl, hp, huse, hname⟩ := hscan
    exact ⟨_, v, rfl, .found ⟨hd, ⟨hp, huse⟩, by simp⟩ hname⟩
  | free p =>
    rw [hr] at hscan
    obtain ⟨hnot, hfree⟩ := hscan
    obtain hfalse | ⟨_, huse, l₁, l₂, hsplit, hprev⟩ := hfree
    · exact absurd hfalse (by simp)
    · exact ⟨_, v, rfl, .free (fun q hq => hnot q (hentry hq).1 (hentry hq).2) h (.refl none d v)
        huse hsplit hprev⟩
  | more f =>
    rw [hr] at hscan
    obtain ⟨hnot, hends⟩ := hscan
    have hnot' : ∀ q, Entry v none d q → (v.dirent q).name ≠ t :=
      fun q hq => hnot q (hentry hq).1 (hentry hq).2
    by_cases h0 : d = 0
    · exact ⟨none, v, by simp [h0], .full hnot'⟩
    · have hroot : (dirCursorInit d).isRoot = false := by simp [dirCursorInit, h0]
      have hcl : (dirCursorInit d).cluster = d := by simp [dirCursorInit, h0]
      have hlast := (hmore ⟨f, hr⟩ hroot).2
      rw [hcl] at hlast
      simp only [if_neg h0]
      exact slotAnswer_extend h hd h0 hnot' hends hlast

end lookups

end AuroraOS.Fat16
