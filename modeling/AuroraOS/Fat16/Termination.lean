import AuroraOS.Fat16.SlotReuse
import AuroraOS.Fat16.Calls

/-!
# Which calls come back

On a mounted disk only the walks over a directory can go on for ever: they follow links without
looking where they have been. Freeing a chain destroys the links it follows, reading is bounded by
the size of the file, and everything else counts down. A disk whose boot sector gives no sectors to
a cluster is mounted all the same, and then the data operations divide by zero.

## Main definitions

- `FsCall.run` — a call as its loops run
- `FsCall.Terminates`, `FsCall.Stops`

## Main results

- `freeClusterChain_results` — a chain can be freed whatever its links are
- `terminates_iff` — the calls that come back
-/

namespace AuroraOS.Fat16

/-- A function that keeps its result with more fuel has the result it once returns. -/
theorem Results.of_run {α : Type} {f : ℕ → Option α} {a : α}
    (hmono : ∀ n, f n = some a → f (n + 1) = some a) {n : ℕ} (h : f n = some a) : Results f a := by
  refine ⟨n, fun fuel hfuel => ?_⟩
  obtain ⟨k, rfl⟩ := Nat.exists_eq_add_of_le hfuel
  induction k with
  | zero => exact h
  | succ k ih => exact hmono _ (ih (Nat.le_add_right _ _))

section freeing

variable {v : Volume} {c c' : ℕ}

/-- Writing a link writes no other one, wherever the FATs lie. -/
theorem setFat_fat_or (v : Volume) (c c' : ℕ) {x : ℕ} (hx : x < 65536) :
    (v.setFat c x).fat c' = v.fat c' ∨ (v.setFat c x).fat c' = x := by
  simp only [Volume.fat, Volume.setFat, Volume.patchLink, Volume.withDisk_disk,
    Volume.withDisk_fatStartLba]
  split
  · by_cases hplace : c' * 2 % 512 = c * 2 % 512
    · rw [hplace]
      exact .inr (Sector.setLink_link_self _ hx)
    · rw [Sector.setLink_byte_of_ne _ (by omega) (by omega) (by omega),
        Sector.setLink_byte_of_ne _ (by omega) (by omega) (by omega)]
      exact .inl rfl
  · exact .inl rfl

theorem setFat_fat_self (hnum : 0 < v.bpb.numFats) {x : ℕ} (hx : x < 65536) :
    (v.setFat c x).fat c = x := by
  have hmem : v.fatStartLba + c * 2 / 512 ∈ (List.range v.bpb.numFats).map (v.fatSector c) :=
    List.mem_map.mpr ⟨0, List.mem_range.mpr hnum, by simp [Volume.fatSector]⟩
  simp only [Volume.fat, Volume.setFat, Volume.patchLink, Volume.withDisk_disk,
    Volume.withDisk_fatStartLba, hmem, if_true]
  exact Sector.setLink_link_self _ hx

theorem fatWriteEntry_setFat (hr : v.Reliable) (hspf : 0 < v.bpb.sectorsPerFat) (c x : ℕ) :
    fatWriteEntry c x v = (true, v.setFat c x) := by
  refine fatWriteCopies_eq hr c x _ (List.Nodup.map_on ?_ List.nodup_range)
  intro i _ j _ h
  simp only [Volume.fatSector] at h
  exact Nat.eq_of_mul_eq_mul_right hspf (by omega)

/-- The clusters that have a link or an end mark. -/
def linkedClusters (v : Volume) : Finset ℕ := (Finset.range eocMin).filter fun c => v.fat c ≠ 0

theorem linkedClusters_setFat (hnum : 0 < v.bpb.numFats) (hc : IsCluster c) (hlink : v.fat c ≠ 0) :
    (linkedClusters (v.setFat c 0)).card < (linkedClusters v).card := by
  refine Finset.card_lt_card (Finset.ssubset_iff_of_subset ?_ |>.mpr ⟨c, ?_, ?_⟩)
  · intro k hk
    rw [linkedClusters, Finset.mem_filter] at hk ⊢
    refine ⟨hk.1, ?_⟩
    obtain hsame | hzero := setFat_fat_or v c k (x := 0) (by decide)
    · exact hsame ▸ hk.2
    · exact absurd hzero hk.2
  · exact Finset.mem_filter.mpr ⟨Finset.mem_range.mpr hc.2, hlink⟩
  · rw [linkedClusters, Finset.mem_filter, setFat_fat_self hnum (by decide)]
    simp

theorem freeClusterChain_succ {fuel : ℕ} {v' : Volume}
    (h : freeClusterChain fuel c v = some v') : freeClusterChain (fuel + 1) c v = some v' := by
  induction fuel generalizing c v with
  | zero => simp [freeClusterChain] at h
  | succ fuel ih =>
    rw [freeClusterChain] at h ⊢
    split
    · next hc =>
      rw [if_pos hc] at h
      exact ih h
    · next hc =>
      rw [if_neg hc] at h
      exact h

/-- A chain can be freed whatever its links are: each round takes away the link it follows. -/
theorem freeClusterChain_results (hr : v.Reliable) (hnum : 0 < v.bpb.numFats)
    (hspf : 0 < v.bpb.sectorsPerFat) (c : ℕ) :
    ∃ v', Results (fun fuel => freeClusterChain fuel c v) v' := by
  suffices ∃ fuel v', freeClusterChain fuel c v = some v' by
    obtain ⟨fuel, v', h⟩ := this
    exact ⟨v', .of_run (fun n => freeClusterChain_succ) h⟩
  induction hcard : (linkedClusters v).card using Nat.strong_induction_on generalizing v c with
  | _ n ih =>
    by_cases hc : 2 ≤ c ∧ c < eocMin
    · have hstep : ∀ fuel, freeClusterChain (fuel + 1) c v =
          freeClusterChain fuel (v.fat c) (v.setFat c 0) := by
        intro fuel
        rw [freeClusterChain, if_pos hc]
        simp only [fatReadEntry_eq hr]
        rw [show freeCluster = 0 from rfl, fatWriteEntry_setFat hr hspf]
      by_cases hlink : v.fat c = 0
      · exact ⟨2, v.setFat c 0, by rw [hstep, hlink, freeClusterChain, if_neg (by omega)]⟩
      · have hless := linkedClusters_setFat hnum hc hlink
        obtain ⟨fuel, v', hrest⟩ :=
          ih _ (hcard ▸ hless) (v := v.setFat c 0) (hr.withDisk _) hnum hspf (v.fat c) rfl
        exact ⟨fuel + 1, v', by rw [hstep, hrest]⟩
    · exact ⟨1, v, by rw [freeClusterChain, if_neg hc]⟩

end freeing

section reading

/-- The cluster loop of `fat16_read_file` as it runs, until its condition fails. -/
def readClustersRun : ℕ → ℕ → ℕ → ℕ → Volume → Option (List UInt8 × Volume)
  | 0, _, _, _, _ => none
  | fuel + 1, cluster, offsetInCluster, toRead, v =>
    if 0 < toRead ∧ 2 ≤ cluster ∧ cluster < eocMin then
      match readSectors (v.bpb.sectorsPerCluster - offsetInCluster / 512)
          (clusterToLba v cluster + offsetInCluster / 512) (offsetInCluster % 512) toRead v with
      | (false, bytes, v) => some (bytes, v)
      | (true, bytes, v) =>
        match fatReadEntry cluster v with
        | (next, v) =>
          (readClustersRun fuel next 0 (toRead - bytes.length) v).map fun r =>
            (bytes ++ r.1, r.2)
    else some ([], v)

/-- `fat16_read_file` as it runs. -/
def fat16ReadFileRun (fuel firstCluster fileSize offset maxLen : ℕ) (v : Volume) :
    Option (List UInt8 × Volume) :=
  if ¬ v.mounted ∨ firstCluster < 2 then some ([], v)
  else if fileSize ≤ offset then some ([], v)
  else
    let toRead := min (fileSize - offset) maxLen
    match skipClusters (offset / v.clusterSize) firstCluster v with
    | (none, v) => some ([], v)
    | (some cluster, v) => readClustersRun fuel cluster (offset % v.clusterSize) toRead v

variable {v : Volume}

/-- Every round reads at least one byte. -/
theorem readClustersRun_eq (hr : v.Reliable) {fuel n c o k : ℕ} (ho : o < v.clusterSize)
    (hfuel : k < fuel) (hn : k ≤ n) :
    readClustersRun fuel c o k v = some (readClusters n c o k v) := by
  induction fuel generalizing n c o k with
  | zero => exact absurd hfuel (Nat.not_lt_zero _)
  | succ fuel ih =>
    rw [readClustersRun]
    cases n with
    | zero => rw [if_neg (by omega), readClusters]
    | succ n =>
      rw [readClusters]
      split
      · next hgo =>
        rw [Volume.clusterSize] at ho
        rw [readSectors_eq hr _ _ _ _ (by omega)]
        simp only [fatReadEntry_eq hr]
        have hbytes : 0 < (((v.sectorBytes (v.bpb.sectorsPerCluster - o / 512)
            (clusterToLba v c + o / 512)).drop (o % 512)).take k).length := by
          rw [List.length_take, List.length_drop, length_sectorBytes]
          omega
        rw [ih (n := n) (by rw [Volume.clusterSize]; omega) (by omega) (by omega)]
        rfl
      · rfl

theorem skipClusters_snd (hr : v.Reliable) (n c : ℕ) : (skipClusters n c v).2 = v := by
  induction n generalizing c with
  | zero => rfl
  | succ n ih =>
    simp only [skipClusters, fatReadEntry_eq hr]
    split
    · rfl
    · exact ih _

/-- Reading comes to an end whatever the links are, and delivers what `fat16ReadFile` says. -/
theorem fat16ReadFileRun_results (hr : v.Reliable) (firstCluster fileSize offset maxLen : ℕ)
    (hspc : v.bpb.sectorsPerCluster ≠ 0 ∨ v.mounted = false ∨ firstCluster < 2 ∨
      fileSize ≤ offset) :
    Results (fun fuel => fat16ReadFileRun fuel firstCluster fileSize offset maxLen v)
      (fat16ReadFile firstCluster fileSize offset maxLen v) := by
  refine ⟨min (fileSize - offset) maxLen + 1, fun fuel hfuel => ?_⟩
  simp only [fat16ReadFileRun, fat16ReadFile]
  split
  · rfl
  · next hmounted =>
    split
    · rfl
    · next hoffset =>
      have hsnd := skipClusters_snd hr (offset / v.clusterSize) firstCluster
      cases hskip : skipClusters (offset / v.clusterSize) firstCluster v with
      | mk cluster v₁ =>
        rw [hskip] at hsnd
        obtain rfl : v₁ = v := hsnd
        cases cluster with
        | none => rfl
        | some cluster =>
          have hpos : v₁.bpb.sectorsPerCluster ≠ 0 := by
            obtain h | h | h | h := hspc
            · exact h
            · simp [h] at hmounted
            · exact absurd (.inr h) hmounted
            · exact absurd h hoffset
          exact readClustersRun_eq hr
            (Nat.mod_lt _ (by rw [Volume.clusterSize]; omega)) (by omega) le_rfl

end reading

section lookups

variable {v : Volume} {d : ℕ} {name : List UInt8} {t : Vector UInt8 11}

theorem slotLoop_succ {fuel : ℕ} {cur : DirCursor} {free : Option Slot} {k : ℕ}
    {r : SlotScan × ℕ × Volume} (h : slotLoop t fuel cur free k v = some r) :
    slotLoop t (fuel + 1) cur free k v = some r := by
  induction fuel generalizing cur free k v with
  | zero => simp [slotLoop] at h
  | succ fuel ih =>
    rw [slotLoop] at h ⊢
    cases hnext : dirCursorNextSector cur v with
    | mk sec rest =>
      rw [hnext] at h
      cases sec with
      | none => exact h
      | some sec =>
        simp only at h ⊢
        cases hscan : scanSlots (fun p => Dirent.read sec.1 p.indexInSector) t
            (sectorSlots sec.2) free with
        | found p e =>
          rw [hscan] at h
          exact h
        | free p =>
          rw [hscan] at h
          exact h
        | more f =>
          rw [hscan] at h
          exact ih h

theorem walkLoop_succ {σ : Type} {cb : Fat16Entry → σ → Bool × σ} {fuel : ℕ} {cur : DirCursor}
    {acc : σ} {r : σ × Volume} (h : walkLoop cb fuel cur acc v = some r) :
    walkLoop cb (fuel + 1) cur acc v = some r := by
  induction fuel generalizing cur acc v with
  | zero => simp [walkLoop] at h
  | succ fuel ih =>
    rw [walkLoop] at h ⊢
    rcases hnext : dirCursorNextSector cur v with ⟨sec, cur', v'⟩
    cases sec with
    | none =>
      rw [hnext] at h
      exact h
    | some sec =>
      obtain ⟨buf, lba⟩ := sec
      rw [hnext] at h
      dsimp only at h ⊢
      rcases hwalk : walkSlots cb (fun p => Dirent.read buf p.indexInSector) (sectorSlots lba) acc
        with ⟨go, acc'⟩
      rw [hwalk] at h
      cases go with
      | false => exact h
      | true => exact ih h

/-- A slot of the directory decides the search for the name `t`: it is an end marker or an entry
with that name. -/
def Decides (v : Volume) (d : ℕ) (t : Vector UInt8 11) : Prop :=
  ∃ n, ∃ q ∈ v.slotsUpTo d n, (v.dirent q).isEnd = true ∨
    ((v.dirent q).compared = true ∧ (v.dirent q).name = t)

/-- The scan comes to its end when the links do, or when a slot decides it. -/
theorem slotLoop_results_iff (hr : v.Reliable) :
    (∃ r, Results (fun fuel => slotLoop t fuel (dirCursorInit d) none d v) r) ↔
      LinksEnd v d ∨ Decides v d t := by
  have hreturns := slotLoop_returns_iff (t := t) (d := d) hr none d
  simp only [scanSlots_stops_iff] at hreturns
  rw [Decides, ← hreturns]
  constructor
  · rintro ⟨r, n, hn⟩
    exact ⟨n, r, hn n le_rfl⟩
  · rintro ⟨n, r, hn⟩
    exact ⟨r, .of_run (fun _ => slotLoop_succ) hn⟩

theorem findOrAllocSlot_succ {fuel : ℕ} {r : Option (Slot × Option Dirent) × Volume}
    (h : findOrAllocSlot fuel d name v = some r) :
    findOrAllocSlot (fuel + 1) d name v = some r := by
  cases hname : nameTo83 name with
  | none =>
    simp only [findOrAllocSlot, hname] at h ⊢
    exact h
  | some t =>
    simp only [findOrAllocSlot, hname] at h ⊢
    cases hloop : slotLoop t fuel (dirCursorInit d) none d v with
    | none => simp [hloop] at h
    | some s =>
      rw [slotLoop_succ hloop]
      rw [hloop] at h
      exact h

/-- A function that has looked up the name when it returns shows that the lookup returns. -/
theorem findOrAllocSlot_results {α : Type} {f : ℕ → Option α} {r : α} (hf : Results f r)
    (h : ∀ fuel, findOrAllocSlot fuel d name v = none → f fuel = none) :
    ∃ r, Results (fun fuel => findOrAllocSlot fuel d name v) r := by
  obtain ⟨n, hn⟩ := hf
  cases hfind : findOrAllocSlot n d name v with
  | none =>
    have hrun := hn n le_rfl
    rw [h n hfind] at hrun
    exact absurd hrun (by simp)
  | some r => exact ⟨r, .of_run (fun _ => findOrAllocSlot_succ) hfind⟩

/-- `find_or_alloc_slot` as what follows its scan. -/
theorem findOrAllocSlot_results_iff (hr : v.Reliable) :
    (∃ r, Results (fun fuel => findOrAllocSlot fuel d name v) r) ↔
      ∀ t, nameTo83 name = some t → LinksEnd v d ∨ Decides v d t := by
  cases ht : nameTo83 name with
  | none => exact ⟨by simp, fun _ => ⟨(none, v), 0, fun fuel _ => by simp [findOrAllocSlot, ht]⟩⟩
  | some t =>
    have hall : (∀ t', some t = some t' → LinksEnd v d ∨ Decides v d t') ↔
        LinksEnd v d ∨ Decides v d t := by simp
    rw [hall, ← slotLoop_results_iff hr]
    constructor
    · rintro ⟨r, n, hn⟩
      have hrun := hn n le_rfl
      simp only [findOrAllocSlot, ht] at hrun
      cases hloop : slotLoop t n (dirCursorInit d) none d v with
      | none => simp [hloop] at hrun
      | some s => exact ⟨s, .of_run (fun _ => slotLoop_succ) hloop⟩
    · rintro ⟨s, n, hn⟩
      have hn' : ∀ fuel, n ≤ fuel → slotLoop t fuel (dirCursorInit d) none d v = some s := hn
      have hsame : ∀ fuel, n ≤ fuel →
          findOrAllocSlot fuel d name v = findOrAllocSlot n d name v := by
        intro fuel hfuel
        simp only [findOrAllocSlot, ht, hn' fuel hfuel, hn' n le_rfl]
      cases hrun : findOrAllocSlot n d name v with
      | some r => exact ⟨r, n, fun fuel hfuel => (hsame fuel hfuel).trans hrun⟩
      | none =>
        simp only [findOrAllocSlot, ht, hn' n le_rfl] at hrun
        split at hrun
        · simp at *
        · simp at hrun
        · simp at hrun
        · split at hrun
          · simp at hrun
          · split at hrun <;> simp at hrun

end lookups

section operations

/-- What the loops that change the disk need in order to come back. -/
structure Freeable (v : Volume) : Prop where
  reliable : v.Reliable
  ordered : v.Ordered
  numFats : 0 < v.bpb.numFats
  sectorsPerFat : 0 < v.bpb.sectorsPerFat

theorem Touches.freeable {v v' : Volume} (h : Touches v v') (hv : Freeable v) : Freeable v' :=
  ⟨h.reliable hv.reliable, h.ordered hv.ordered, h.geometry.bpb.symm ▸ hv.numFats,
    h.geometry.bpb.symm ▸ hv.sectorsPerFat⟩

variable {v : Volume} {d : ℕ} {name : List UInt8}

theorem freeIfAny_results (hv : Freeable v) (c : ℕ) :
    ∃ v', Results (fun fuel => freeIfAny fuel c v) v' := by
  by_cases hc : c = 0
  · exact ⟨v, 0, fun fuel _ => by simp [freeIfAny, hc]⟩
  · simp only [freeIfAny, ne_eq, hc, not_false_eq_true, if_true]
    exact freeClusterChain_results hv.reliable hv.numFats hv.sectorsPerFat c

theorem writeClusters_results (hv : Freeable v) (n first last : ℕ) (data : List UInt8) :
    ∃ r, Results (fun fuel => writeClusters fuel n first last data v) r := by
  induction n generalizing first last data v with
  | zero => exact ⟨_, 0, fun _ _ => rfl⟩
  | succ n ih =>
    simp only [writeClusters]
    have hext := extendClusterChain_touches hv.ordered last
    cases hextend : extendClusterChain last v with
    | mk c v₁ =>
      rw [hextend] at hext
      have hv₁ := hext.freeable hv
      by_cases hc : c = 0
      · obtain ⟨v₂, m, hm⟩ := freeIfAny_results hv₁ first
        refine ⟨(.failed, v₂), m, fun fuel hfuel => ?_⟩
        have hfree : freeIfAny fuel first v₁ = some v₂ := hm fuel hfuel
        simp only [hc, if_true, hfree, Option.map_some]
      · simp only [hc, if_false]
        have hwr := writeSectors_touches v₁.bpb.sectorsPerCluster
          (fatStart_le_clusterToLba hv₁.ordered c) (data.take v₁.clusterSize)
        cases hwrite : writeSectors v₁.bpb.sectorsPerCluster (clusterToLba v₁ c)
            (data.take v₁.clusterSize) v₁ with
        | mk ok v₂ =>
          rw [hwrite] at hwr
          cases ok with
          | false => exact ⟨_, 0, fun _ _ => rfl⟩
          | true => exact ih (hwr.freeable hv₁) _ _ _

/-- Creating comes back when the lookup does. -/
theorem fat16Create_results (hm : v.mounted) (asDirectory : Bool)
    (h : ∃ r, Results (fun fuel => findOrAllocSlot fuel d name v) r) :
    ∃ r, Results (fun fuel => fat16Create fuel d name asDirectory v) r := by
  obtain ⟨⟨slot, v₁⟩, n, hn⟩ := h
  have hfind : ∀ fuel, n ≤ fuel → findOrAllocSlot fuel d name v = some (slot, v₁) := hn
  have hsame : ∀ fuel, n ≤ fuel → fat16Create fuel d name asDirectory v =
      fat16Create n d name asDirectory v := by
    intro fuel hfuel
    simp only [fat16Create, hm, not_true_eq_false, if_false, hfind fuel hfuel, hfind n le_rfl]
  cases hrun : fat16Create n d name asDirectory v with
  | some r => exact ⟨r, n, fun fuel hfuel => (hsame fuel hfuel).trans hrun⟩
  | none =>
    simp only [fat16Create, hm, not_true_eq_false, if_false, hfind n le_rfl] at hrun
    split at hrun
    · simp at *
    · simp at hrun
    · simp at hrun
    · split at hrun
      · simp at hrun
      · split at hrun
        · split at hrun <;> simp at hrun
        · simp at hrun

/-- Deleting comes back when the lookup does. -/
theorem fat16Delete_results (hv : Freeable v) (hm : v.mounted)
    (h : ∃ r, Results (fun fuel => findOrAllocSlot fuel d name v) r) :
    ∃ r, Results (fun fuel => fat16Delete fuel d name v) r := by
  obtain ⟨⟨slot, v₁⟩, n, hn⟩ := h
  have hfind : ∀ fuel, n ≤ fuel → findOrAllocSlot fuel d name v = some (slot, v₁) := hn
  have hv₁ := (findOrAllocSlot_touches hv.ordered (hfind n le_rfl)).1.freeable hv
  obtain _ | ⟨p, _ | e⟩ := slot
  · refine ⟨(false, v₁), n, fun fuel hfuel => ?_⟩
    simp only [fat16Delete, hm, not_true_eq_false, if_false, hfind fuel hfuel]
  · refine ⟨(false, v₁), n, fun fuel hfuel => ?_⟩
    simp only [fat16Delete, hm, not_true_eq_false, if_false, hfind fuel hfuel]
  · obtain ⟨v₂, m, hfree⟩ := freeIfAny_results hv₁ e.firstCluster
    have hfree : ∀ fuel, m ≤ fuel → freeIfAny fuel e.firstCluster v₁ = some v₂ := hfree
    have hv₂ := (freeIfAny_touches (hfree m le_rfl)).freeable hv₁
    refine ⟨writeSector p.sectorLba
      ((v₂.disk p.sectorLba).setByte (p.indexInSector * 32) 0xE5) v₂, max n m,
      fun fuel hfuel => ?_⟩
    simp only [fat16Delete, hm, not_true_eq_false, if_false,
      hfind fuel (le_trans (le_max_left _ _) hfuel),
      hfree fuel (le_trans (le_max_right _ _) hfuel), readSector_eq hv₂.reliable]

/-- Writing comes back when the lookup does. -/
theorem fat16WriteFile_results (hv : Freeable v) (hm : v.mounted) (data : List UInt8)
    (h : ∃ r, Results (fun fuel => findOrAllocSlot fuel d name v) r) :
    ∃ r, Results (fun fuel => fat16WriteFile fuel d name data v) r := by
  obtain ⟨⟨slot, v₁⟩, n, hn⟩ := h
  have hfind : ∀ fuel, n ≤ fuel → findOrAllocSlot fuel d name v = some (slot, v₁) := hn
  have hv₁ := (findOrAllocSlot_touches hv.ordered (hfind n le_rfl)).1.freeable hv
  obtain _ | ⟨p, existing⟩ := slot
  · refine ⟨(false, v₁), n, fun fuel hfuel => ?_⟩
    simp only [fat16WriteFile, hm, not_true_eq_false, if_false, hfind fuel hfuel]
  · cases hentry : existing.or ((nameTo83 name).map (Dirent.fresh · attrArchive)) with
    | none =>
      refine ⟨(false, v₁), n, fun fuel hfuel => ?_⟩
      simp only [fat16WriteFile, hm, not_true_eq_false, if_false, hfind fuel hfuel, hentry]
    | some entry =>
      obtain ⟨v₂, m, hfree⟩ := freeIfAny_results hv₁ entry.firstCluster
      have hfree : ∀ fuel, m ≤ fuel → freeIfAny fuel entry.firstCluster v₁ = some v₂ := hfree
      have hv₂ := (freeIfAny_touches (hfree m le_rfl)).freeable hv₁
      obtain ⟨⟨outcome, v₃⟩, k, hwrite⟩ :=
        writeClusters_results hv₂ (clustersNeeded v₂.clusterSize data.length) 0 0 data
      have hwrite : ∀ fuel, k ≤ fuel → writeClusters fuel
          (clustersNeeded v₂.clusterSize data.length) 0 0 data v₂ = some (outcome, v₃) := hwrite
      have hsteps : ∀ fuel, max n (max m k) ≤ fuel → n ≤ fuel ∧ m ≤ fuel ∧ k ≤ fuel := by
        intro fuel hfuel
        omega
      cases outcome with
      | failed =>
        refine ⟨(false, v₃), max n (max m k), fun fuel hfuel => ?_⟩
        obtain ⟨hnf, hmf, hkf⟩ := hsteps fuel hfuel
        simp only [fat16WriteFile, hm, not_true_eq_false, if_false, hfind fuel hnf, hentry,
          hfree fuel hmf, hwrite fuel hkf]
      | done firstCluster =>
        refine ⟨writeDirentSlot p
          { entry with
            firstClusterLo := UInt16.ofNat firstCluster
            fileSize := UInt32.ofNat data.length } v₃, max n (max m k), fun fuel hfuel => ?_⟩
        obtain ⟨hnf, hmf, hkf⟩ := hsteps fuel hfuel
        simp only [fat16WriteFile, hm, not_true_eq_false, if_false, hfind fuel hnf, hentry,
          hfree fuel hmf, hwrite fuel hkf]

end operations

section walks

variable {v : Volume} {d : ℕ}

/-- `walk_directory` hands this entry to its callback. -/
def Dirent.walked (e : Dirent) : Bool := e.inUse && !e.isVolumeId

/-- A walk with a callback that stops at certain entries. -/
theorem walkSlots_stops_iff {σ : Type} {cb : Fat16Entry → σ → Bool × σ} {P : Fat16Entry → Prop}
    (hcb : ∀ e acc, (cb e acc).1 = false ↔ P e) {read : Slot → Dirent} (l : List Slot) (acc : σ) :
    (walkSlots cb read l acc).1 = false ↔
      ∃ q ∈ l, (read q).isEnd = true ∨ ((read q).walked = true ∧ P (read q).toEntry) := by
  induction l generalizing acc with
  | nil => simp [walkSlots]
  | cons p l ih =>
    rw [walkSlots, List.exists_mem_cons_iff]
    by_cases hend : (read p).isEnd = true
    · simp [hend]
    · have hend' := Bool.eq_false_iff.mpr hend
      rw [if_neg hend]
      split
      · next hdel =>
        rw [ih]
        simp [hend', Dirent.walked, Dirent.inUse, hdel]
      · next hdel =>
        have hdel' := Bool.eq_false_iff.mpr hdel
        by_cases hvol : (read p).isVolumeId = true
        · simp only [hvol, if_true, ite_self]
          rw [ih]
          simp [hend', Dirent.walked, hvol]
        · have hvol' := Bool.eq_false_iff.mpr hvol
          have hwalked : (read p).walked = true := by
            simp [Dirent.walked, Dirent.inUse, hend', hdel', hvol']
          rw [if_neg (by simp [Dirent.isLongName_of_plain hvol']), if_neg hvol]
          have hp := hcb (read p).toEntry acc
          cases hcall : cb (read p).toEntry acc with
          | mk go acc' =>
            rw [hcall] at hp
            cases go with
            | false => simp [hwalked, hp.mp rfl]
            | true =>
              have hnot : ¬ P (read p).toEntry := fun h => by simpa using hp.mpr h
              rw [show (walkSlots cb read l acc').1 = false ↔ _ from ih acc']
              simp [hend', hnot]

theorem walkDirectory_results_iff {σ : Type} {cb : Fat16Entry → σ → Bool × σ}
    {P : Fat16Entry → Prop} (hr : v.Reliable) (hcb : ∀ e acc, (cb e acc).1 = false ↔ P e)
    (acc : σ) :
    (∃ r, Results (fun fuel => walkDirectory cb fuel d acc v) r) ↔
      LinksEnd v d ∨ ∃ n, ∃ q ∈ v.slotsUpTo d n, (v.dirent q).isEnd = true ∨
        ((v.dirent q).walked = true ∧ P (v.dirent q).toEntry) := by
  have hreturns : (∃ fuel r, walkDirectory cb fuel d acc v = some r) ↔ _ :=
    walkDirectory_returns_iff hr acc
  simp only [walkSlots_stops_iff hcb] at hreturns
  rw [← hreturns]
  constructor
  · rintro ⟨r, n, hn⟩
    exact ⟨n, r, hn n le_rfl⟩
  · rintro ⟨n, r, hn⟩
    exact ⟨r, .of_run (fun _ => walkLoop_succ) hn⟩

end walks

section calls

/-- The volume after a call, with its loops as they run. -/
def FsCall.run (fuel : ℕ) (v : Volume) : FsCall → Option Volume
  | .read firstCluster fileSize offset maxLen =>
    (fat16ReadFileRun fuel firstCluster fileSize offset maxLen v).map Prod.snd
  | c => c.step fuel v

/-- The call gets to a division by `cluster_size`, and that is 0. -/
def FsCall.DividesByZero (v : Volume) : FsCall → Prop
  | .write d name data => v.mounted ∧ v.bpb.sectorsPerCluster = 0 ∧ data ≠ [] ∧
      ∃ fuel slot v', findOrAllocSlot fuel d name v = some (some slot, v')
  | .read firstCluster fileSize offset _ => v.mounted ∧ v.bpb.sectorsPerCluster = 0 ∧
      2 ≤ firstCluster ∧ offset < fileSize
  | _ => False

/-- The call comes back. -/
def FsCall.Terminates (v : Volume) (c : FsCall) : Prop :=
  (∃ v', Results (fun fuel => c.run fuel v) v') ∧ ¬ c.DividesByZero v

/-- What a call that comes back needs: the links of the directory end, or a slot of it ends the
walk; and no division by the size of empty clusters. -/
def FsCall.Stops (v : Volume) : FsCall → Prop
  | .list d => LinksEnd v d ∨ ∃ n, ∃ q ∈ v.slotsUpTo d n, (v.dirent q).isEnd = true
  | .stat d name => ∀ t, nameTo83 name = some t → LinksEnd v d ∨
      ∃ n, ∃ q ∈ v.slotsUpTo d n, (v.dirent q).isEnd = true ∨
        ((v.dirent q).walked = true ∧ nameTo83 (nameFrom83 (v.dirent q).name) = some t)
  | .create d name _ => ∀ t, nameTo83 name = some t → LinksEnd v d ∨ Decides v d t
  | .delete d name => ∀ t, nameTo83 name = some t → LinksEnd v d ∨ Decides v d t
  | .write d name data => ∀ t, nameTo83 name = some t → (LinksEnd v d ∨ Decides v d t) ∧
      (v.bpb.sectorsPerCluster = 0 → data ≠ [] → ¬ Decides v d t)
  | .read firstCluster fileSize offset _ =>
      v.bpb.sectorsPerCluster = 0 → firstCluster < 2 ∨ fileSize ≤ offset

theorem results_of_map {α β : Type} {f : ℕ → Option α} {g : α → β}
    (hmono : ∀ n a, f n = some a → f (n + 1) = some a)
    (h : ∃ b, Results (fun fuel => (f fuel).map g) b) : ∃ a, Results f a := by
  obtain ⟨b, n, hn⟩ := h
  obtain ⟨a, ha, -⟩ := Option.map_eq_some_iff.mp (hn n le_rfl)
  exact ⟨a, .of_run (fun n => hmono n a) ha⟩

theorem results_map {α β : Type} {f : ℕ → Option α} (g : α → β) (h : ∃ a, Results f a) :
    ∃ b, Results (fun fuel => (f fuel).map g) b := by
  obtain ⟨a, n, hn⟩ := h
  refine ⟨g a, n, fun fuel hfuel => ?_⟩
  simp only [hn fuel hfuel, Option.map_some]

/-- Mounting accepts only boot sectors with a FAT. -/
theorem fat16Mount_freeable {v v' : Volume} (hr : v.Reliable) (h : fat16Mount v = (true, v')) :
    Freeable v' := by
  obtain ⟨hfrom, hnum⟩ := fat16Mount_mountedFrom h
  refine ⟨fat16Mount_reliable hr h, hfrom.ordered, hfrom.bpb ▸ hnum, ?_⟩
  simp only [fat16Mount, readSector_eq hr] at h
  split at h
  · exact absurd (Prod.mk.inj h).1 (by simp)
  · next hok =>
    push Not at hok
    obtain ⟨-, rfl⟩ := Prod.mk.inj h
    exact hok.2.2.1

theorem fat16Mount_disk {v v' : Volume} (hr : v.Reliable) (h : fat16Mount v = (true, v')) :
    v'.disk = v.disk := by
  simp only [fat16Mount, readSector_eq hr] at h
  split at h
  · exact absurd (Prod.mk.inj h).1 (by simp)
  · obtain ⟨-, rfl⟩ := Prod.mk.inj h
    rfl

variable {v : Volume}

/-- Without clusters no chain is extended. -/
theorem extendClusterChain_none (hclusters : v.totalClusters = 0)
    (hhint : 2 ≤ v.nextFreeClusterHint) (last : ℕ) : (extendClusterChain last v).1 = 0 := by
  have hnone : (fatFindFreeCluster v).1 = 0 := by
    have h₁ : 2 - v.nextFreeClusterHint = 0 := by omega
    have h₂ : min v.nextFreeClusterHint 2 - 2 = 0 := by omega
    simp only [fatFindFreeCluster, hclusters, Nat.zero_add, Nat.reduceMod, h₁, h₂, scanFree]
  rw [extendClusterChain]
  simp only [hnone, if_true]

/-- Without clusters a slot is found only when the directory decides the search. -/
theorem findOrAllocSlot_slot_iff (hr : v.Reliable) (hclusters : v.totalClusters = 0)
    (hhint : 2 ≤ v.nextFreeClusterHint) {d : ℕ} {name : List UInt8} {t : Vector UInt8 11}
    (ht : nameTo83 name = some t) :
    (∃ fuel slot v', findOrAllocSlot fuel d name v = some (some slot, v')) ↔ Decides v d t := by
  constructor
  · rintro ⟨fuel, slot, v', h⟩
    simp only [findOrAllocSlot, ht] at h
    cases hloop : slotLoop t fuel (dirCursorInit d) none d v with
    | none => simp [hloop] at h
    | some s =>
      obtain ⟨r, last, v₁⟩ := s
      rw [hloop] at h
      obtain ⟨rfl, l, cur, hahead, hscan, -⟩ := slotLoop_ahead hr hloop
      have hstops : ∀ f, scanSlots v₁.dirent t (l.flatMap sectorSlots) none ≠ .more f := by
        rintro f hf
        rw [hf] at hscan
        subst hscan
        simp only at h
        split at h
        · simp at h
        · simp [extendClusterChain_none hclusters hhint] at h
      obtain ⟨n, rest, hn⟩ := hahead.exists_slotsUpTo hr
      obtain ⟨q, hq, hdecides⟩ := (scanSlots_stops_iff none).mp hstops
      exact ⟨n, q, by rw [hn]; exact List.mem_append_left _ hq, hdecides⟩
  · rintro ⟨n, hn⟩
    have hstops : ∀ f, scanSlots v.dirent t (v.slotsUpTo d n) none ≠ .more f :=
      (scanSlots_stops_iff none).mpr hn
    obtain ⟨cur, hahead, -⟩ := ahead_init hr d n
    cases hscan : scanSlots v.dirent t (v.slotsUpTo d n) none with
    | more f => exact absurd hscan (hstops f)
    | found p e =>
      obtain ⟨k, hk⟩ := slotLoop_stops hahead hscan (by simp) le_rfl d
      refine ⟨(v.sectorsUpTo d n).length, (p, some e), v, ?_⟩
      simp only [findOrAllocSlot, ht, hk]
    | free p =>
      obtain ⟨k, hk⟩ := slotLoop_stops hahead hscan (by simp) le_rfl d
      refine ⟨(v.sectorsUpTo d n).length, (p, none), v, ?_⟩
      simp only [findOrAllocSlot, ht, hk]

theorem fat16List_succ {fuel d : ℕ} {r : List Fat16Entry × Volume}
    (h : fat16List fuel d v = some r) : fat16List (fuel + 1) d v = some r := by
  rw [fat16List] at h ⊢
  split
  · next hm =>
    rw [if_pos hm] at h
    exact walkLoop_succ h
  · next hm =>
    rw [if_neg hm] at h
    exact h

theorem fat16Stat_succ {fuel d : ℕ} {name : List UInt8} {r : Option Fat16Entry × Volume}
    (h : fat16Stat fuel d name v = some r) : fat16Stat (fuel + 1) d name v = some r := by
  rw [fat16Stat, findInDir] at h ⊢
  split
  · next hm =>
    rw [if_pos hm] at h
    cases hname : nameTo83 name with
    | none =>
      rw [hname] at h
      exact h
    | some t =>
      rw [hname] at h
      exact walkLoop_succ h
  · next hm =>
    rw [if_neg hm] at h
    exact h

/-- The callback of `fat16_list` never stops a walk. -/
theorem list_results_iff (hr : v.Reliable) (hm : v.mounted) (d : ℕ) :
    (∃ r, Results (fun fuel => fat16List fuel d v) r) ↔ (FsCall.list d).Stops v := by
  simp only [fat16List, hm, if_true]
  rw [walkDirectory_results_iff (P := fun _ => False) hr (by simp), FsCall.Stops]
  simp

/-- The callback of `find_in_dir` stops a walk at the first entry that converts to the target. -/
theorem stat_results_iff (hr : v.Reliable) (hm : v.mounted) (d : ℕ) (name : List UInt8) :
    (∃ r, Results (fun fuel => fat16Stat fuel d name v) r) ↔ (FsCall.stat d name).Stops v := by
  simp only [fat16Stat, hm, if_true, findInDir, FsCall.Stops]
  cases ht : nameTo83 name with
  | none => exact ⟨by simp, fun _ => ⟨_, 0, fun _ _ => rfl⟩⟩
  | some t =>
    have hcb : ∀ (e : Fat16Entry) acc, (findTrampoline t e acc).1 = false ↔
        nameTo83 e.name = some t := by
      intro e acc
      rw [findTrampoline]
      cases nameTo83 e.name with
      | none => simp
      | some n => by_cases hn : n = t <;> simp [hn]
    simp only
    rw [walkDirectory_results_iff hr hcb]
    simp [Dirent.toEntry]

/-- The calls that change the disk come back exactly when their lookup does. -/
theorem lookup_results_iff (hr : v.Reliable) {d : ℕ} {name : List UInt8}
    {f : ℕ → Option (Bool × Volume)}
    (hnone : ∀ fuel, findOrAllocSlot fuel d name v = none → f fuel = none)
    (hback : (∃ r, Results (fun fuel => findOrAllocSlot fuel d name v) r) → ∃ r, Results f r) :
    (∃ v', Results (fun fuel => (f fuel).map Prod.snd) v') ↔
      ∀ t, nameTo83 name = some t → LinksEnd v d ∨ Decides v d t := by
  rw [← findOrAllocSlot_results_iff hr]
  refine ⟨fun ⟨v', h⟩ => findOrAllocSlot_results h fun fuel hf => ?_,
    fun h => results_map _ (hback h)⟩
  rw [hnone fuel hf]
  rfl

/-- In every state a mounted disk gets into, a call comes back exactly when its walk ends and it
does not divide by zero. -/
theorem terminates_iff {v₀ v₁ : Volume} (hr : v₀.Reliable) (hmount : fat16Mount v₀ = (true, v₁))
    (hrun : FsRun v₁ v) (c : FsCall) : c.Terminates v ↔ c.Stops v := by
  have hv₁ := fat16Mount_freeable hr hmount
  have htouches := hrun.touches hv₁.ordered
  have hv := htouches.freeable hv₁
  have hfrom := (fat16Mount_mountedFrom hmount).1
  have hm : v.mounted = true := htouches.geometry.mounted.trans hfrom.mounted
  have hempty : v.bpb.sectorsPerCluster = 0 → v.totalClusters = 0 := by
    intro h0
    rw [htouches.geometry.bpb, hfrom.bpb] at h0
    rw [htouches.geometry.totalClusters, hfrom.totalClusters, if_neg (by simp [h0])]
  have hhint : 2 ≤ v.nextFreeClusterHint := htouches.hint hfrom.hint.ge
  rw [FsCall.Terminates]
  cases c with
  | list d =>
    rw [and_iff_left (by simp [FsCall.DividesByZero]), ← list_results_iff hv.reliable hm]
    exact ⟨results_of_map fun _ _ => fat16List_succ, results_map _⟩
  | stat d name =>
    rw [and_iff_left (by simp [FsCall.DividesByZero]), ← stat_results_iff hv.reliable hm]
    exact ⟨results_of_map fun _ _ => fat16Stat_succ, results_map _⟩
  | create d name asDirectory =>
    rw [and_iff_left (by simp [FsCall.DividesByZero])]
    exact lookup_results_iff hv.reliable (fun fuel hf => by simp [fat16Create, hm, hf])
      (fat16Create_results hm asDirectory)
  | delete d name =>
    rw [and_iff_left (by simp [FsCall.DividesByZero])]
    exact lookup_results_iff hv.reliable (fun fuel hf => by simp [fat16Delete, hm, hf])
      (fat16Delete_results hv hm)
  | write d name data =>
    have hback : (∃ v', Results (fun fuel => (fat16WriteFile fuel d name data v).map Prod.snd) v') ↔
        ∀ t, nameTo83 name = some t → LinksEnd v d ∨ Decides v d t := lookup_results_iff hv.reliable
      (fun fuel hf => by simp [fat16WriteFile, hm, hf]) (fat16WriteFile_results hv hm data)
    rw [show (∃ v', Results (fun fuel => (FsCall.write d name data).run fuel v) v') ↔ _ from hback,
      FsCall.Stops, FsCall.DividesByZero]
    cases ht : nameTo83 name with
    | none =>
      simp only [reduceCtorEq, false_imp_iff, implies_true, true_and, iff_true]
      rintro ⟨-, -, -, fuel, slot, v', h⟩
      simp [findOrAllocSlot, ht] at h
    | some t =>
      simp only [Option.some.injEq, forall_eq']
      refine and_congr_right fun _ => ⟨fun h h0 hdata hdecides => h ⟨hm, h0, hdata, ?_⟩, ?_⟩
      · exact (findOrAllocSlot_slot_iff hv.reliable (hempty h0) hhint ht).mpr hdecides
      · rintro h ⟨-, h0, hdata, hslot⟩
        exact h h0 hdata ((findOrAllocSlot_slot_iff hv.reliable (hempty h0) hhint ht).mp hslot)
  | read firstCluster fileSize offset maxLen =>
    have hread : (∃ v', Results (fun fuel =>
          (FsCall.read firstCluster fileSize offset maxLen).run fuel v) v') ∧
        ¬ (FsCall.read firstCluster fileSize offset maxLen).DividesByZero v ↔
        ¬ (FsCall.read firstCluster fileSize offset maxLen).DividesByZero v := by
      refine and_iff_right_of_imp fun hdiv => results_map _ ⟨_, fat16ReadFileRun_results hv.reliable
        firstCluster fileSize offset maxLen ?_⟩
      simp only [FsCall.DividesByZero, hm, true_and] at hdiv
      omega
    rw [hread, FsCall.DividesByZero, FsCall.Stops]
    simp only [hm, true_and]
    omega

/-- A disk of 20 sectors with one FAT, of which cluster 2 is linked to itself. Behind the FAT every
byte is the letter A. -/
def selfLinkedDisk : Volume where
  bpb := ⟨0, 0, 0⟩
  mounted := false
  fatStartLba := 0
  rootDirStartLba := 0
  rootDirSectors := 0
  dataStartLba := 0
  totalClusters := 0
  nextFreeClusterHint := 2
  disk := fun lba i =>
    if lba = 0 then
      match i.val with
      | 12 => 2
      | 13 => 1
      | 14 => 1
      | 16 => 1
      | 17 => 16
      | 19 => 20
      | 22 => 1
      | 510 => 0x55
      | 511 => 0xAA
      | _ => 0
    else if lba = 1 then if i.val = 4 then 2 else 0
    else 65
  faults := fun _ => false

theorem selfLinkedDisk_mount : ∃ v, fat16Mount selfLinkedDisk = (true, v) :=
  eq_true_of_fst (by decide)

theorem terminates_selfLinkedDisk :
    ∃ v, fat16Mount selfLinkedDisk = (true, v) ∧ (FsCall.list 0).Terminates v := by
  obtain ⟨v, hmount⟩ := selfLinkedDisk_mount
  have hr : selfLinkedDisk.Reliable := rfl
  exact ⟨v, hmount, (terminates_iff hr hmount .refl _).mpr (.inl (.inl rfl))⟩

/-- Where every byte behind the FATs is the letter A, all slots of a directory are the same. -/
theorem dirent_of_letters (ho : v.Ordered)
    (hletters : ∀ lba, v.rootDirStartLba ≤ lba → v.disk lba = fun _ => 65) {d n : ℕ} :
    ∀ q ∈ v.slotsUpTo d n, (v.dirent q).isEnd = false ∧
      (v.dirent q).name = Vector.replicate 11 65 := by
  intro q hq
  obtain ⟨lba, hlba, hq⟩ := List.mem_flatMap.mp hq
  have hlow : v.rootDirStartLba ≤ lba := by
    have hdata := ho.2
    rw [Volume.sectorsUpTo] at hlba
    split at hlba
    · obtain ⟨i, -, rfl⟩ := List.mem_map.mp hlba
      exact Nat.le_add_right _ _
    · obtain ⟨c, -, hlba⟩ := List.mem_flatMap.mp hlba
      obtain ⟨i, -, rfl⟩ := List.mem_map.mp hlba
      rw [clusterToLba]
      omega
  rw [Volume.dirent, (mem_sectorSlots.mp hq).1, hletters lba hlow]
  exact ⟨rfl, rfl⟩

/-- Listing the directory in cluster 2 goes round for ever. -/
theorem list_selfLinkedDisk_diverges :
    ¬ ∀ (v₀ v₁ : Volume) (c : FsCall), v₀.Reliable → fat16Mount v₀ = (true, v₁) →
      c.Terminates v₁ := by
  intro hall
  obtain ⟨v, hmount⟩ := selfLinkedDisk_mount
  have hr₀ : selfLinkedDisk.Reliable := rfl
  obtain ⟨hlist, -⟩ := hall _ v (.list 2) hr₀ hmount
  have hfrom := (fat16Mount_mountedFrom hmount).1
  have hr := fat16Mount_reliable hr₀ hmount
  have hroot : v.rootDirStartLba = 2 := hfrom.rootDirStartLba.trans (by decide)
  have hfat : v.fatStartLba = 1 := hfrom.fatStartLba.trans (by decide)
  have hdisk := fat16Mount_disk hr₀ hmount
  -- the link of cluster 2 is 2
  have hself : v.fat 2 = 2 := by
    rw [Volume.fat, hfat, hdisk]
    decide
  have hletters : ∀ lba, v.rootDirStartLba ≤ lba → v.disk lba = fun _ => 65 := by
    intro lba hlow
    rw [hroot] at hlow
    rw [hdisk]
    funext k
    simp only [selfLinkedDisk]
    rw [if_neg (by omega), if_neg (by omega)]
  obtain hend | ⟨n, q, hq, hend⟩ :=
    (list_results_iff hr hfrom.mounted 2).mp (results_of_map (fun _ _ => fat16List_succ) hlist)
  · obtain ⟨n, hn⟩ := hend.resolve_left (by decide)
    rw [Function.iterate_fixed hself] at hn
    exact hn (by decide)
  · rw [(dirent_of_letters hfrom.ordered hletters q hq).1] at hend
    exact absurd hend (by decide)

end calls

end AuroraOS.Fat16
