import AuroraOS.Fat16.Contents
import AuroraOS.Fat16.Lookup

/-!
# The operations

One specification for each of `fat16_create`, `fat16_delete` and `fat16_write_file` on a volume
that satisfies the invariant. `Effect v d t v'` is what an operation on the name `t` of
directory `d` that keeps the invariant may have done.

## Main results

- `writeClusters_spec` — the data loop succeeds exactly when enough clusters are free
- `fat16Create_spec`, `fat16Delete_spec`, `fat16WriteFile_spec`
-/

namespace AuroraOS.Fat16

variable {v v' : Volume} {hole : Option Slot} {float : List ℕ} {d fuel : ℕ} {name : List UInt8}
  {t : Vector UInt8 11} {p : Slot}

/-- The data clusters that are free. -/
def Volume.freeClusters (v : Volume) : Finset ℕ :=
  (Finset.Ico 2 (v.totalClusters + 2)).filter fun c => v.fat c = 0

theorem mem_freeClusters {c : ℕ} : c ∈ v.freeClusters ↔ v.InRange c ∧ v.fat c = 0 := by
  rw [Volume.freeClusters, Finset.mem_filter, Finset.mem_Ico, Volume.InRange]

/-- Extending a chain takes one free cluster. -/
theorem Extended.freeClusters {last c : ℕ} (hx : Extended v last c v') (hc : v.InRange c)
    (hlast : last = 0 ∨ v.fat last ≠ 0) : v'.freeClusters = v.freeClusters.erase c := by
  ext c'
  rw [Finset.mem_erase, mem_freeClusters, mem_freeClusters, hx.geometry.inRange]
  have hc0 := hc.1
  constructor
  · rintro ⟨hc', hfree⟩
    rw [hx.fat c' hc'] at hfree
    split at hfree
    · omega
    · split at hfree
      · exact absurd hfree (by decide)
      · next hne => exact ⟨hne, hc', hfree⟩
  · rintro ⟨hne, hc', hfree⟩
    refine ⟨hc', ?_⟩
    have hcl : c' ≠ last := by
      rintro rfl
      obtain h0 | hne0 := hlast
      · have := hc'.1
        omega
      · exact hne0 hfree
    rw [hx.fat c' hc', if_neg hcl, if_neg hne, hfree]

theorem freeClusters_congr (hg : v.SameGeometry v')
    (hfat : ∀ c, v.InRange c → v'.fat c = v.fat c) : v'.freeClusters = v.freeClusters := by
  ext c
  rw [mem_freeClusters, mem_freeClusters, hg.inRange]
  exact and_congr_right fun hc => by rw [hfat c hc]

/-- Freeing the clusters in progress makes all of them free. -/
theorem Freed.card_freeClusters (hf : Freed v float v') (h : Inv v hole float) :
    v'.freeClusters.card = v.freeClusters.card + float.length := by
  have hnd : float.Nodup := by
    obtain rfl | ⟨c, hch⟩ := h.float_chain
    · exact List.nodup_nil
    · exact hch.nodup (inRange_not_eoc h.sound)
  have hunion : v'.freeClusters = v.freeClusters ∪ float.toFinset := by
    ext c
    rw [Finset.mem_union, mem_freeClusters, mem_freeClusters, List.mem_toFinset,
      hf.geometry.inRange]
    constructor
    · rintro ⟨hc, hfree⟩
      rw [hf.fat c hc] at hfree
      split at hfree
      · next hmem => exact .inr hmem
      · exact .inl ⟨hc, hfree⟩
    · rintro (⟨hc, hfree⟩ | hmem)
      · exact ⟨hc, by rw [hf.fat c hc, hfree, ite_self]⟩
      · have hc := h.inRange_of_mem_float hmem
        exact ⟨hc, by rw [hf.fat c hc, if_pos hmem]⟩
  have hdisj : Disjoint v.freeClusters float.toFinset := by
    rw [Finset.disjoint_left]
    intro c hc hmem
    exact h.fat_ne_zero_of_mem_float (List.mem_toFinset.mp hmem) (mem_freeClusters.mp hc).2
  rw [hunion, Finset.card_union_of_disjoint hdisj, List.toFinset_card_of_nodup hnd]

/-- The volume with `bytes`, cut into zero-padded sectors, from sector `lba` on, but at most `n`
    sectors of them. -/
def Volume.fillSectors (v : Volume) (n lba : ℕ) (bytes : List UInt8) : Volume :=
  v.withDisk fun l =>
    if lba ≤ l ∧ l < lba + n ∧ (l - lba) * 512 < bytes.length then
      Sector.ofBytes ((bytes.drop ((l - lba) * 512)).take 512)
    else v.disk l

theorem writeSectors_eq (hr : v.Reliable) (n lba : ℕ) (bytes : List UInt8) :
    writeSectors n lba bytes v = (true, v.fillSectors n lba bytes) := by
  induction n generalizing lba bytes v with
  | zero =>
    refine Prod.ext rfl (congrArg v.withDisk (funext fun l => ?_))
    rw [if_neg (by omega)]
  | succ n ih =>
    rw [writeSectors]
    split
    · next hnil =>
      subst hnil
      refine Prod.ext rfl (congrArg v.withDisk (funext fun l => ?_))
      rw [if_neg (by simp)]
    · next hne =>
      have hpos := List.length_pos_iff.mpr hne
      simp only [writeSector_eq hr]
      refine (@ih (v.setSector lba _) (hr.withDisk _) (lba + 1) (bytes.drop 512)).trans
        (Prod.ext rfl (congrArg v.withDisk (funext fun l => ?_)))
      simp only [Volume.setSector, Volume.withDisk_disk, List.length_drop, List.drop_drop]
      by_cases hl : l = lba
      · subst hl
        rw [Function.update_self, if_neg (by omega), if_pos (by omega)]
        simp
      · rw [Function.update_of_ne hl]
        by_cases hlt : lba < l
        · rw [show 512 + (l - (lba + 1)) * 512 = (l - lba) * 512 by omega]
          exact if_congr (by omega) rfl rfl
        · rw [if_neg (by omega), if_neg (by omega)]

theorem prefix_ofBytes {bytes : List UInt8} (h : bytes.length ≤ 512) :
    bytes <+: List.ofFn (Sector.ofBytes bytes) := by
  refine List.prefix_iff_getElem.mpr ⟨by rw [List.length_ofFn]; exact h, fun i hi => ?_⟩
  rw [List.getElem_ofFn, Sector.ofBytes, List.getD_eq_getElem _ _ hi]

/-- Two prefixes after each other, if the first one is complete or the second one empty. -/
theorem prefix_append_of_chunks {a b x y : List UInt8} (ha : a <+: x) (hb : b <+: y)
    (h : x.length ≤ a.length ∨ b = []) : a ++ b <+: x ++ y := by
  obtain hlen | rfl := h
  · obtain rfl := ha.eq_of_length_le hlen
    exact List.prefix_append_right_inj _ |>.mpr hb
  · rw [List.append_nil]
    exact ha.trans (List.prefix_append x y)

/-- Bytes cut into zero-padded sectors are at the start of those sectors. -/
theorem prefix_sectorBytes {n lba : ℕ} {bytes : List UInt8} (hlen : bytes.length ≤ n * 512)
    (h : ∀ i < n, i * 512 < bytes.length →
      v.disk (lba + i) = Sector.ofBytes ((bytes.drop (i * 512)).take 512)) :
    bytes <+: v.sectorBytes n lba := by
  induction n generalizing lba bytes with
  | zero =>
    obtain rfl : bytes = [] := List.length_eq_zero_iff.mp (by omega)
    exact List.nil_prefix
  | succ n ih =>
    by_cases hnil : bytes = []
    · rw [hnil]
      exact List.nil_prefix
    · have hpos := List.length_pos_iff.mpr hnil
      have hfirst := h 0 (by omega) (by omega)
      rw [Nat.add_zero, Nat.zero_mul, List.drop_zero] at hfirst
      rw [Volume.sectorBytes, hfirst]
      conv_lhs => rw [← List.take_append_drop 512 bytes]
      refine prefix_append_of_chunks (prefix_ofBytes (by rw [List.length_take]; omega)) ?_ ?_
      · refine ih (by rw [List.length_drop]; omega) fun i hi hlt => ?_
        rw [List.length_drop] at hlt
        have hnext := h (i + 1) (Nat.succ_lt_succ hi)
        rw [Nat.succ_mul] at hnext
        replace hnext := hnext (Nat.add_lt_of_lt_sub hlt)
        rw [Nat.add_comm (i * 512)] at hnext
        rw [List.drop_drop, ← hnext, Nat.add_assoc, Nat.add_comm 1 i]
      · rw [List.length_ofFn, List.length_take]
        by_cases hshort : bytes.length ≤ 512
        · exact .inr (List.drop_eq_nil_of_le hshort)
        · exact .inl (by omega)

/-- A filled cluster starts with the bytes. -/
theorem prefix_fillSectors {c : ℕ} {bytes : List UInt8} (hlen : bytes.length ≤ v.clusterSize) :
    bytes <+: (v.fillSectors v.bpb.sectorsPerCluster (clusterToLba v c) bytes).clusterBytes c := by
  refine prefix_sectorBytes hlen fun i (hi : i < v.bpb.sectorsPerCluster) hlt => ?_
  have hsub : clusterToLba v c + i - clusterToLba v c = i := by omega
  have hdisk : (v.fillSectors v.bpb.sectorsPerCluster (clusterToLba v c) bytes).disk
      (clusterToLba v c + i) = Sector.ofBytes ((bytes.drop
        ((clusterToLba v c + i - clusterToLba v c) * 512)).take 512) :=
    if_pos ⟨by omega, by omega, by rwa [hsub]⟩
  rw [hsub] at hdisk
  exact hdisk

/-- Filling a cluster in progress. -/
theorem Inv.fill_float (h : Inv v hole float) {c : ℕ} (hc : c ∈ float) (bytes : List UInt8) :
    Inv (v.fillSectors v.bpb.sectorsPerCluster (clusterToLba v c) bytes) hole float ∧
      Quiet hole v (v.fillSectors v.bpb.sectorsPerCluster (clusterToLba v c) bytes) ∧
      ∀ c', v.InRange c' →
        (v.fillSectors v.bpb.sectorsPerCluster (clusterToLba v c) bytes).fat c' = v.fat c' := by
  have hdisk : ∀ lba, lba ∉ clusterSectors v c →
      (v.fillSectors v.bpb.sectorsPerCluster (clusterToLba v c) bytes).disk lba = v.disk lba := by
    intro lba hlba
    rw [mem_clusterSectors] at hlba
    exact if_neg (by omega)
  have hlow : ∀ lba < v.rootDirStartLba,
      (v.fillSectors v.bpb.sectorsPerCluster (clusterToLba v c) bytes).disk lba = v.disk lba := by
    intro lba hlba
    refine hdisk lba fun hmem => ?_
    have := root_start_le_of_mem_cluster h.sound hmem
    omega
  have hfat := fun c' (hc' : v.InRange c') => fat_congr h.sound (.withDisk v _) hlow hc'
  obtain ⟨hinv, hq⟩ := h.write_float (.withDisk v _) (h.sound.withDisk _)
    (fatsAgree_congr h.sound (.withDisk v _) hlow h.agree) hfat
    fun lba _ hnot => hdisk lba (hnot c hc)
  exact ⟨hinv, hq, hfat⟩

/-- `first` and `last` are the ends of the chain in progress, 0 if there is none yet. -/
def ChainEnds (float : List ℕ) (first last : ℕ) : Prop :=
  (float = [] ∧ first = 0 ∧ last = 0) ∨
    ∃ hne : float ≠ [], first = float.head hne ∧ last = float.getLast hne

theorem Inv.chain_of_ends (h : Inv v hole float) {first last : ℕ}
    (he : ChainEnds float first last) : (float = [] ∧ first = 0) ∨ IsChain v first float := by
  obtain ⟨hnil, h0, _⟩ | ⟨hne, hfirst, _⟩ := he
  · exact .inl ⟨hnil, h0⟩
  · obtain hnil | ⟨c, hch⟩ := h.float_chain
    · exact absurd hnil hne
    · obtain ⟨l, rfl⟩ := hch.exists_eq_cons
      rw [List.head_cons] at hfirst
      exact .inr (hfirst ▸ hch)

/-- `if (first_cluster != 0) free_cluster_chain(first_cluster)` frees a chain. -/
theorem freeIfAny_eq (hs : v.Sound) (hfuel : v.fuelBound ≤ fuel) {first : ℕ} {l : List ℕ}
    (hch : (l = [] ∧ first = 0) ∨ IsChain v first l) :
    freeIfAny fuel first v = some (v.freeAll l) ∧ Freed v l (v.freeAll l) := by
  obtain ⟨rfl, rfl⟩ | hch := hch
  · exact ⟨rfl, freeAll_spec hs (by simp)⟩
  · have h0 : first ≠ 0 := by
      have := (hch.live_of_mem _ hch.head_mem).1
      omega
    have hlen := hch.length_lt_fuelBound hs
    rw [freeIfAny, if_pos h0, freeClusterChain_eq hs hch (by omega)]
    exact ⟨rfl, freeAll_spec hs hch.live_of_mem⟩

/-- The data loop of `fat16_write_file`: with enough free clusters the chain in progress grows by
    one cluster per round, otherwise all of it is free in the end. -/
theorem writeClusters_spec (h : Inv v hole float) (hfuel : v.fuelBound ≤ fuel) {first last : ℕ}
    (he : ChainEnds float first last) (n : ℕ) (data : List UInt8) :
    (n ≤ v.freeClusters.card → ∃ v' new first' last',
      writeClusters fuel n first last data v = some (.done first', v') ∧ new.length = n ∧
        Inv v' hole (float ++ new) ∧ Quiet hole v v' ∧ ChainEnds (float ++ new) first' last' ∧
        (∀ c ∈ float, ∀ lba ∈ clusterSectors v c, v'.disk lba = v.disk lba) ∧
        data.take (n * v.clusterSize) <+: v'.chainBytes new) ∧
    (v.freeClusters.card < n → ∃ v',
      writeClusters fuel n first last data v = some (.failed, v') ∧ Inv v' hole [] ∧
        Quiet hole v v') := by
  induction n generalizing v float first last data with
  | zero =>
    refine ⟨fun _ => ⟨v, [], first, last, rfl, rfl, ?_, .refl hole v, ?_, fun _ _ _ _ => rfl, ?_⟩,
      fun hlt => absurd hlt (Nat.not_lt_zero _)⟩
    · rwa [List.append_nil]
    · rwa [List.append_nil]
    · rw [Nat.zero_mul, List.take_zero]
      exact List.nil_prefix
  | succ n ih =>
    have hlast : last = 0 ∨ v.InRange last := by
      obtain ⟨_, _, h0⟩ | ⟨hne, _, hl⟩ := he
      · exact .inl h0
      · exact .inr (hl ▸ h.inRange_of_mem_float (List.getLast_mem hne))
    rw [writeClusters]
    obtain ⟨c, hc, hfree, heq⟩ | ⟨hfull, heq⟩ := extendClusterChain_spec h.sound hlast
    · have hc0 : c ≠ 0 := by
        have := hc.1
        omega
      have hx := extended_spec h.sound hc hlast
      obtain ⟨hinv₁, hq₁⟩ := h.extend_float hc hfree (by
        obtain ⟨hnil, _, h0⟩ | ⟨hne, _, hl⟩ := he
        · exact .inl ⟨hnil, h0⟩
        · exact .inr ⟨hne, hl⟩) hx
      have hcard : v.freeClusters.card = (v.extended last c).freeClusters.card + 1 := by
        have hmem : c ∈ v.freeClusters := mem_freeClusters.mpr ⟨hc, hfree⟩
        rw [hx.freeClusters hc, Finset.card_erase_add_one hmem]
        obtain ⟨_, _, h0⟩ | ⟨hne, _, hl⟩ := he
        · exact .inl h0
        · exact .inr (hl ▸ h.fat_ne_zero_of_mem_float (List.getLast_mem hne))
      obtain ⟨hinv₂, hq₂, hfat₂⟩ := hinv₁.fill_float (c := c) (by simp)
        (data.take (v.extended last c).clusterSize)
      have hcard₂ := congrArg Finset.card (freeClusters_congr hq₂.geometry hfat₂)
      have hends : ChainEnds (float ++ [c]) (if first = 0 then c else first) c := by
        refine .inr ⟨by simp, ?_, by simp⟩
        obtain ⟨hnil, h0, _⟩ | ⟨hne, hfirst, _⟩ := he
        · simp [hnil, h0]
        · have hpos : first ≠ 0 := by
            have := (h.inRange_of_mem_float (List.head_mem hne)).1
            omega
          rw [if_neg hpos, hfirst, List.head_append_left hne]
      have hgeo := hx.geometry.trans hq₂.geometry
      have hfill : ∀ lba, lba ∉ clusterSectors (v.extended last c) c →
          ((v.extended last c).fillSectors (v.extended last c).bpb.sectorsPerCluster
            (clusterToLba (v.extended last c) c)
            (data.take (v.extended last c).clusterSize)).disk lba =
          (v.extended last c).disk lba := by
        intro lba hlba
        rw [mem_clusterSectors] at hlba
        exact if_neg (by omega)
      simp only [heq, if_neg hc0, writeSectors_eq hx.sound.reliable]
      obtain ⟨hok, hfail⟩ := ih hinv₂ (by rwa [hgeo.fuelBound]) hends
        (data.drop (v.extended last c).clusterSize)
      rw [hcard₂] at hok hfail
      refine ⟨fun hle => ?_, fun hlt => ?_⟩
      · obtain ⟨v', new, first', last', hrun, hlen, hinv', hq', hends', hkept, hdata⟩ :=
          hok (by omega)
        rw [List.append_assoc] at hinv' hends'
        refine ⟨v', c :: new, first', last', hrun, by simp [hlen], hinv',
          (hq₁.trans hq₂).trans hq', hends', fun c' hc' lba hlba => ?_, ?_⟩
        · -- the new cluster is not among those in progress
          have hcc : c' ≠ c := by
            rintro rfl
            exact h.fat_ne_zero_of_mem_float hc' hfree
          have hnot : lba ∉ clusterSectors v c := fun hmem =>
            hcc (eq_of_mem_clusterSectors (h.inRange_of_mem_float hc').1 hc.1 hlba hmem)
          rw [hkept c' (List.mem_append_left _ hc') lba (by rwa [hgeo.clusterSectors]),
            hfill lba (by rwa [hx.geometry.clusterSectors]),
            hx.disk lba (root_start_le_of_mem_cluster h.sound hlba), if_neg hnot]
        · rw [chainBytes_cons, Nat.succ_mul, Nat.add_comm, List.take_add]
          have hcluster : v'.clusterBytes c = (Volume.fillSectors (v.extended last c)
              (v.extended last c).bpb.sectorsPerCluster (clusterToLba (v.extended last c) c)
              (data.take (v.extended last c).clusterSize)).clusterBytes c := by
            have hsame := chainBytes_congr (l := [c]) hq'.geometry fun c' hc' =>
              hkept c' (List.mem_append_right _ hc')
            simpa [Volume.chainBytes] using hsame
          have hcs := hx.geometry.clusterSize
          refine prefix_append_of_chunks ?_ ?_ ?_
          · rw [hcluster, ← hcs]
            exact prefix_fillSectors (by rw [List.length_take]; omega)
          · rw [hq₂.geometry.clusterSize, hcs] at hdata
            exact hdata
          · rw [length_clusterBytes, hq'.geometry.clusterSize, hq₂.geometry.clusterSize, hcs,
              List.length_take]
            by_cases hshort : data.length ≤ v.clusterSize
            · exact .inr (by rw [List.drop_eq_nil_of_le hshort, List.take_nil])
            · exact .inl (by omega)
      · obtain ⟨v', hrun, hinv', hq'⟩ := hfail (by omega)
        exact ⟨v', hrun, hinv', (hq₁.trans hq₂).trans hq'⟩
    · -- the disk is full
      have hzero : v.freeClusters.card = 0 := by
        rw [Finset.card_eq_zero, Finset.eq_empty_iff_forall_notMem]
        intro c hc
        exact hfull c (mem_freeClusters.mp hc).1 (mem_freeClusters.mp hc).2
      obtain ⟨hrun, hfreed⟩ := freeIfAny_eq h.sound hfuel (h.chain_of_ends he)
      obtain ⟨hinv', hq'⟩ := h.free_float hfreed
      refine ⟨fun hle => by omega, fun _ => ⟨v.freeAll float, ?_, hinv', hq'⟩⟩
      simp only [heq, if_true, hrun, Option.map_some]

/-- A name of printable ASCII characters. -/
def Printable (name : List UInt8) : Prop := ∀ c ∈ name, 32 ≤ c ∧ c ≤ 126

instance : DecidablePred Printable := fun name =>
  inferInstanceAs (Decidable (∀ c ∈ name, 32 ≤ c ∧ c ≤ 126))

theorem upcase_toNat (c : UInt8) :
    (upcase c).toNat = if 97 ≤ c.toNat ∧ c.toNat ≤ 122 then c.toNat - 32 else c.toNat := by
  have h97 : (97 : UInt8).toNat = 97 := rfl
  have h122 : (122 : UInt8).toNat = 122 := rfl
  rw [upcase]
  simp only [UInt8.le_iff_toNat_le, h97, h122]
  split
  · next hl => exact UInt8.toNat_sub_of_le _ _ (UInt8.le_iff_toNat_le.mpr (by
      have : (32 : UInt8).toNat = 32 := rfl
      omega))
  · rfl

theorem upcase_printable {c : UInt8} (h : 32 ≤ c ∧ c ≤ 126) :
    upcase c ≠ 0x00 ∧ upcase c ≠ 0xE5 := by
  have h1 : 32 ≤ c.toNat := UInt8.le_iff_toNat_le.mp h.1
  have h2 : c.toNat ≤ 126 := UInt8.le_iff_toNat_le.mp h.2
  have hup := upcase_toNat c
  constructor <;> intro hc <;> rw [hc] at hup <;> revert hup
  · rw [show (0x00 : UInt8).toNat = 0 from rfl]
    split <;> omega
  · rw [show (0xE5 : UInt8).toNat = 229 from rfl]
    split <;> omega

/-- A stored name begins with a blank or with a character of the name. -/
theorem nameTo83_head (ht : nameTo83 name = some t) :
    getElem t 0 zero_lt_eleven = 32 ∨
      ∃ c ∈ cString name, getElem t 0 zero_lt_eleven = upcase c := by
  have hfirst : ∀ ext,
      getElem (name83 (((cString name).takeWhile (· ≠ 46)).take 8) ext) 0 zero_lt_eleven = 32 ∨
        ∃ c ∈ cString name,
          getElem (name83 (((cString name).takeWhile (· ≠ 46)).take 8) ext) 0 zero_lt_eleven =
            upcase c := by
    intro ext
    have hget : getElem (name83 (((cString name).takeWhile (· ≠ 46)).take 8) ext) 0 zero_lt_eleven =
        ((((cString name).takeWhile (· ≠ 46)).take 8).map upcase).getD 0 32 := by
      rw [name83, Vector.getElem_append_left (by decide), padTo, Vector.getElem_ofFn]
    rw [hget]
    cases hb : ((cString name).takeWhile (· ≠ 46)).take 8 with
    | nil => exact .inl rfl
    | cons c l =>
      have hmem : c ∈ ((cString name).takeWhile (· ≠ 46)).take 8 := by
        rw [hb]
        exact List.mem_cons_self
      exact .inr ⟨c, (List.takeWhile_sublist _).subset (List.mem_of_mem_take hmem), rfl⟩
  rw [nameTo83] at ht
  split at ht
  · obtain rfl := Option.some.inj ht
    exact hfirst []
  · split at ht
    · exact absurd ht (by simp)
    · split at ht
      · exact absurd ht (by simp)
      · obtain rfl := Option.some.inj ht
        exact hfirst _

/-- The stored form of a printable name marks its slot as used. -/
theorem nameTo83_inUse (hp : Printable name) (ht : nameTo83 name = some t) {e : Dirent}
    (he : e.name = t) : e.inUse = true := by
  have htop : getElem t 0 zero_lt_eleven ≠ 0x00 ∧ getElem t 0 zero_lt_eleven ≠ 0xE5 := by
    obtain hblank | ⟨c, hc, hhead⟩ := nameTo83_head ht
    · rw [hblank]
      exact ⟨by decide, by decide⟩
    · rw [hhead]
      exact upcase_printable (hp c ((List.takeWhile_sublist _).subset hc))
  subst he
  simp [Dirent.inUse, Dirent.isEnd, Dirent.isDeleted, htop.1, htop.2]

/-- An operation works on slot `p` of directory `d`, where no other entry has the name `t`. -/
structure Opened (v : Volume) (d : ℕ) (t : Vector UInt8 11) (p : Slot) (float : List ℕ) :
    Prop where
  inv : Inv v (some p) float
  reach : ReachDir v (some p) d
  split : ∃ l₁ l₂, dirSlots v d = l₁ ++ p :: l₂ ∧ ∀ q ∈ l₁, (v.dirent q).isEnd = false
  name : ∀ q, Entry v (some p) d q → (v.dirent q).name ≠ t

namespace Opened

theorem mem (ho : Opened v d t p float) : p ∈ dirSlots v d := by
  obtain ⟨l₁, l₂, hsplit, _⟩ := ho.split
  simp [hsplit]

/-- The slot of an existing leaf. -/
theorem of_entry (h : Inv v none []) (he : Entry v none d p) (hleaf : LeafSlot v p)
    (hname : (v.dirent p).name = t) : Opened v d t p (v.chainOf p) := by
  refine ⟨h.open_entry he hleaf, reachDir_some_of_live he.reach he.live hleaf, ?_, ?_⟩
  · obtain ⟨l₁, l₂, hsplit⟩ := List.append_of_mem he.live.1
    refine ⟨l₁, l₂, hsplit, fun q hq => ?_⟩
    -- behind an end marker there would be no slot in use
    have hends := h.ends d he.reach
    rw [hsplit] at hends
    have hqp := (List.pairwise_append.mp hends).2.2 q hq p List.mem_cons_self
    by_contra hend
    have hpend := hqp (by simpa using hend)
    rw [Dirent.isEnd_eq_false_of_inUse he.live.2] at hpend
    exact absurd hpend (by simp)
  · intro q hq hqt
    have hq' := (entry_none_iff he.reach he.live hleaf).mpr (.inl hq)
    exact hq.ne (congrArg some (h.names d p q he hq' (hname.trans hqt.symm)))

/-- A slot that is not in use. -/
theorem of_free (h : Inv v none []) (hd : ReachDir v none d) (hp : (v.dirent p).inUse = false)
    {l₁ l₂ : List Slot} (hsplit : dirSlots v d = l₁ ++ p :: l₂)
    (hprev : ∀ q ∈ l₁, (v.dirent q).isEnd = false)
    (hname : ∀ q, Entry v none d q → (v.dirent q).name ≠ t) : Opened v d t p [] := by
  refine ⟨h.open_free hp, ?_, ⟨l₁, l₂, hsplit, hprev⟩,
    fun q hq => hname q ((entry_some_iff_of_not_inUse hp).mp hq)⟩
  obtain rfl | ⟨d', q, hq, hdir, rfl⟩ := hd.cases
  · exact reachDir_root
  · exact ((entry_some_iff_of_not_inUse hp).mpr hq).reach_sub hdir

/-- Steps that only change the clusters in progress leave the slot open. -/
theorem quiet {float' : List ℕ} (ho : Opened v d t p float) (h : Inv v' (some p) float')
    (hq : Quiet (some p) v v') : Opened v' d t p float' := by
  obtain ⟨l₁, l₂, hsplit, hprev⟩ := ho.split
  refine ⟨h, hq.reachDir_iff.mp ho.reach, ⟨l₁, l₂, ?_, fun q hq' => ?_⟩, fun q he => ?_⟩
  · rw [hq.slots d ho.reach, hsplit]
  · rw [hq.dirent d ho.reach q (by simp [hsplit, hq'])]
    exact hprev q hq'
  · have he := hq.entry_iff.mpr he
    rw [(hq.keeps 0).dirent_of_entry he]
    exact ho.name q he

/-- Writing an entry with the name into the slot. -/
theorem write (ho : Opened v d t p float) {e : Dirent} (hname : e.name = t)
    (huse : e.inUse = true) (hplain : e.isVolumeId = false)
    (hchain : (e.firstCluster = 0 ∧ e.isDir = false ∧ float = []) ∨
      IsChain v e.firstCluster float)
    (hempty : e.isDir = true → ∀ c ∈ float, ∀ lba ∈ clusterSectors v c,
      v.disk lba = Sector.zero) :
    Inv (v.setDirent p e) none [] ∧ Keeps (some p) d v (v.setDirent p e) ∧
      (∀ d' q, Entry (v.setDirent p e) none d' q ↔ Entry v (some p) d' q ∨ (q = p ∧ d' = d)) ∧
      (v.setDirent p e).dirent p = e ∧ (v.setDirent p e).chainOf p = float := by
  obtain ⟨l₁, l₂, hsplit, hprev⟩ := ho.split
  exact ho.inv.write_entry ho.reach hsplit hprev
    ⟨huse, hplain, hchain, hempty, fun q hq => hname ▸ ho.name q hq⟩

end Opened

/-- What an operation on a name of directory `d` may have done when it keeps the invariant: the
    directory has grown, and perhaps one slot was rewritten that holds the name, before and
    after, if it is in use. -/
inductive Effect (v : Volume) (d : ℕ) (name : List UInt8) (v' : Volume) : Prop
  | grown : Inv v' none [] → Keeps none d v v' → Effect v d name v'
  | worked {t : Vector UInt8 11} {v₁ : Volume} {p : Slot} : nameTo83 name = some t →
      Inv v₁ none [] → Keeps none d v v₁ → ReachDir v₁ none d → p ∈ dirSlots v₁ d →
      ((v₁.dirent p).inUse = true → (v₁.dirent p).name = t ∧ LeafSlot v₁ p) →
      Keeps (some p) d v₁ v' → Inv v' none [] →
      ((v'.dirent p).inUse = true → (v'.dirent p).name = t) → Effect v d name v'

theorem Effect.refl (h : Inv v none []) : Effect v d name v := .grown h (.refl none d v)

theorem Effect.inv (h : Effect v d name v') : Inv v' none [] := by
  cases h with
  | grown h _ => exact h
  | worked _ _ _ _ _ _ _ h _ => exact h

theorem Effect.geometry (h : Effect v d name v') : v.SameGeometry v' := by
  cases h with
  | grown _ h => exact h.geometry
  | worked _ _ h _ _ _ h' _ _ => exact h.geometry.trans h'.geometry

/-- File sizes after an entry was written. -/
theorem Sized.of_write {e : Dirent}
    (hk : Keeps (some p) d v v') (hsized : Sized v (some p))
    (hiff : ∀ d' q, Entry v' none d' q ↔ Entry v (some p) d' q ∨ (q = p ∧ d' = d))
    (he : v'.dirent p = e) (hch : v'.chainOf p = float)
    (hsize : e.isDir = false → e.fileSize.toNat ≤ float.length * v.clusterSize) :
    Sized v' none := by
  intro d' q hq hfile
  obtain hq | ⟨rfl, _⟩ := (hiff d' q).mp hq
  · exact hk.sized hsized d' q (hk.entry_iff.mp hq) hfile
  · rw [he] at hfile ⊢
    rw [hch, hk.geometry.clusterSize]
    exact hsize hfile

theorem Sized.open_slot (h : Sized v none) (p : Slot) : Sized v (some p) := by
  intro d q hq
  refine h d q ⟨?_, hq.live, by simp⟩
  exact hq.reach.mono fun _ _ _ hl => ⟨⟨hl.1, by simp⟩, rfl⟩

theorem findOrAllocSlot_invalid (hn : nameTo83 name = none) :
    findOrAllocSlot fuel d name v = some (none, v) := by
  rw [findOrAllocSlot, hn]

theorem UInt16.toNat_ofNat_cluster (h : Volume.Sound v) {c : ℕ} (hc : v.InRange c) :
    (UInt16.ofNat c).toNat = c := by
  have := h.clusters
  have := hc.2
  rw [UInt16.toNat_ofNat', Nat.mod_eq_of_lt (by omega)]

theorem Dirent.attr_archive {e : Dirent} (h : e.attr = attrArchive) :
    e.isDir = false ∧ e.isVolumeId = false := by
  rw [isDir, isVolumeId, h]
  decide

theorem Dirent.attr_directory {e : Dirent} (h : e.attr = attrDirectory) :
    e.isDir = true ∧ e.isVolumeId = false := by
  rw [isDir, isVolumeId, h]
  decide

/-- Slot `p` of directory `d` holds a file with the name `t` and the bytes `data`. -/
structure Stored (v : Volume) (d : ℕ) (p : Slot) (t : Vector UInt8 11) (data : List UInt8) :
    Prop where
  entry : Entry v none d p
  name : (v.dirent p).name = t
  file : (v.dirent p).isDir = false
  size : (v.dirent p).fileSize = UInt32.ofNat data.length
  bytes : data.length + v.clusterSize ≤ 2 ^ 32 → data <+: v.chainBytes (v.chainOf p)

/-- What a successful write of a file has done: the directory may have grown to `v₁`, where slot
    `p` is that of the name or a free one. -/
structure Wrote (v : Volume) (d : ℕ) (t : Vector UInt8 11) (data : List UInt8) (v' v₁ : Volume)
    (p : Slot) : Prop where
  inv : Inv v₁ none []
  grown : Keeps none d v v₁
  reach : ReachDir v₁ (some p) d
  old : (Entry v₁ none d p ∧ (v₁.dirent p).name = t) ∨
    ((v₁.dirent p).inUse = false ∧ ∀ q, Entry v₁ none d q → (v₁.dirent q).name ≠ t)
  kept : Keeps (some p) d v₁ v'
  stored : Stored v' d p t data

/-- Writing the slot does not touch the clusters in progress. -/
theorem Opened.chainBytes_setDirent (ho : Opened v d t p float) (e : Dirent) :
    (v.setDirent p e).chainBytes float = v.chainBytes float := by
  obtain ⟨hsec, hi⟩ := mem_dirSlots.mp ho.mem
  have hw := setDirent_slotWritten ho.inv.sound
    (root_start_le_of_mem_dirSectors ho.inv.sound hsec) hi e
  refine chainBytes_congr hw.geometry fun c hc lba hlba => hw.disk lba ?_
  rintro rfl
  exact ho.inv.dirSector_not_mem_cluster ho.reach hsec (ho.inv.inRange_of_mem_float hc)
    (fun d q he hmem => ho.inv.float_disjoint d q he hmem hc) hlba

/-- A volume with one slot opened for an entry that then gets written. -/
theorem Opened.effect {v₁ v₂ : Volume} {e : Dirent} (ho : Opened v₂ d t p float)
    (hwf : Inv v₁ none []) (hd : ReachDir v₁ none d) (hk : Keeps none d v v₁)
    (ht : nameTo83 name = some t) (hp : p ∈ dirSlots v₁ d)
    (hold : (v₁.dirent p).inUse = true → (v₁.dirent p).name = t ∧ LeafSlot v₁ p)
    (hq : Quiet (some p) v₁ v₂) (hname : e.name = t) (huse : e.inUse = true)
    (hplain : e.isVolumeId = false)
    (hchain : (e.firstCluster = 0 ∧ e.isDir = false ∧ float = []) ∨
      IsChain v₂ e.firstCluster float)
    (hempty : e.isDir = true → ∀ c ∈ float, ∀ lba ∈ clusterSectors v₂ c,
      v₂.disk lba = Sector.zero) :
    Effect v d name (v₂.setDirent p e) ∧
      ((e.isDir = false → e.fileSize.toNat ≤ float.length * v₂.clusterSize) →
        Sized v none → Sized (v₂.setDirent p e) none) ∧
      Keeps (some p) d v₁ (v₂.setDirent p e) ∧ Entry (v₂.setDirent p e) none d p ∧
      (v₂.setDirent p e).dirent p = e ∧ (v₂.setDirent p e).chainOf p = float := by
  obtain ⟨hinv, hkw, hiff, hpe, hpc⟩ := ho.write hname huse hplain hchain hempty
  refine ⟨.worked ht hwf hk hd hp hold ((hq.keeps d).trans hkw) hinv fun _ => by rw [hpe, hname],
    fun hsize hsized => ?_, (hq.keeps d).trans hkw, (hiff d p).mpr (.inr ⟨rfl, rfl⟩), hpe, hpc⟩
  have hsized₂ := (hq.keeps d).sized ((hk.sized hsized).open_slot p)
  exact .of_write hkw hsized₂ hiff hpe hpc hsize

/-- `fat16_create` keeps the invariant. -/
theorem fat16Create_spec (h : Inv v none []) (hd : ReachDir v none d) (hfuel : v.fuelBound ≤ fuel)
    (hp : Printable name) (asDirectory : Bool) :
    ∃ b v', fat16Create fuel d name asDirectory v = some (b, v') ∧ Effect v d name v' ∧
      (Sized v none → Sized v' none) := by
  have hmount : ¬ ¬ v.mounted = true := by simp [h.sound.mounted]
  rw [fat16Create, if_neg hmount]
  cases ht : nameTo83 name with
  | none => exact ⟨false, v, by rw [findOrAllocSlot_invalid ht], .refl h, id⟩
  | some t =>
    obtain ⟨r, v₁, hfind, hans⟩ := findOrAllocSlot_spec h hd hfuel ht
    simp only [hfind]
    cases hans with
    | found _ _ => exact ⟨true, v, rfl, .refl h, id⟩
    | full _ => exact ⟨false, v, rfl, .refl h, id⟩
    | @free p _ l₁ l₂ hnot hinv hk huse hsplit hprev =>
      have hd₁ := hk.reachDir_iff.mp hd
      have hnot₁ : ∀ q, Entry v₁ none d q → (v₁.dirent q).name ≠ t := fun q hq => by
        have hq := hk.entry_iff.mpr hq
        rw [hk.dirent_of_entry hq]
        exact hnot q hq
      have ho := Opened.of_free hinv hd₁ huse hsplit hprev hnot₁
      have hold : (v₁.dirent p).inUse = true → (v₁.dirent p).name = t ∧ LeafSlot v₁ p :=
        fun hu => absurd hu (by simp [huse])
      have hsame : Sized v none → Sized v₁ none := hk.sized
      cases asDirectory with
      | false =>
        simp only [Bool.false_eq_true, if_false, writeDirentSlot_eq hinv.sound.reliable]
        obtain ⟨hfile, hplain⟩ : (Dirent.fresh t attrArchive).isDir = false ∧
            (Dirent.fresh t attrArchive).isVolumeId = false := Dirent.attr_archive rfl
        obtain ⟨heff, hsized, -⟩ := ho.effect hinv hd₁ hk ht ho.mem hold (.refl _ _) rfl
          (nameTo83_inUse hp ht rfl) hplain (.inl ⟨rfl, hfile, rfl⟩)
          fun hdir => absurd hdir (by simp [hfile])
        exact ⟨true, _, rfl, heff, hsized fun _ => Nat.zero_le _⟩
      | true =>
        simp only [if_true]
        obtain ⟨c, hc, hfree, heq⟩ | ⟨_, heq⟩ := extendClusterChain_spec hinv.sound (.inl rfl)
        · have hc0 : c ≠ 0 := by
            have := hc.1
            omega
          have hx := extended_spec hinv.sound hc (.inl rfl)
          obtain ⟨hinv₂, hq⟩ := ho.inv.extend_float hc hfree (.inl ⟨rfl, rfl⟩) hx
          rw [List.nil_append] at hinv₂
          have ho₂ := ho.quiet hinv₂ hq
          have hcl : (UInt16.ofNat c).toNat = c := UInt16.toNat_ofNat_cluster hinv.sound hc
          simp only [heq, if_neg hc0, writeDirentSlot_eq hx.sound.reliable]
          obtain ⟨heff, hsized, -⟩ := ho₂.effect hinv hd₁ hk ht ho.mem hold hq
            (e := { Dirent.fresh t attrDirectory with firstClusterLo := UInt16.ofNat c }) rfl
            (nameTo83_inUse hp ht rfl) (Dirent.attr_directory rfl).2 (.inr (by
              rw [Dirent.firstCluster, hcl]
              exact (hinv₂.chain_of_ends (.inr ⟨by simp, rfl, rfl⟩)).resolve_left (by simp)))
            (fun _ c' hc' lba hlba => by
              obtain rfl := List.mem_singleton.mp hc'
              rw [hx.geometry.clusterSectors] at hlba
              rw [hx.disk lba (root_start_le_of_mem_cluster hinv.sound hlba), if_pos hlba])
          exact ⟨true, _, rfl, heff, hsized fun hfile =>
            absurd (hfile.symm.trans (Dirent.attr_directory rfl).1) (by simp)⟩
        · exact ⟨false, v₁, by simp only [heq, if_true], .grown hinv hk, hsame⟩

theorem LeafSlot.of_file (h : (v.dirent p).isDir = false) : LeafSlot v p :=
  fun hdir => absurd hdir (by simp [h])

/-- The chain of an existing entry, in the form the driver frees it. -/
theorem Inv.chain_cases (h : Inv v none []) (he : Entry v none d p) :
    (v.chainOf p = [] ∧ (v.dirent p).firstCluster = 0) ∨
      IsChain v (v.dirent p).firstCluster (v.chainOf p) := by
  refine (h.chained d p he).imp_left fun ⟨h0, _⟩ => ⟨?_, h0⟩
  rw [Volume.chainOf, h0, clusterChain_zero]

/-- The entry that a name of the directory denotes is the one the lookup finds. -/
theorem findOrAllocSlot_of_entry (h : Inv v none []) (he : Entry v none d p)
    (hfuel : v.fuelBound ≤ fuel) (ht : nameTo83 name = some (v.dirent p).name) :
    findOrAllocSlot fuel d name v = some (some (p, some (v.dirent p)), v) := by
  obtain ⟨r, v₁, hfind, hans⟩ := findOrAllocSlot_spec h he.reach hfuel ht
  cases hans with
  | @found q hq hname =>
    obtain rfl := h.names d q p hq he hname
    exact hfind
  | free hnot => exact absurd rfl (hnot p he)
  | full hnot => exact absurd rfl (hnot p he)

/-- `fat16_delete` of an existing file or empty directory. -/
theorem fat16Delete_of_entry (h : Inv v none []) (he : Entry v none d p)
    (hfuel : v.fuelBound ≤ fuel) (ht : nameTo83 name = some (v.dirent p).name)
    (hleaf : LeafSlot v p) :
    ∃ v', fat16Delete fuel d name v = some (true, v') ∧ Effect v d name v' ∧
      (Sized v none → Sized v' none) := by
  have hmount : ¬ ¬ v.mounted = true := by simp [h.sound.mounted]
  have ho := Opened.of_entry h he hleaf rfl
  obtain ⟨hrun, hfreed⟩ := freeIfAny_eq h.sound hfuel (h.chain_cases he)
  obtain ⟨hinv₁, hq⟩ := ho.inv.free_float hfreed
  have ho₁ := ho.quiet hinv₁ hq
  obtain ⟨l₁, l₂, hsplit, hprev⟩ := ho₁.split
  obtain ⟨hinv₂, hk, hiff, huse⟩ := hinv₁.mark_deleted ho₁.reach hsplit hprev
  refine ⟨_, ?_, .worked ht h (.refl none d v) he.reach he.live.1 (fun _ => ⟨rfl, hleaf⟩)
    ((hq.keeps d).trans hk) hinv₂ (fun hu => absurd hu (by simp [huse])), fun hsized => ?_⟩
  · rw [fat16Delete, if_neg hmount]
    simp only [findOrAllocSlot_of_entry h he hfuel ht, hrun, readSector_eq hinv₁.sound.reliable,
      writeSector_eq hinv₁.sound.reliable]
    rfl
  · intro d' q hq' hfile
    have hq' := hk.entry_iff.mp ((hiff d' q).mp hq')
    exact hk.sized ((hq.keeps d).sized (hsized.open_slot p)) d' q hq' hfile

/-- `fat16_delete` keeps the invariant unless the name denotes a directory with entries. -/
theorem fat16Delete_spec (h : Inv v none []) (hd : ReachDir v none d) (hfuel : v.fuelBound ≤ fuel)
    (hleaf : ∀ p, Entry v none d p → nameTo83 name = some (v.dirent p).name → LeafSlot v p) :
    ∃ b v', fat16Delete fuel d name v = some (b, v') ∧ Effect v d name v' ∧
      (Sized v none → Sized v' none) := by
  have hmount : ¬ ¬ v.mounted = true := by simp [h.sound.mounted]
  cases ht : nameTo83 name with
  | none =>
    refine ⟨false, v, ?_, .refl h, id⟩
    rw [fat16Delete, if_neg hmount, findOrAllocSlot_invalid ht]
  | some t =>
    obtain ⟨r, v₁, hfind, hans⟩ := findOrAllocSlot_spec h hd hfuel ht
    cases hans with
    | @found p he hname =>
      rw [← hname] at ht
      obtain ⟨v', hrun, heff, hsized⟩ := fat16Delete_of_entry h he hfuel ht (hleaf p he ht)
      exact ⟨true, v', hrun, heff, hsized⟩
    | full _ =>
      refine ⟨false, v, ?_, .refl h, id⟩
      rw [fat16Delete, if_neg hmount, hfind]
    | free _ hinv hk _ _ _ =>
      -- the directory may have grown although nothing is deleted
      refine ⟨false, v₁, ?_, .grown hinv hk, hk.sized⟩
      rw [fat16Delete, if_neg hmount, hfind]

/-- Unless the sum of the source wraps around, the clusters hold the data. -/
theorem le_clustersNeeded_mul {clusterSize len : ℕ} (hpos : 0 < clusterSize)
    (hlen : len + clusterSize ≤ 2 ^ 32) : len ≤ clustersNeeded clusterSize len * clusterSize := by
  rw [clustersNeeded]
  split
  · omega
  · rw [Nat.mod_eq_of_lt (by omega)]
    have hdiv := Nat.div_add_mod (len + clusterSize - 1) clusterSize
    have hmod := Nat.mod_lt (len + clusterSize - 1) hpos
    rw [Nat.mul_comm] at hdiv
    omega

/-- The entry that `fat16_write_file` writes last. -/
def Dirent.withData (e : Dirent) (firstCluster len : ℕ) : Dirent :=
  { e with firstClusterLo := UInt16.ofNat firstCluster, fileSize := UInt32.ofNat len }

theorem Dirent.withData_isDir (e : Dirent) (c n : ℕ) : (e.withData c n).isDir = e.isDir := rfl

/-- What `fat16_write_file` does once the slot is known and the old chain is free. -/
theorem Opened.writeFile {v₁ v₂ : Volume} {e : Dirent} (ho : Opened v₂ d t p [])
    (hfuel : v₂.fuelBound ≤ fuel) (hwf : Inv v₁ none []) (hd : ReachDir v₁ none d)
    (hk : Keeps none d v v₁) (ht : nameTo83 name = some t) (hp : p ∈ dirSlots v₁ d)
    (hold : (v₁.dirent p).inUse = true → (v₁.dirent p).name = t ∧ LeafSlot v₁ p)
    (hq : Quiet (some p) v₁ v₂) (hname : e.name = t) (huse : e.inUse = true)
    (hplain : e.isVolumeId = false) (hfile : e.isDir = false) (data : List UInt8) :
    (clustersNeeded v₂.clusterSize data.length ≤ v₂.freeClusters.card →
      ∃ v' first, writeClusters fuel (clustersNeeded v₂.clusterSize data.length) 0 0 data v₂ =
          some (.done first, v') ∧ v'.Reliable ∧
        Effect v d name (v'.setDirent p (e.withData first data.length)) ∧
        (data.length + v₂.clusterSize ≤ 2 ^ 32 → Sized v none →
          Sized (v'.setDirent p (e.withData first data.length)) none) ∧
        Keeps (some p) d v₁ (v'.setDirent p (e.withData first data.length)) ∧
        Stored (v'.setDirent p (e.withData first data.length)) d p t data) ∧
    (v₂.freeClusters.card < clustersNeeded v₂.clusterSize data.length →
      ∃ v', writeClusters fuel (clustersNeeded v₂.clusterSize data.length) 0 0 data v₂ =
          some (.failed, v') ∧ Inv v' (some p) [] ∧ Quiet (some p) v₂ v') := by
  obtain ⟨hok, hfail⟩ := writeClusters_spec ho.inv hfuel (.inl ⟨rfl, rfl, rfl⟩)
    (clustersNeeded v₂.clusterSize data.length) data
  refine ⟨fun hle => ?_, hfail⟩
  obtain ⟨v', new, first, last, hrun, hlen, hinv, hq', hends, -, hdata⟩ := hok hle
  rw [List.nil_append] at hinv hends
  have ho' := ho.quiet hinv hq'
  have hchain : ((e.withData first data.length).firstCluster = 0 ∧
      (e.withData first data.length).isDir = false ∧ new = []) ∨
      IsChain v' (e.withData first data.length).firstCluster new := by
    obtain ⟨hnil, rfl⟩ | hch := hinv.chain_of_ends hends
    · exact .inl ⟨rfl, hfile, hnil⟩
    · have hfirst : (e.withData first data.length).firstCluster = first :=
        UInt16.toNat_ofNat_cluster hinv.sound (hch.live_of_mem _ hch.head_mem)
      rw [hfirst]
      exact .inr hch
  obtain ⟨heff, hsized, hkeeps, hentry, hpe, hpc⟩ := ho'.effect (e := e.withData first data.length)
    hwf hd hk ht hp hold (hq.trans hq') hname huse hplain hchain fun hdir => by
      rw [e.withData_isDir, hfile] at hdir
      exact absurd hdir (by simp)
  have hneeded := fun hwrap => @le_clustersNeeded_mul _ data.length
    ho.inv.sound.clusterSize_pos hwrap
  refine ⟨v', first, hrun, hinv.sound.reliable, heff, fun hwrap => hsized fun _ => ?_, hkeeps,
    hentry, by rw [hpe]; exact hname, by rw [hpe]; exact hfile, by rw [hpe]; rfl, fun hwrap => ?_⟩
  · have hsize : (e.withData first data.length).fileSize.toNat ≤ data.length := by
      rw [Dirent.withData, UInt32.toNat_ofNat']
      exact Nat.mod_le _ _
    rw [hlen, hq'.geometry.clusterSize]
    exact hsize.trans (hneeded hwrap)
  · have hcs : (v'.setDirent p (e.withData first data.length)).clusterSize = v₂.clusterSize :=
      hq'.geometry.clusterSize
    rw [hpc, ho'.chainBytes_setDirent]
    rwa [List.take_of_length_le (hneeded (hcs ▸ hwrap))] at hdata

/-- `fat16_write_file` on an existing file. It succeeds exactly when the free clusters and the
    file's own are enough. A failure leaves the file's slot as it was but its clusters free. -/
theorem fat16WriteFile_of_file (h : Inv v none []) (he : Entry v none d p)
    (hfuel : v.fuelBound ≤ fuel) (ht : nameTo83 name = some (v.dirent p).name)
    (hfile : (v.dirent p).isDir = false) (data : List UInt8) :
    (clustersNeeded v.clusterSize data.length ≤ v.freeClusters.card + (v.chainOf p).length →
      ∃ v', fat16WriteFile fuel d name data v = some (true, v') ∧ Effect v d name v' ∧
        (data.length + v.clusterSize ≤ 2 ^ 32 → Sized v none → Sized v' none) ∧
        Wrote v d (v.dirent p).name data v' v p) ∧
    (v.freeClusters.card + (v.chainOf p).length < clustersNeeded v.clusterSize data.length →
      ∃ v', fat16WriteFile fuel d name data v = some (false, v') ∧ Inv v' (some p) [] ∧
        Quiet (some p) v v' ∧
          ((v.dirent p).firstCluster = 0 → Inv v' none [] ∧ Quiet none v v')) := by
  have hmount : ¬ ¬ v.mounted = true := by simp [h.sound.mounted]
  have hleaf : LeafSlot v p := .of_file hfile
  have ho := Opened.of_entry h he hleaf rfl
  obtain ⟨hfree, hfreed⟩ := freeIfAny_eq h.sound hfuel (h.chain_cases he)
  obtain ⟨hinv₁, hq⟩ := ho.inv.free_float hfreed
  have ho₁ := ho.quiet hinv₁ hq
  have hcard := hfreed.card_freeClusters ho.inv
  have hcs := hfreed.geometry.clusterSize
  have hfuel₁ : (v.freeAll (v.chainOf p)).fuelBound ≤ fuel := by
    rwa [hfreed.geometry.fuelBound]
  obtain ⟨hok, hfail⟩ := ho₁.writeFile hfuel₁ h he.reach (.refl none d v) ht he.live.1
    (fun _ => ⟨rfl, hleaf⟩) hq rfl he.live.2 (h.plain d p he) hfile data
  rw [hcs, hcard] at hok hfail
  rw [fat16WriteFile, if_neg hmount]
  simp only [findOrAllocSlot_of_entry h he hfuel ht, Option.some_or, hfree, hcs]
  refine ⟨fun hle => ?_, fun hlt => ?_⟩
  · obtain ⟨v', first, hrun, hr, heff, hsized, hkept, hstored⟩ := hok hle
    simp only [hrun, writeDirentSlot_eq hr]
    exact ⟨_, rfl, heff, hsized, h, .refl none d v, ho.reach, .inl ⟨he, rfl⟩, hkept, hstored⟩
  · obtain ⟨v', hrun, hinv', hq'⟩ := hfail hlt
    simp only [hrun]
    refine ⟨v', rfl, hinv', hq.trans hq', fun h0 => ?_⟩
    -- without clusters of its own the file takes no part in what happened
    have hnil : v.chainOf p = [] := by rw [Volume.chainOf, h0, clusterChain_zero]
    have hsame : v.freeAll (v.chainOf p) = v := by rw [hnil, Volume.freeAll]
    rw [hsame] at hrun
    rw [hnil, List.length_nil, Nat.add_zero] at hlt
    obtain ⟨v'', hrun', hinv'', hq''⟩ :=
      (writeClusters_spec h hfuel (.inl ⟨rfl, rfl, rfl⟩) _ data).2 hlt
    obtain rfl : v'' = v' := by
      rw [hrun] at hrun'
      exact (Prod.ext_iff.mp (Option.some.inj hrun')).2.symm
    exact ⟨hinv'', hq''⟩

/-- `fat16_write_file` keeps the invariant unless the name denotes a directory, or a file whose
    clusters are lost because the new data does not fit. -/
theorem fat16WriteFile_spec (h : Inv v none []) (hd : ReachDir v none d)
    (hfuel : v.fuelBound ≤ fuel) (hp : Printable name) (data : List UInt8)
    (hsafe : ∀ p, Entry v none d p → nameTo83 name = some (v.dirent p).name →
      (v.dirent p).isDir = false ∧ ((v.dirent p).firstCluster = 0 ∨
        clustersNeeded v.clusterSize data.length ≤ v.freeClusters.card + (v.chainOf p).length)) :
    ∃ b v', fat16WriteFile fuel d name data v = some (b, v') ∧ Effect v d name v' ∧
      (data.length + v.clusterSize ≤ 2 ^ 32 → Sized v none → Sized v' none) ∧
      (b = true → ∀ t, nameTo83 name = some t → ∃ v₁ p, Wrote v d t data v' v₁ p) := by
  have hmount : ¬ ¬ v.mounted = true := by simp [h.sound.mounted]
  cases ht : nameTo83 name with
  | none =>
    refine ⟨false, v, ?_, .refl h, fun _ => id, by simp⟩
    rw [fat16WriteFile, if_neg hmount, findOrAllocSlot_invalid ht]
  | some t =>
    obtain ⟨r, v₁, hfind, hans⟩ := findOrAllocSlot_spec h hd hfuel ht
    cases hans with
    | @found p he hname =>
      rw [← hname] at ht
      obtain ⟨hfile, hroom⟩ := hsafe p he ht
      obtain ⟨hok, hfail⟩ := fat16WriteFile_of_file h he hfuel ht hfile data
      by_cases hle : clustersNeeded v.clusterSize data.length ≤
          v.freeClusters.card + (v.chainOf p).length
      · obtain ⟨v', hrun, heff, hsized, hwrote⟩ := hok hle
        refine ⟨true, v', hrun, heff, hsized, fun _ t' ht' => ⟨v, p, ?_⟩⟩
        obtain rfl := Option.some.inj ht'
        rwa [hname] at hwrote
      · obtain ⟨v', hrun, _, _, hsame⟩ := hfail (by omega)
        obtain ⟨hinv', hq'⟩ := hsame (hroom.resolve_right hle)
        exact ⟨false, v', hrun, .grown hinv' (hq'.keeps d), fun _ => (hq'.keeps d).sized, by simp⟩
    | full _ =>
      refine ⟨false, v, ?_, .refl h, fun _ => id, by simp⟩
      rw [fat16WriteFile, if_neg hmount, hfind]
    | @free p _ l₁ l₂ hnot hinv hk huse hsplit hprev =>
      have hd₁ := hk.reachDir_iff.mp hd
      have hnot₁ : ∀ q, Entry v₁ none d q → (v₁.dirent q).name ≠ t := fun q hq => by
        have hq := hk.entry_iff.mpr hq
        rw [hk.dirent_of_entry hq]
        exact hnot q hq
      have ho := Opened.of_free hinv hd₁ huse hsplit hprev hnot₁
      have hfuel₁ : v₁.fuelBound ≤ fuel := by rwa [hk.geometry.fuelBound]
      obtain ⟨hfile, hplain⟩ : (Dirent.fresh t attrArchive).isDir = false ∧
          (Dirent.fresh t attrArchive).isVolumeId = false := Dirent.attr_archive rfl
      obtain ⟨hok, _⟩ := ho.writeFile hfuel₁ hinv hd₁ hk ht ho.mem
        (fun hu => absurd hu (by simp [huse])) (.refl _ _) (e := Dirent.fresh t attrArchive) rfl
        (nameTo83_inUse hp ht rfl) hplain hfile data
      rw [fat16WriteFile, if_neg hmount]
      simp only [hfind, ht, Option.none_or, Option.map_some]
      rw [show (Dirent.fresh t attrArchive).firstCluster = 0 from rfl, freeIfAny, if_neg (by simp)]
      simp only
      by_cases hle : clustersNeeded v₁.clusterSize data.length ≤ v₁.freeClusters.card
      · obtain ⟨v', first, hrun, hr, heff, hsized, hkept, hstored⟩ := hok hle
        rw [hk.geometry.clusterSize] at hsized
        simp only [hrun, writeDirentSlot_eq hr]
        refine ⟨true, _, rfl, heff, hsized, fun _ t' ht' => ⟨v₁, p, ?_⟩⟩
        obtain rfl := Option.some.inj ht'
        exact ⟨hinv, hk, ho.reach, .inr ⟨huse, hnot₁⟩, hkept, hstored⟩
      · -- nothing points at the clusters that were taken and freed again
        obtain ⟨v', hrun, hinv', hq'⟩ :=
          (writeClusters_spec hinv hfuel₁ (.inl ⟨rfl, rfl, rfl⟩) _ data).2 (Nat.lt_of_not_le hle)
        simp only [hrun]
        exact ⟨false, v', rfl, .grown hinv' (hk.trans (hq'.keeps d)),
          fun _ hsized => (hq'.keeps d).sized (hk.sized hsized), by simp⟩

end AuroraOS.Fat16
