import AuroraOS.Fat16.Alloc

/-!
# The bytes of a chain

The sectors of a chain of clusters, one after the other, are the contents of a file with what
follows its last byte. `fat16_read_file` delivers a piece of them.

## Main definitions

- `Volume.chainBytes`

## Main results

- `fat16ReadFile_eq` — what `fat16_read_file` delivers
-/

namespace AuroraOS.Fat16

variable {v v' : Volume}

theorem Volume.Sound.clusterSize_pos (hs : v.Sound) : 0 < v.clusterSize := by
  have := hs.spc_pos
  rw [Volume.clusterSize]
  omega

/-- The bytes of `n` sectors from `lba` on. -/
def Volume.sectorBytes (v : Volume) : ℕ → ℕ → List UInt8
  | 0, _ => []
  | n + 1, lba => List.ofFn (v.disk lba) ++ v.sectorBytes n (lba + 1)

/-- The bytes of a cluster. -/
def Volume.clusterBytes (v : Volume) (c : ℕ) : List UInt8 :=
  v.sectorBytes v.bpb.sectorsPerCluster (clusterToLba v c)

/-- The bytes of a list of clusters. -/
def Volume.chainBytes (v : Volume) (l : List ℕ) : List UInt8 := l.flatMap v.clusterBytes

@[simp]
theorem length_sectorBytes (n lba : ℕ) : (v.sectorBytes n lba).length = n * 512 := by
  induction n generalizing lba with
  | zero => rfl
  | succ n ih =>
    rw [Volume.sectorBytes, List.length_append, List.length_ofFn, ih]
    omega

@[simp]
theorem length_clusterBytes (c : ℕ) : (v.clusterBytes c).length = v.clusterSize := by
  rw [Volume.clusterBytes, length_sectorBytes, Volume.clusterSize]

theorem length_chainBytes (l : List ℕ) : (v.chainBytes l).length = l.length * v.clusterSize := by
  induction l with
  | nil => simp [Volume.chainBytes]
  | cons c l ih =>
    rw [Volume.chainBytes, List.flatMap_cons, List.length_append, length_clusterBytes,
      List.length_cons]
    rw [Volume.chainBytes] at ih
    rw [ih, Nat.add_mul, Nat.one_mul, Nat.add_comm]

theorem chainBytes_cons (c : ℕ) (l : List ℕ) :
    v.chainBytes (c :: l) = v.clusterBytes c ++ v.chainBytes l := List.flatMap_cons

theorem sectorBytes_congr {n lba : ℕ} (h : ∀ l, lba ≤ l → l < lba + n → v'.disk l = v.disk l) :
    v'.sectorBytes n lba = v.sectorBytes n lba := by
  induction n generalizing lba with
  | zero => rfl
  | succ n ih =>
    rw [Volume.sectorBytes, Volume.sectorBytes, h lba (le_refl _) (by omega),
      ih fun l hl hlt => h l (by omega) (by omega)]

theorem chainBytes_congr (hg : v.SameGeometry v') {l : List ℕ}
    (h : ∀ c ∈ l, ∀ lba ∈ clusterSectors v c, v'.disk lba = v.disk lba) :
    v'.chainBytes l = v.chainBytes l := by
  refine List.flatMap_congr fun c hc => ?_
  rw [Volume.clusterBytes, Volume.clusterBytes, hg.bpb, hg.clusterToLba]
  exact sectorBytes_congr fun l hl hlt => h c hc l (mem_clusterSectors.mpr ⟨hl, hlt⟩)

/-- The first sectors left out. -/
theorem drop_sectorBytes {n lba k : ℕ} (hk : k ≤ n) :
    (v.sectorBytes n lba).drop (k * 512) = v.sectorBytes (n - k) (lba + k) := by
  induction k generalizing n lba with
  | zero => simp
  | succ k ih =>
    obtain ⟨n, rfl⟩ : ∃ m, n = m + 1 := ⟨n - 1, by omega⟩
    rw [Volume.sectorBytes, show (k + 1) * 512 = 512 + k * 512 by omega, ← List.drop_drop,
      List.drop_left' List.length_ofFn, ih (by omega)]
    congr 1
    · omega
    · omega

/-- The first clusters left out. -/
theorem drop_chainBytes (l : List ℕ) (k : ℕ) :
    (v.chainBytes l).drop (k * v.clusterSize) = v.chainBytes (l.drop k) := by
  induction k generalizing l with
  | zero => simp
  | succ k ih =>
    cases l with
    | nil => simp [Volume.chainBytes]
    | cons c l =>
      rw [chainBytes_cons, show (k + 1) * v.clusterSize = v.clusterSize + k * v.clusterSize by
        rw [Nat.add_mul, Nat.one_mul, Nat.add_comm], ← List.drop_drop,
        List.drop_left' (length_clusterBytes c), ih, List.drop_succ_cons]

section reading

variable (hr : v.Reliable)

include hr

theorem readSectors_eq (n lba b k : ℕ) (hb : b ≤ 512) :
    readSectors n lba b k v = (true, ((v.sectorBytes n lba).drop b).take k, v) := by
  induction n generalizing lba b k with
  | zero => simp [readSectors, Volume.sectorBytes]
  | succ n ih =>
    rw [readSectors]
    split
    · next hk => simp [hk]
    · have hlen : ((List.ofFn (v.disk lba)).drop b).length = 512 - b := by
        rw [List.length_drop, List.length_ofFn]
      have htake : ((List.ofFn (v.disk lba)).drop b).take (min (512 - b) k) =
          ((List.ofFn (v.disk lba)).drop b).take k := by
        by_cases hk : k ≤ 512 - b
        · rw [Nat.min_eq_right hk]
        · rw [Nat.min_eq_left (by omega), List.take_of_length_le (by omega),
            List.take_of_length_le (by omega)]
      simp only [readSector_eq hr, ih (lba + 1) 0 _ (Nat.zero_le _), Sector.slice, htake,
        Volume.sectorBytes, List.drop_zero]
      rw [List.drop_append_of_le_length (by rw [List.length_ofFn]; exact hb),
        List.take_append, hlen, show k - min (512 - b) k = k - (512 - b) by omega]

/-- What the cluster loop delivers. -/
theorem readClusters_eq (hs : v.Sound) {c : ℕ} {l : List ℕ} (hch : IsChain v c l) {fuel o k : ℕ}
    (ho : o < v.clusterSize) (hk : k ≤ fuel) :
    readClusters fuel c o k v = (((v.chainBytes l).drop o).take k, v) := by
  induction fuel generalizing c l o k with
  | zero =>
    obtain rfl : k = 0 := by omega
    simp [readClusters]
  | succ fuel ih =>
    obtain ⟨t, rfl⟩ := hch.exists_eq_cons
    have hc := hch.live_of_mem c List.mem_cons_self
    rw [readClusters]
    by_cases hk0 : k = 0
    · simp [hk0]
    · have heoc := inRange_not_eoc hs c hc
      have hspc : o / 512 < v.bpb.sectorsPerCluster := by
        rw [Volume.clusterSize] at ho
        omega
      rw [if_pos ⟨by omega, hc.1, by omega⟩, readSectors_eq hr _ _ _ _ (by omega)]
      have hbytes : (v.sectorBytes (v.bpb.sectorsPerCluster - o / 512)
          (clusterToLba v c + o / 512)).drop (o % 512) = (v.clusterBytes c).drop o := by
        rw [← drop_sectorBytes (by omega), List.drop_drop, Volume.clusterBytes,
          show o / 512 * 512 + o % 512 = o by omega]
      have hlen : ((v.clusterBytes c).drop o).length = v.clusterSize - o := by
        rw [List.length_drop, length_clusterBytes]
      simp only [hbytes, fatReadEntry_eq hr]
      rw [chainBytes_cons, List.drop_append_of_le_length (by simp; omega), List.take_append, hlen]
      have hrest : k - (((v.clusterBytes c).drop o).take k).length = k - (v.clusterSize - o) := by
        rw [List.length_take, hlen]
        omega
      rw [hrest]
      obtain ⟨rfl, hstop⟩ | htail := hch.tail
      · have hnil : readClusters fuel (v.fat c) 0 (k - (v.clusterSize - o)) v = ([], v) := by
          cases fuel with
          | zero => rfl
          | succ n => rw [readClusters, if_neg (by omega)]
        simp [hnil, Volume.chainBytes]
      · rw [ih htail hs.clusterSize_pos (by omega)]
        simp

/-- Following links to a cluster of the chain. -/
theorem skipClusters_eq (hs : v.Sound) {c : ℕ} {l : List ℕ} (hch : IsChain v c l) {n : ℕ}
    (hn : n < l.length) :
    ∃ c', skipClusters n c v = (some c', v) ∧ IsChain v c' (l.drop n) := by
  induction n generalizing c l with
  | zero => exact ⟨c, rfl, hch⟩
  | succ n ih =>
    obtain ⟨t, rfl⟩ := hch.exists_eq_cons
    obtain ⟨rfl, -⟩ | htail := hch.tail
    · simp at hn
    · have hlive := htail.live_of_mem _ htail.head_mem
      have heoc := inRange_not_eoc hs _ hlive
      have hlo := hlive.1
      rw [skipClusters, fatReadEntry_eq hr]
      simp only [if_neg (show ¬ (v.fat c < 2 ∨ eocMin ≤ v.fat c) by omega), List.drop_succ_cons]
      exact ih htail (by simpa using hn)

end reading

/-- `fat16_read_file` delivers a piece of the file's bytes. -/
theorem fat16ReadFile_eq (hs : v.Sound) {c : ℕ} {l : List ℕ} (hch : IsChain v c l) {size : ℕ}
    (hsize : size ≤ l.length * v.clusterSize) (offset maxLen : ℕ) :
    fat16ReadFile c size offset maxLen v =
      ((((v.chainBytes l).take size).drop offset).take maxLen, v) := by
  have hc := hch.live_of_mem c hch.head_mem
  have hlo := hc.1
  rw [fat16ReadFile, if_neg (by simp [hs.mounted]; omega)]
  split
  · next hle =>
    rw [List.drop_eq_nil_of_le (by rw [List.length_take]; omega), List.take_nil]
  · next hlt =>
    have hpos := hs.clusterSize_pos
    have hdiv : offset / v.clusterSize < l.length :=
      (Nat.div_lt_iff_lt_mul hpos).mpr (by omega)
    obtain ⟨c', hskip, hch'⟩ := skipClusters_eq hs.reliable hs hch hdiv
    simp only [hskip]
    rw [readClusters_eq hs.reliable hs hch' (Nat.mod_lt _ hpos) (le_refl _), ← drop_chainBytes,
      List.drop_drop, Nat.mul_comm, Nat.div_add_mod, List.drop_take, List.take_take,
      Nat.min_comm]

end AuroraOS.Fat16
