import AuroraOS.Fat16.Ops

/-!
# What other entries see of an operation

An operation that has one of the effects of `Effect` is invisible through every other name:
`fat16_stat` answers as before, and `fat16_read_file` delivers the same bytes. The one entry
that is read differently is the directory the operation worked in, when its size field makes
the driver read the directory's own sectors.

## Main results

- `fat16ReadFile_congr` — reading a file depends on its links and its sectors only
- `Effect.stat_eq`, `Effect.read_eq` — an operation seen through another name
-/

namespace AuroraOS.Fat16

set_option maxRecDepth 4096

variable {v v' : Volume} {d fuel : ℕ} {name : List UInt8} {t : Vector UInt8 11} {p : Slot}

theorem readClusters_stop {c : ℕ} (hc : eocMin ≤ c) (n o k : ℕ) :
    readClusters n c o k v = ([], v) := by
  cases n with
  | zero => rfl
  | succ n => rw [readClusters, if_neg (by omega)]

section reading

variable (hr : v.Reliable) (hr' : v'.Reliable)

include hr hr'

theorem readSectors_congr {n lba : ℕ} (byteInSector toRead : ℕ)
    (h : ∀ l, lba ≤ l → l < lba + n → v'.disk l = v.disk l) :
    ∃ bytes, readSectors n lba byteInSector toRead v = (true, bytes, v) ∧
      readSectors n lba byteInSector toRead v' = (true, bytes, v') := by
  induction n generalizing lba byteInSector toRead with
  | zero => exact ⟨[], rfl, rfl⟩
  | succ n ih =>
    rw [readSectors, readSectors]
    split
    · exact ⟨[], rfl, rfl⟩
    · obtain ⟨rest, h₁, h₂⟩ := @ih (lba + 1) 0 (toRead - min (512 - byteInSector) toRead)
        fun l hl hlt => h l (by omega) (by omega)
      simp only [readSector_eq hr, readSector_eq hr', h lba le_rfl (by omega), h₁, h₂]
      exact ⟨_, rfl, rfl⟩

theorem readClusters_congr (hg : v.SameGeometry v') {c : ℕ} {l : List ℕ} (hch : IsChain v c l)
    (hch' : IsChain v' c l)
    (hdata : ∀ c ∈ l, ∀ lba ∈ clusterSectors v c, v'.disk lba = v.disk lba) (n o k : ℕ) :
    ∃ bytes, readClusters n c o k v = (bytes, v) ∧ readClusters n c o k v' = (bytes, v') := by
  induction n generalizing c l o k with
  | zero => exact ⟨[], rfl, rfl⟩
  | succ n ih =>
    rw [readClusters, readClusters]
    split
    · obtain ⟨t, rfl⟩ := hch.exists_eq_cons
      have hsectors : ∀ lba, clusterToLba v c + o / 512 ≤ lba →
          lba < clusterToLba v c + o / 512 + (v.bpb.sectorsPerCluster - o / 512) →
          v'.disk lba = v.disk lba := fun lba h₁ h₂ =>
        hdata c List.mem_cons_self lba (mem_clusterSectors.mpr ⟨by omega, by omega⟩)
      obtain ⟨bytes, h₁, h₂⟩ := readSectors_congr hr hr' (o % 512) k hsectors
      simp only [hg.bpb, hg.clusterToLba, h₁, h₂, fatReadEntry_eq hr, fatReadEntry_eq hr']
      obtain ⟨rfl, hstop⟩ | htail := hch.tail
      · obtain ⟨_, hstop'⟩ | htail' := hch'.tail
        · rw [readClusters_stop hstop, readClusters_stop hstop']
          exact ⟨_, rfl, rfl⟩
        · exact absurd rfl htail'.ne_nil
      · obtain ⟨rfl, _⟩ | htail' := hch'.tail
        · exact absurd rfl htail.ne_nil
        · -- both volumes name the same next cluster, the head of the rest
          obtain ⟨s, hs⟩ := htail.exists_eq_cons
          obtain ⟨s', hs'⟩ := htail'.exists_eq_cons
          have hnext : v'.fat c = v.fat c := (List.cons.inj (hs'.symm.trans hs)).1
          rw [hnext] at htail' ⊢
          obtain ⟨rest, h₃, h₄⟩ := ih htail htail'
            (fun c hc => hdata c (List.mem_cons_of_mem _ hc)) 0 (k - bytes.length)
          simp only [h₃, h₄]
          exact ⟨_, rfl, rfl⟩
    · exact ⟨[], rfl, rfl⟩

theorem skipClusters_congr (hs : v.Sound) {c : ℕ} {l : List ℕ} (hch : IsChain v c l)
    (hch' : IsChain v' c l) (n : ℕ) :
    (skipClusters n c v = (none, v) ∧ skipClusters n c v' = (none, v')) ∨
      ∃ c' l', l' <:+ l ∧ IsChain v c' l' ∧ IsChain v' c' l' ∧
        skipClusters n c v = (some c', v) ∧ skipClusters n c v' = (some c', v') := by
  induction n generalizing c l with
  | zero => exact .inr ⟨c, l, List.suffix_rfl, hch, hch', rfl, rfl⟩
  | succ n ih =>
    obtain ⟨t, rfl⟩ := hch.exists_eq_cons
    simp only [skipClusters, fatReadEntry_eq hr, fatReadEntry_eq hr']
    obtain ⟨rfl, hstop⟩ | htail := hch.tail
    · obtain ⟨_, hstop'⟩ | htail' := hch'.tail
      · rw [if_pos (.inr hstop), if_pos (.inr hstop')]
        exact .inl ⟨rfl, rfl⟩
      · exact absurd rfl htail'.ne_nil
    · obtain ⟨rfl, _⟩ | htail' := hch'.tail
      · exact absurd rfl htail.ne_nil
      · obtain ⟨s, hs₁⟩ := htail.exists_eq_cons
        obtain ⟨s', hs₂⟩ := htail'.exists_eq_cons
        have hnext : v'.fat c = v.fat c := (List.cons.inj (hs₂.symm.trans hs₁)).1
        have hlive := htail.live_of_mem _ htail.head_mem
        have hgo : ¬ (v.fat c < 2 ∨ eocMin ≤ v.fat c) := by
          have := hlive.1
          have := inRange_not_eoc hs _ hlive
          omega
        rw [hnext] at htail' ⊢
        rw [if_neg hgo, if_neg hgo]
        refine (ih htail htail').imp id ?_
        rintro ⟨c', l', hsuf, h₁, h₂, h₃, h₄⟩
        exact ⟨c', l', hsuf.trans (List.suffix_cons _ _), h₁, h₂, h₃, h₄⟩

end reading

/-- Reading a file only depends on the links and the sectors of its clusters. -/
theorem fat16ReadFile_congr (hs : v.Sound) (hs' : v'.Sound) (hg : v.SameGeometry v') {c : ℕ}
    {l : List ℕ} (hch : IsChain v c l) (hch' : IsChain v' c l)
    (hdata : ∀ c ∈ l, ∀ lba ∈ clusterSectors v c, v'.disk lba = v.disk lba)
    (size offset maxLen : ℕ) :
    ∃ bytes, fat16ReadFile c size offset maxLen v = (bytes, v) ∧
      fat16ReadFile c size offset maxLen v' = (bytes, v') := by
  rw [fat16ReadFile, fat16ReadFile, hg.mounted, hg.clusterSize]
  split
  · exact ⟨[], rfl, rfl⟩
  · split
    · exact ⟨[], rfl, rfl⟩
    · rcases skipClusters_congr hs.reliable hs'.reliable hs hch hch' (offset / v.clusterSize) with
        ⟨h₁, h₂⟩ | ⟨c', l', hsuf, hc, hc', h₁, h₂⟩
      · simp only [h₁, h₂]
        exact ⟨[], rfl, rfl⟩
      · simp only [h₁, h₂, hg.clusterSize]
        exact readClusters_congr hs.reliable hs'.reliable hg hc hc'
          (fun c hc => hdata c (hsuf.subset hc)) _ _ _

theorem fat16ReadFile_none (v : Volume) (size offset maxLen : ℕ) :
    fat16ReadFile 0 size offset maxLen v = ([], v) := by
  rw [fat16ReadFile, if_pos (.inr (by decide))]

theorem upcase_upcase (c : UInt8) : upcase (upcase c) = upcase c := by
  refine UInt8.toNat_inj.mp ?_
  rw [upcase_toNat (upcase c), upcase_toNat c]
  by_cases hc : 97 ≤ c.toNat ∧ c.toNat ≤ 122
  · rw [if_pos hc, if_neg (by omega)]
  · rw [if_neg hc, if_neg hc]

theorem upcase_ne_blank {c : UInt8} (h : c ≠ 32) : upcase c ≠ 32 := by
  have hc : c.toNat ≠ 32 := fun he => h (UInt8.toNat_inj.mp he)
  intro hu
  have hup := upcase_toNat c
  rw [hu, show (32 : UInt8).toNat = 32 from rfl] at hup
  revert hup
  split <;> omega

theorem upcase_ne_dot {c : UInt8} (h : c ≠ 46) : upcase c ≠ 46 := by
  have hc : c.toNat ≠ 46 := fun he => h (UInt8.toNat_inj.mp he)
  intro hu
  have hup := upcase_toNat c
  rw [hu, show (46 : UInt8).toNat = 46 from rfl] at hup
  revert hup
  split <;> omega

theorem upcase_ne_zero {c : UInt8} (h : c ≠ 0) : upcase c ≠ 0 := by
  have hc : c.toNat ≠ 0 := fun he => h (UInt8.toNat_inj.mp he)
  intro hu
  have hup := upcase_toNat c
  rw [hu, show (0 : UInt8).toNat = 0 from rfl] at hup
  revert hup
  split <;> omega

theorem padTo_toList {n : ℕ} {l : List UInt8} (h : l.length ≤ n) :
    (padTo n l).toList = l ++ List.replicate (n - l.length) 32 := by
  refine List.ext_getElem (by simp; omega) fun i h₁ h₂ => ?_
  have hi : i < n := by simpa using h₁
  have hget : (padTo n l).toList[i] = l.getD i 32 := by
    rw [Vector.getElem_toList]
    exact Vector.getElem_ofFn _
  rw [hget]
  by_cases hil : i < l.length
  · simp [List.getElem_append_left, hil]
  · rw [List.getElem_append_right (by omega)]
    simp [Nat.le_of_not_lt hil]

theorem takeWhile_append_blanks {l : List UInt8} (h : 32 ∉ l) (k : ℕ) :
    (l ++ List.replicate k 32).takeWhile (fun c => decide (c ≠ 32)) = l := by
  rw [List.takeWhile_append_of_pos]
  · cases k <;> simp [List.replicate_succ]
  · intro c hc
    simp only [ne_eq, decide_not, Bool.not_eq_true', decide_eq_false_iff_not]
    rintro rfl
    exact h hc

/-- The displayed form of a stored name without blanks. -/
theorem nameFrom83_name83 {base ext : List UInt8} (hb : base.length ≤ 8) (he : ext.length ≤ 3)
    (hbase : 32 ∉ base) (hext : 32 ∉ ext) :
    nameFrom83 (name83 base ext) =
      if ext = [] then base.map upcase else base.map upcase ++ 46 :: ext.map upcase := by
  have hmap : ∀ l : List UInt8, 32 ∉ l → 32 ∉ l.map upcase := by
    intro l hl hmem
    obtain ⟨c, hc, hcu⟩ := List.mem_map.mp hmem
    exact upcase_ne_blank (fun h => hl (h ▸ hc)) hcu
  have hlist : (name83 base ext).toList = (padTo 8 (base.map upcase)).toList ++
      (padTo 3 (ext.map upcase)).toList := by
    rw [name83, Vector.toList_append]
  have hbt : ((name83 base ext).toList.take 8).takeWhile (fun c => decide (c ≠ 32)) =
      base.map upcase := by
    rw [hlist, List.take_left' (by simp), padTo_toList (by simpa using hb)]
    exact takeWhile_append_blanks (hmap base hbase) _
  have het : ((name83 base ext).toList.drop 8).takeWhile (fun c => decide (c ≠ 32)) =
      ext.map upcase := by
    rw [hlist, List.drop_left' (by simp), padTo_toList (by simpa using he)]
    exact takeWhile_append_blanks (hmap ext hext) _
  have h8 : (name83 base ext)[8] = (ext.map upcase).getD 0 32 := by
    rw [name83, Vector.getElem_append_right (by decide) le_rfl, padTo, Vector.getElem_ofFn]
  rw [nameFrom83, hbt, het, h8]
  cases ext with
  | nil => simp
  | cons c l =>
    have hc : upcase c ≠ 32 := upcase_ne_blank fun h => hext (h ▸ List.mem_cons_self)
    simp [hc]

/-- A stored name that came from a name without blanks converts to itself. -/
theorem nameTo83_nameFrom83 (ht : nameTo83 name = some t) (hblank : 32 ∉ name) :
    nameTo83 (nameFrom83 t) = some t := by
  -- the base and the extension the name was cut into
  obtain ⟨base, ext, rfl, hb, he, hbase, hext, hdot⟩ : ∃ base ext, t = name83 base ext ∧
      base.length ≤ 8 ∧ ext.length ≤ 3 ∧ (∀ c ∈ base, c ≠ 0 ∧ c ≠ 32) ∧
      (∀ c ∈ ext, c ≠ 0 ∧ c ≠ 32) ∧ 46 ∉ base := by
    have hstring : ∀ c ∈ cString name, c ≠ 0 ∧ c ≠ 32 := fun c hc =>
      ⟨by simpa using List.mem_takeWhile_imp hc, fun h =>
        hblank (h ▸ (List.takeWhile_sublist _).subset hc)⟩
    have hsub : ∀ c ∈ ((cString name).takeWhile (· ≠ 46)).take 8, c ∈ cString name ∧ c ≠ 46 := by
      intro c hc
      have hc' := List.mem_of_mem_take hc
      exact ⟨(List.takeWhile_sublist _).subset hc', by simpa using List.mem_takeWhile_imp hc'⟩
    rw [nameTo83] at ht
    split at ht
    · obtain rfl := Option.some.inj ht
      exact ⟨_, [], rfl, List.length_take_le _ _, by simp, fun c hc => hstring c (hsub c hc).1,
        by simp, fun h => (hsub _ h).2 rfl⟩
    · next c ext hdrop =>
      split at ht
      · exact absurd ht (by simp)
      · split at ht
        · exact absurd ht (by simp)
        · next hlen =>
          obtain rfl := Option.some.inj ht
          refine ⟨_, ext, rfl, List.length_take_le _ _, by omega, fun c hc =>
            hstring c (hsub c hc).1, fun c' hc' => hstring c' ?_, fun h => (hsub _ h).2 rfl⟩
          have hmem : c' ∈ c :: ext := List.mem_cons_of_mem _ hc'
          rw [← hdrop] at hmem
          exact List.mem_of_mem_drop hmem
  have hdot' : ∀ c ∈ base.map upcase, decide (c ≠ 46) = true := by
    intro c hc
    obtain ⟨c', hc', rfl⟩ := List.mem_map.mp hc
    simpa using upcase_ne_dot fun h => hdot (h ▸ hc')
  have hidem : ∀ l : List UInt8, (l.map upcase).map upcase = l.map upcase := by
    intro l
    rw [List.map_map]
    exact List.map_congr_left fun c _ => upcase_upcase c
  have hname : ∀ l : List UInt8, name83 (base.map upcase) (l.map upcase) = name83 base l := by
    intro l
    rw [name83, name83, hidem, hidem]
  have hzero : ∀ l : List UInt8, (∀ c ∈ l, c ≠ 0 ∧ c ≠ 32) → ∀ c ∈ l.map upcase,
      decide (c ≠ 0) = true := by
    intro l hl c hc
    obtain ⟨c', hc', rfl⟩ := List.mem_map.mp hc
    simpa using upcase_ne_zero (hl c' hc').1
  rw [nameFrom83_name83 hb he (fun h => (hbase _ h).2 rfl) fun h => (hext _ h).2 rfl]
  split
  · next hnil =>
    subst hnil
    have htake : ((base.map upcase).takeWhile (fun c => decide (c ≠ 46))).take 8 =
        base.map upcase := by
      rw [List.takeWhile_eq_self_iff.mpr hdot', List.take_of_length_le (by simpa using hb)]
    rw [nameTo83, cString, List.takeWhile_eq_self_iff.mpr (hzero base hbase), htake,
      List.drop_length]
    exact congrArg some (hname [])
  · have htake : ((base.map upcase ++ 46 :: ext.map upcase).takeWhile
        (fun c => decide (c ≠ 46))).take 8 = base.map upcase := by
      rw [List.takeWhile_append_of_pos hdot', List.takeWhile_cons_of_neg (by simp),
        List.append_nil, List.take_of_length_le (by simpa using hb)]
    have hstring : ∀ c ∈ base.map upcase ++ 46 :: ext.map upcase, decide (c ≠ 0) = true :=
      List.forall_mem_append.mpr ⟨hzero base hbase,
        List.forall_mem_cons.mpr ⟨by decide, hzero ext hext⟩⟩
    rw [nameTo83, cString, List.takeWhile_eq_self_iff.mpr hstring, htake, List.drop_left]
    simp only [ne_eq, not_true_eq_false, if_false, List.length_map]
    rw [if_neg (by omega), hname]

/-- The slot that `fat16_stat` finds for the name `t` of directory `d`. -/
def Volume.lookup (v : Volume) (d : ℕ) (t : Vector UInt8 11) : Option Slot :=
  (dirSlots v d).find? fun p => (v.dirent p).answersTo t

theorem fat16Stat_eq_lookup {float : List ℕ} (h : Inv v none float) (hd : ReachDir v none d)
    (hfuel : v.fuelBound ≤ fuel) (ht : nameTo83 name = some t) :
    fat16Stat fuel d name v = some ((v.lookup d t).map fun p => (v.dirent p).toEntry, v) :=
  fat16Stat_eq h hd hfuel ht

theorem entry_of_lookup (hd : ReachDir v none d) {q : Slot} (hq : v.lookup d t = some q) :
    Entry v none d q ∧ (v.dirent q).answersTo t = true := by
  have hans := List.find?_some hq
  refine ⟨⟨hd, ⟨List.mem_of_find?_eq_some hq, ?_⟩, by simp⟩, hans⟩
  rw [Dirent.answersTo, Bool.and_eq_true] at hans
  exact hans.1

/-- A directory that grew by slots which do not answer, and whose old slots answer as before. -/
theorem lookup_congr {ext : List Slot} (hslots : dirSlots v' d = dirSlots v d ++ ext)
    (hext : ∀ q ∈ ext, (v'.dirent q).answersTo t = false)
    (hold : ∀ q ∈ dirSlots v d, (v'.dirent q).answersTo t = (v.dirent q).answersTo t) :
    v'.lookup d t = v.lookup d t := by
  have hnone : ext.find? (fun p => (v'.dirent p).answersTo t) = none := by
    rw [List.find?_eq_none]
    intro q hq
    simp [hext q hq]
  rw [Volume.lookup, Volume.lookup, hslots, List.find?_append, hnone, Option.or_none]
  exact List.find?_congr hold

theorem Dirent.answersTo_of_isEnd {e : Dirent} (h : e.isEnd = true) : e.answersTo t = false := by
  rw [answersTo, inUse_eq_false_of_isEnd h, Bool.false_and]

/-- Growing directories does not change what a lookup finds. -/
theorem Keeps.lookup_eq {d₀ : ℕ} (hk : Keeps none d₀ v v') (hd : ReachDir v none d) :
    v'.lookup d t = v.lookup d t := by
  obtain ⟨ext, hslots, hext⟩ := hk.slots d hd
  refine lookup_congr hslots (fun q hq => Dirent.answersTo_of_isEnd (hext q hq).1) fun q hq => ?_
  rw [hk.dirent d hd q hq (by simp)]

/-- Nor does work on a slot that does not answer, before or after. -/
theorem Keeps.lookup_eq_of_hole {p : Slot} {d₀ : ℕ} (hk : Keeps (some p) d₀ v v')
    (hd : ReachDir v (some p) d)
    (hp : p ∈ dirSlots v d → (v'.dirent p).answersTo t = (v.dirent p).answersTo t) :
    v'.lookup d t = v.lookup d t := by
  obtain ⟨ext, hslots, hext⟩ := hk.slots d hd
  refine lookup_congr hslots (fun q hq => Dirent.answersTo_of_isEnd (hext q hq).1) fun q hq => ?_
  by_cases hqp : q = p
  · subst hqp
    exact hp hq
  · rw [hk.dirent d hd q hq fun heq => hqp (Option.some.inj heq).symm]

/-- What holds of an entry that is found through another name than the one an operation was
    called with. -/
structure Untouched (v v' : Volume) (d : ℕ) (t : Vector UInt8 11) (q : Slot) (d₀ : ℕ) : Prop where
  reach : ReachDir v' none d
  lookup : v'.lookup d t = v.lookup d t
  dirent : v'.dirent q = v.dirent q
  chain : (v.dirent q).Outside d₀ → v'.chainOf q = v.chainOf q
  data : (v.dirent q).Outside d₀ → ∀ c ∈ v.chainOf q, ∀ lba ∈ clusterSectors v c,
    v'.disk lba = v.disk lba

theorem Keeps.untouched {q : Slot} {d₀ : ℕ} (hk : Keeps none d₀ v v')
    (hq : Entry v none d q) : Untouched v v' d t q d₀ :=
  ⟨hk.reachDir_iff.mp hq.reach, hk.lookup_eq hq.reach, hk.dirent_of_entry hq,
    hk.chain d q hq, hk.data d q hq⟩

/-- The name `t'` does not see a slot that holds the name `t` if it is in use. -/
theorem Dirent.not_answersTo {e : Dirent} {t' : Vector UInt8 11}
    (hnorm : nameTo83 (nameFrom83 t) = some t) (hne : t ≠ t')
    (hname : e.inUse = true → e.name = t) : e.answersTo t' = false := by
  rw [answersTo]
  cases huse : e.inUse with
  | false => rfl
  | true =>
    rw [hname huse, hnorm]
    simp [hne]

/-- Work on a slot of a grown directory leaves the other entries as they are. -/
theorem Keeps.kept_of_ne {v₁ : Volume} {q : Slot} {d' : ℕ} (hk₁ : Keeps none d v v₁)
    (hd₁ : ReachDir v₁ none d) (hp : p ∈ dirSlots v₁ d)
    (hold : (v₁.dirent p).inUse = true → (v₁.dirent p).name = t ∧ LeafSlot v₁ p)
    (hk₂ : Keeps (some p) d v₁ v') (hq : Entry v none d' q) (hqp : q ≠ p) :
    Entry v₁ (some p) d' q ∧ v'.dirent q = v.dirent q ∧
      ((v.dirent q).Outside d → v'.chainOf q = v.chainOf q) ∧
      ((v.dirent q).Outside d → ∀ c ∈ v.chainOf q, ∀ lba ∈ clusterSectors v c,
        v'.disk lba = v.disk lba) := by
  have hq₁ : Entry v₁ none d' q := hk₁.entry_iff.mp hq
  have hsame₁ : v₁.dirent q = v.dirent q := hk₁.dirent_of_entry hq
  have hq₂ : Entry v₁ (some p) d' q := by
    cases huse : (v₁.dirent p).inUse with
    | false => exact (entry_some_iff_of_not_inUse huse).mpr hq₁
    | true =>
      obtain hq₂ | ⟨heq, _⟩ := (entry_none_iff hd₁ ⟨hp, huse⟩ (hold huse).2).mp hq₁
      · exact hq₂
      · exact absurd heq hqp
  refine ⟨hq₂, ?_, fun hout => ?_, fun hout c hc lba hlba => ?_⟩
  · rw [hk₂.dirent_of_entry hq₂, hsame₁]
  · rw [hk₂.chain d' q hq₂ (by rwa [hsame₁]), hk₁.chain d' q hq hout]
  · rw [hk₂.data d' q hq₂ (by rwa [hsame₁]) c (by rwa [hk₁.chain d' q hq hout]) lba
      (by rwa [hk₁.geometry.clusterSectors]), hk₁.data d' q hq hout c hc lba hlba]

/-- An operation does not touch what is found through another name. -/
theorem Effect.untouched (heff : Effect v d name v') (hblank : 32 ∉ name)
    {d' : ℕ} {t' : Vector UInt8 11} {q : Slot} (hq : Entry v none d' q)
    (hans : (v.dirent q).answersTo t' = true) (hother : d' ≠ d ∨ nameTo83 name ≠ some t') :
    Untouched v v' d' t' q d := by
  cases heff with
  | grown _ hk => exact hk.untouched hq
  | @worked t v₁ p ht hinv₁ hk₁ hd₁ hp hold hk₂ hinv₂ hnew =>
    have hu₁ : Untouched v v₁ d' t' q d := hk₁.untouched hq
    have hq₁ : Entry v₁ none d' q := hk₁.entry_iff.mp hq
    have hnorm := nameTo83_nameFrom83 ht hblank
    -- seen from the other name the slot worked on never answers
    have hsilent : p ∈ dirSlots v₁ d' → (v₁.dirent p).answersTo t' = false ∧
        (v'.dirent p).answersTo t' = false := by
      intro hp'
      have hdd : d' = d :=
        hinv₁.dir_unique hq₁.reach hd₁ (mem_dirSlots.mp hp').1 (mem_dirSlots.mp hp).1
      have hne : t ≠ t' := fun htt => (hother.resolve_left (fun h => h hdd)) (htt ▸ ht)
      exact ⟨Dirent.not_answersTo hnorm hne fun hu => (hold hu).1,
        Dirent.not_answersTo hnorm hne hnew⟩
    have hqp : q ≠ p := by
      rintro rfl
      rw [← hu₁.dirent, (hsilent hq₁.live.1).1] at hans
      exact absurd hans (by simp)
    obtain ⟨hq₂, hdirent, hchain, hdata⟩ := hk₁.kept_of_ne hd₁ hp hold hk₂ hq hqp
    refine ⟨(hk₂.reachDir_iff.mp hq₂.reach).mono fun _ _ _ hl => ⟨⟨hl.1, by simp⟩, rfl⟩, ?_,
      hdirent, hchain, hdata⟩
    rw [← hu₁.lookup]
    exact hk₂.lookup_eq_of_hole hq₂.reach fun hp' => by rw [(hsilent hp').1, (hsilent hp').2]

/-- Reading an entry whose clusters are as before. -/
theorem read_eq_of_kept {q : Slot} {d' : ℕ} (h : Inv v none []) (h' : Inv v' none [])
    (hg : v.SameGeometry v') (hq : Entry v none d' q) (hq' : Entry v' none d' q)
    (hdirent : v'.dirent q = v.dirent q) (hchain : v'.chainOf q = v.chainOf q)
    (hdata : ∀ c ∈ v.chainOf q, ∀ lba ∈ clusterSectors v c, v'.disk lba = v.disk lba)
    (offset maxLen : ℕ) :
    (fat16ReadFile (v.dirent q).firstCluster (v.dirent q).fileSize.toNat offset maxLen v').1 =
      (fat16ReadFile (v.dirent q).firstCluster (v.dirent q).fileSize.toNat offset maxLen v).1 := by
  obtain ⟨_, h0⟩ | hch := h.chain_cases hq
  · rw [h0, fat16ReadFile_none, fat16ReadFile_none]
  · obtain ⟨hnil, _⟩ | hch' := h'.chain_cases hq'
    · rw [hchain] at hnil
      exact absurd hnil hch.ne_nil
    · rw [hdirent, hchain] at hch'
      obtain ⟨bytes, h₁, h₂⟩ := fat16ReadFile_congr h.sound h'.sound hg hch hch' hdata
        (v.dirent q).fileSize.toNat offset maxLen
      rw [h₁, h₂]

/-- Reading an untouched entry. -/
theorem Untouched.read_eq {t' : Vector UInt8 11} {q : Slot} {d₀ : ℕ} (h : Inv v none [])
    (h' : Inv v' none []) (hg : v.SameGeometry v') (hu : Untouched v v' d t' q d₀)
    (hq : Entry v none d q) (hq' : Entry v' none d q) (hout : (v.dirent q).Outside d₀)
    (offset maxLen : ℕ) :
    (fat16ReadFile (v.dirent q).firstCluster (v.dirent q).fileSize.toNat offset maxLen v').1 =
      (fat16ReadFile (v.dirent q).firstCluster (v.dirent q).fileSize.toNat offset maxLen v).1 :=
  read_eq_of_kept h h' hg hq hq' hu.dirent (hu.chain hout) (hu.data hout) offset maxLen

/-- The operations that change a directory. -/
inductive FileOp where
  | create (asDirectory : Bool)
  | write (data : List UInt8)
  | delete

/-- Run an operation on a name of directory `d`. -/
def FileOp.run (fuel d : ℕ) (name : List UInt8) : FileOp → Volume → Option (Bool × Volume)
  | .create asDirectory => fat16Create fuel d name asDirectory
  | .write data => fat16WriteFile fuel d name data
  | .delete => fat16Delete fuel d name

/-- The volume an operation leaves behind. -/
def FileOp.after (fuel d : ℕ) (name : List UInt8) (op : FileOp) (v : Volume) : Volume :=
  ((op.run fuel d name v).map (·.2)).getD v

theorem FileOp.run_eq_after {op : FileOp} {b : Bool}
    (h : (op.run fuel d name v).map (·.1) = some b) :
    op.run fuel d name v = some (b, op.after fuel d name v) := by
  obtain ⟨⟨b', v'⟩, hrun, rfl⟩ := Option.map_eq_some_iff.mp h
  rw [FileOp.after, hrun, Option.map_some, Option.getD_some]

/-- Files are written, and only files and empty directories are deleted. -/
def FileOp.Applies (v : Volume) (d : ℕ) (name : List UInt8) : FileOp → Prop
  | .create _ => True
  | .write _ => ∀ p, Entry v none d p → nameTo83 name = some (v.dirent p).name →
      (v.dirent p).isDir = false
  | .delete => ∀ p, Entry v none d p → nameTo83 name = some (v.dirent p).name → LeafSlot v p

/-- A write that succeeds has not lost the clusters of its file. -/
theorem fat16WriteFile_of_success (h : Inv v none []) (hd : ReachDir v none d)
    (hfuel : v.fuelBound ≤ fuel) (hp : Printable name) {data : List UInt8}
    (happ : (FileOp.write data).Applies v d name)
    (hrun : fat16WriteFile fuel d name data v = some (true, v')) :
    Effect v d name v' ∧ ∀ t, nameTo83 name = some t → ∃ v₁ p, Wrote v d t data v' v₁ p := by
  obtain ⟨b, v'', heq, heff, -, hwrote⟩ := fat16WriteFile_spec h hd hfuel hp data fun p he ht => by
    refine ⟨happ p he ht, .inr ?_⟩
    -- otherwise the write had failed
    by_contra hlt
    obtain ⟨w, hfail, _⟩ := (fat16WriteFile_of_file h he hfuel ht (happ p he ht) data).2 (by omega)
    rw [hfail] at hrun
    exact absurd (Prod.mk.inj (Option.some.inj hrun)).1 (by simp)
  obtain ⟨rfl, rfl⟩ := Prod.mk.inj (Option.some.inj (hrun.symm.trans heq))
  exact ⟨heff, hwrote rfl⟩

/-- A successful operation keeps the invariant. -/
theorem FileOp.effect_of_success (h : Inv v none []) (hd : ReachDir v none d)
    (hfuel : v.fuelBound ≤ fuel) (hp : Printable name) {op : FileOp} (happ : op.Applies v d name)
    (hrun : op.run fuel d name v = some (true, v')) : Effect v d name v' := by
  have hsame : ∀ {b v''}, op.run fuel d name v = some (b, v'') → v'' = v' := by
    intro b v'' heq
    rw [hrun] at heq
    exact (Prod.mk.inj (Option.some.inj heq)).2.symm
  cases op with
  | create asDirectory =>
    obtain ⟨b, v'', heq, heff, _⟩ := fat16Create_spec h hd hfuel hp asDirectory
    exact hsame heq ▸ heff
  | delete =>
    obtain ⟨b, v'', heq, heff, _⟩ := fat16Delete_spec h hd hfuel happ
    exact hsame heq ▸ heff
  | write data => exact (fat16WriteFile_of_success h hd hfuel hp happ hrun).1

/-- A successful operation on a name leaves every other name as it was: what `fat16_stat` says
    of it, and the bytes `fat16_read_file` delivers, unless it names the directory itself with a
    size that makes its own sectors readable. -/
theorem fileOp_isolated (h : WellFormed v) (hd : ReachDir v none d) (hfuel : v.fuelBound ≤ fuel)
    (hp : Printable name) (hblank : 32 ∉ name) {op : FileOp} (happ : op.Applies v d name)
    (hrun : op.run fuel d name v = some (true, v')) {d' : ℕ} (hd' : ReachDir v none d')
    {name' : List UInt8} (hother : d' ≠ d ∨ nameTo83 name' ≠ nameTo83 name) {e : Fat16Entry}
    (hstat : fat16Stat fuel d' name' v = some (some e, v)) :
    fat16Stat fuel d' name' v' = some (some e, v') ∧
      ((e.isDir = true → e.firstCluster ≠ d ∨ e.size = 0) → ∀ offset maxLen,
        (fat16ReadFile e.firstCluster e.size offset maxLen v').1 =
          (fat16ReadFile e.firstCluster e.size offset maxLen v).1) := by
  have heff := FileOp.effect_of_success h.inv hd hfuel hp happ hrun
  cases ht' : nameTo83 name' with
  | none =>
    rw [fat16Stat, if_pos h.sound.mounted, findInDir, ht'] at hstat
    exact absurd (Prod.mk.inj (Option.some.inj hstat)).1 (by simp)
  | some t' =>
    rw [fat16Stat_eq_lookup h.inv hd' hfuel ht'] at hstat
    obtain ⟨q, hq, rfl⟩ := Option.map_eq_some_iff.mp (Prod.mk.inj (Option.some.inj hstat)).1
    obtain ⟨hent, hans⟩ := entry_of_lookup hd' hq
    have hu := heff.untouched hblank hent hans (hother.imp_right fun hne => by
      rw [ht'] at hne
      exact fun heq => hne heq.symm)
    have hq' : v'.lookup d' t' = some q := hu.lookup.trans hq
    obtain ⟨hent', _⟩ := entry_of_lookup hu.reach hq'
    refine ⟨?_, fun hsize offset maxLen => ?_⟩
    · rw [fat16Stat_eq_lookup heff.inv hu.reach (by rwa [heff.geometry.fuelBound]) ht', hq',
        Option.map_some, hu.dirent]
    · by_cases hzero : (v.dirent q).fileSize.toNat = 0
      · -- nothing is read from an entry of size 0
        simp only [Dirent.toEntry, hzero, fat16ReadFile, Nat.zero_le, if_true]
        split <;> split <;> rfl
      · refine hu.read_eq h.inv heff.inv heff.geometry hent hent' (fun hdir => ?_) offset maxLen
        exact (hsize hdir).resolve_right hzero

/-- A subdirectory `D` whose entry claims 512 bytes. -/
def sizedDirVolume : Volume :=
  let v := FileOp.after 4 0 [68] (.create true) (blankVolume 1)
  v.setDirent ⟨3, 0⟩ { v.dirent ⟨3, 0⟩ with fileSize := 512 }

theorem entry_of_root (hp : p ∈ dirSlots v 0) (huse : (v.dirent p).inUse = true) :
    Entry v none 0 p :=
  ⟨reachDir_root, ⟨hp, huse⟩, by simp⟩

theorem leafSlot_of_unused
    (h : ∀ q ∈ dirSlots v (v.dirent p).firstCluster, (v.dirent q).inUse = false) :
    LeafSlot v p := by
  rintro _ q ⟨hq, huse⟩
  rw [h q hq] at huse
  exact absurd huse (by simp)

theorem sizedDirVolume_wellFormed : WellFormed sizedDirVolume := by
  have hblank : WellFormed (blankVolume 1) := blankVolume_wellFormed (by decide)
  obtain ⟨b, v, hrun, heff, hsized⟩ := fat16Create_spec hblank.inv reachDir_root
    (show (blankVolume 1).fuelBound ≤ 4 by decide) (show Printable [68] by decide) true
  obtain rfl : FileOp.after 4 0 [68] (.create true) (blankVolume 1) = v := by
    simp only [FileOp.after, FileOp.run, hrun, Option.map_some, Option.getD_some]
  have hinv := heff.inv
  have hent := entry_of_root (v := FileOp.after 4 0 [68] (.create true) (blankVolume 1))
    (p := ⟨3, 0⟩) (by decide) (by decide)
  have hleaf : LeafSlot (FileOp.after 4 0 [68] (.create true) (blankVolume 1)) ⟨3, 0⟩ :=
    leafSlot_of_unused (by decide)
  have ho := Opened.of_entry hinv hent hleaf rfl
  have hchain := (hinv.chain_cases hent).resolve_left (by decide)
  obtain ⟨hinv', hk, hiff, hpe, hpc⟩ := ho.write
    (e := { (FileOp.after 4 0 [68] (.create true) (blankVolume 1)).dirent ⟨3, 0⟩ with
      fileSize := 512 }) rfl (by decide) (by decide) (.inr hchain) (by
      intro _ c hc lba hlba
      have hc2 : c = 2 := by
        revert hc
        rw [show (FileOp.after 4 0 [68] (.create true) (blankVolume 1)).chainOf ⟨3, 0⟩ = [2] by
          decide]
        exact List.mem_singleton.mp
      subst hc2
      obtain rfl : lba = 4 := by
        revert hlba
        rw [show clusterSectors (FileOp.after 4 0 [68] (.create true) (blankVolume 1)) 2 = [4] by
          decide]
        exact List.mem_singleton.mp
      rfl)
  refine wellFormed_iff_inv.mpr
    ⟨hinv', .of_write hk ((hsized (wellFormed_iff_inv.mp hblank).2).open_slot _) hiff hpe hpc
    fun hfile => absurd hfile (by decide)⟩

/-- Creating a file in `D` changes what reading `D` itself delivers. -/
theorem create_changes_own_directory :
    WellFormed sizedDirVolume ∧ ReachDir sizedDirVolume none 2 ∧ Printable [65] ∧ 32 ∉ [65] ∧
      ∃ v', FileOp.run 4 2 [65] (.create false) sizedDirVolume = some (true, v') ∧
        ∃ e, fat16Stat 4 0 [68] sizedDirVolume = some (some e, sizedDirVolume) ∧
          (fat16ReadFile e.firstCluster e.size 0 1 sizedDirVolume).1 = [0] ∧
          (fat16ReadFile e.firstCluster e.size 0 1 v').1 = [65] := by
  have hent : Entry sizedDirVolume none 0 ⟨3, 0⟩ :=
    entry_of_root (by decide) (by decide)
  have hreach : ReachDir sizedDirVolume none 2 := by
    have hsub := hent.reach_sub (by decide)
    rwa [show (sizedDirVolume.dirent ⟨3, 0⟩).firstCluster = 2 by decide] at hsub
  have hstat : fat16Stat 4 0 [68] sizedDirVolume =
      some (some (sizedDirVolume.dirent ⟨3, 0⟩).toEntry, sizedDirVolume) := by
    rw [fat16Stat_eq_lookup sizedDirVolume_wellFormed.inv reachDir_root (by decide)
      (show nameTo83 [68] = some (sizedDirVolume.dirent ⟨3, 0⟩).name by decide)]
    rw [show sizedDirVolume.lookup 0 (sizedDirVolume.dirent ⟨3, 0⟩).name = some ⟨3, 0⟩ by
      decide]
    rfl
  exact ⟨sizedDirVolume_wellFormed, hreach, by decide, by decide, _,
    FileOp.run_eq_after (by decide), _, hstat, by decide, by decide⟩

/-- Creating a second file leaves the first one as it was. -/
theorem fileOp_isolated_create :
    ∃ v v' e, FileOp.run 4 0 [66] (.create false) v = some (true, v') ∧
      fat16Stat 4 0 [65] v = some (some e, v) ∧ fat16Stat 4 0 [65] v' = some (some e, v') := by
  have hblank : WellFormed (blankVolume 1) := blankVolume_wellFormed (by decide)
  obtain ⟨b, v, hrun, heff, hsized⟩ := fat16Create_spec hblank.inv reachDir_root
    (show (blankVolume 1).fuelBound ≤ 4 by decide) (show Printable [65] by decide) false
  obtain rfl : FileOp.after 4 0 [65] (.create false) (blankVolume 1) = v := by
    simp only [FileOp.after, FileOp.run, hrun, Option.map_some, Option.getD_some]
  have hwf := wellFormed_iff_inv.mpr ⟨heff.inv, hsized (wellFormed_iff_inv.mp hblank).2⟩
  have hstat := fat16Stat_eq_lookup hwf.inv reachDir_root (show _ ≤ 4 by decide)
    (show nameTo83 [65] = some (name83 [65] []) by decide)
  rw [show (FileOp.after 4 0 [65] (.create false) (blankVolume 1)).lookup 0 (name83 [65] []) =
    some ⟨3, 0⟩ by decide, Option.map_some] at hstat
  have hrun' : FileOp.run 4 0 [66] (.create false)
      (FileOp.after 4 0 [65] (.create false) (blankVolume 1)) = some (true, _) :=
    FileOp.run_eq_after (by decide)
  have happ : (FileOp.create false).Applies
      (FileOp.after 4 0 [65] (.create false) (blankVolume 1)) 0 [66] := trivial
  exact ⟨_, _, _, hrun', hstat, (fileOp_isolated hwf reachDir_root (by decide)
    (by decide) (by decide) happ hrun' reachDir_root (.inr (by decide)) hstat).1⟩

end AuroraOS.Fat16
