import AuroraOS.Fat16.Mount
import AuroraOS.Fat16.Runs

/-!
# What was written can be read

After a successful `fat16_write_file` the name denotes a file with the bytes written. It stays so
under successful operations on other names and when the volume is mounted again.

## Main definitions

- `HoldsFile` — a name of a directory denotes a file with the given bytes
- `LaterRun` — successful operations on other names, and mounting again

## Main results

- `writeFile_holdsFile`, `LaterRun.holdsFile`
-/

namespace AuroraOS.Fat16

set_option maxRecDepth 4096

variable {v v' v₁ : Volume} {d fuel : ℕ} {name data : List UInt8} {t : Vector UInt8 11} {p : Slot}

/-- `fat16_stat` finds a file under the name `t` of directory `d`, and `fat16_read_file` delivers
    the bytes `data` of it. -/
structure HoldsFile (v : Volume) (d : ℕ) (t : Vector UInt8 11) (data : List UInt8) (p : Slot) :
    Prop where
  reach : ReachDir v none d
  lookup : v.lookup d t = some p
  file : (v.dirent p).isDir = false
  size : (v.dirent p).fileSize.toNat = data.length
  read : ∀ offset maxLen, (fat16ReadFile (v.dirent p).firstCluster (v.dirent p).fileSize.toNat
    offset maxLen v).1 = (data.drop offset).take maxLen

theorem Dirent.answersTo_of_name {e : Dirent} (hnorm : nameTo83 (nameFrom83 t) = some t)
    (huse : e.inUse = true) (hname : e.name = t) : e.answersTo t = true := by
  rw [answersTo, huse, hname, hnorm]
  simp

/-- `fat16_stat` finds the entry written, unless it found another one before that only looks like
    the name. -/
theorem Wrote.lookup_eq (hw : Wrote v d t data v' v₁ p) (hd : ReachDir v none d)
    (ht : nameTo83 name = some t) (hblank : 32 ∉ name)
    (hfound : ∀ q, v.lookup d t = some q → (v.dirent q).name = t) :
    v'.lookup d t = some p := by
  have hnorm := nameTo83_nameFrom83 ht hblank
  have hans : (v'.dirent p).answersTo t = true :=
    Dirent.answersTo_of_name hnorm hw.stored.entry.live.2 hw.stored.name
  have hgrown : v₁.lookup d t = v.lookup d t := hw.grown.lookup_eq hd
  have hd₁ := hw.grown.reachDir_iff.mp hd
  -- what is found in the grown directory has the name itself
  have hfound₁ : ∀ q, v₁.lookup d t = some q → Entry v₁ none d q ∧ (v₁.dirent q).name = t := by
    intro q hq
    obtain ⟨he, -⟩ := entry_of_lookup hd₁ hq
    refine ⟨he, ?_⟩
    rw [hw.grown.dirent_of_entry (hw.grown.entry_iff.mpr he)]
    exact hfound q (hgrown ▸ hq)
  obtain ⟨he, hname⟩ | ⟨hunused, hnone⟩ := hw.old
  · -- the slot of the name is written
    have hans₁ : (v₁.dirent p).answersTo t = true :=
      Dirent.answersTo_of_name hnorm he.live.2 hname
    rw [hw.kept.lookup_eq_of_hole hw.reach fun _ => hans.trans hans₁.symm]
    have hsome : (v₁.lookup d t).isSome = true := by
      rw [Volume.lookup, List.find?_isSome]
      exact ⟨p, he.live.1, hans₁⟩
    obtain ⟨q, hq⟩ := Option.isSome_iff_exists.mp hsome
    obtain ⟨heq, hqname⟩ := hfound₁ q hq
    rw [hq, hw.inv.names d q p heq he (hqname.trans hname.symm)]
  · -- the slot was free, and nothing answered
    have hsilent : ∀ q ∈ dirSlots v₁ d, (v₁.dirent q).answersTo t = false := by
      have hlookup : v₁.lookup d t = none := by
        by_contra hne
        obtain ⟨q, hq⟩ := Option.ne_none_iff_exists'.mp hne
        obtain ⟨he, hqname⟩ := hfound₁ q hq
        exact hnone q he hqname
      intro q hq
      rw [Volume.lookup, List.find?_eq_none] at hlookup
      simpa using hlookup q hq
    have hsome : (v'.lookup d t).isSome = true := by
      rw [Volume.lookup, List.find?_isSome]
      exact ⟨p, hw.stored.entry.live.1, hans⟩
    obtain ⟨q, hq⟩ := Option.isSome_iff_exists.mp hsome
    have hmem := List.mem_of_find?_eq_some hq
    have hqans := List.find?_some hq
    obtain ⟨ext, hslots, hext⟩ := hw.kept.slots d hw.reach
    rw [hslots] at hmem
    by_cases hqp : q = p
    · rw [hq, hqp]
    · obtain hmem | hmem := List.mem_append.mp hmem
      · rw [hw.kept.dirent d hw.reach q hmem fun heq => hqp (Option.some.inj heq).symm,
          hsilent q hmem] at hqans
        exact absurd hqans (by simp)
      · rw [Dirent.answersTo_of_isEnd (hext q hmem).1] at hqans
        exact absurd hqans (by simp)

/-- The file written can be read. -/
theorem Stored.read_eq (hst : Stored v d p t data) (h : Inv v none [])
    (hlen : data.length + v.clusterSize ≤ 2 ^ 32) :
    (v.dirent p).fileSize.toNat = data.length ∧
      ∀ offset maxLen, (fat16ReadFile (v.dirent p).firstCluster (v.dirent p).fileSize.toNat offset
        maxLen v).1 = (data.drop offset).take maxLen := by
  have hpos := h.sound.clusterSize_pos
  have hsize : (v.dirent p).fileSize.toNat = data.length := by
    rw [hst.size, UInt32.toNat_ofNat', Nat.mod_eq_of_lt (by omega)]
  have hbytes := hst.bytes hlen
  refine ⟨hsize, fun offset maxLen => ?_⟩
  rw [hsize]
  obtain ⟨hnil, h0⟩ | hch := h.chain_cases hst.entry
  · -- no clusters, no bytes
    rw [hnil] at hbytes
    obtain rfl := List.prefix_nil.mp hbytes
    rw [h0, fat16ReadFile_none, List.drop_nil, List.take_nil]
  · have hle := hbytes.length_le
    rw [length_chainBytes] at hle
    rw [fat16ReadFile_eq h.sound hch hle, ← List.prefix_iff_eq_take.mp hbytes]

/-- A successful write of a file that fits the 32-bit arithmetic of the driver. -/
theorem writeFile_holdsFile (h : Inv v none []) (hd : ReachDir v none d)
    (hfuel : v.fuelBound ≤ fuel) (hp : Printable name) (hblank : 32 ∉ name)
    (ht : nameTo83 name = some t) (hlen : data.length + v.clusterSize ≤ 2 ^ 32)
    (hfound : ∀ q, v.lookup d t = some q → (v.dirent q).name = t ∧ (v.dirent q).isDir = false)
    (hrun : fat16WriteFile fuel d name data v = some (true, v')) :
    Inv v' none [] ∧ v.SameGeometry v' ∧ ∃ p, HoldsFile v' d t data p := by
  have hnorm := nameTo83_nameFrom83 ht hblank
  -- the name denotes what `fat16_stat` finds
  have happ : (FileOp.write data).Applies v d name := by
    intro q he hname
    rw [ht] at hname
    have hans : (v.dirent q).answersTo t = true :=
      Dirent.answersTo_of_name hnorm he.live.2 (Option.some.inj hname).symm
    have hsome : (v.lookup d t).isSome = true := by
      rw [Volume.lookup, List.find?_isSome]
      exact ⟨q, he.live.1, hans⟩
    obtain ⟨q', hq'⟩ := Option.isSome_iff_exists.mp hsome
    obtain ⟨hname', hfile⟩ := hfound q' hq'
    obtain ⟨he', -⟩ := entry_of_lookup hd hq'
    rwa [h.names d q q' he he' ((Option.some.inj hname).symm.trans hname'.symm)]
  obtain ⟨heff, hwrote⟩ := fat16WriteFile_of_success h hd hfuel hp happ hrun
  obtain ⟨v₁, p, hw⟩ := hwrote t ht
  have hcs := heff.geometry.clusterSize
  obtain ⟨hsize, hread⟩ := hw.stored.read_eq heff.inv (by rwa [hcs])
  exact ⟨heff.inv, heff.geometry, p, hw.stored.entry.reach,
    hw.lookup_eq hd ht hblank fun q hq => (hfound q hq).1, hw.stored.file, hsize, hread⟩

/-- An operation on another name. -/
theorem HoldsFile.op (hf : HoldsFile v d t data p) (h : Inv v none []) {d₀ : ℕ}
    (heff : Effect v d₀ name v') (hblank : 32 ∉ name) (hother : d ≠ d₀ ∨ nameTo83 name ≠ some t) :
    HoldsFile v' d t data p := by
  obtain ⟨he, hans⟩ := entry_of_lookup hf.reach hf.lookup
  have hu := heff.untouched hblank he hans hother
  have hlookup := hu.lookup.trans hf.lookup
  obtain ⟨he', -⟩ := entry_of_lookup hu.reach hlookup
  refine ⟨hu.reach, hlookup, by rw [hu.dirent]; exact hf.file, by rw [hu.dirent]; exact hf.size,
    fun offset maxLen => ?_⟩
  rw [hu.dirent, hu.read_eq h heff.inv heff.geometry he he'
    (fun hdir => absurd hdir (by simp [hf.file])) offset maxLen]
  exact hf.read offset maxLen

/-- The hint of the free-cluster search is no part of what the volume holds. -/
theorem withHint_quiet (v : Volume) (hint : ℕ) : Quiet none v (v.withHint hint) :=
  ⟨fun _ => ⟨withHint_sameGeometry v hint, fun _ _ => ⟨[], (List.append_nil _).symm, by simp⟩,
      fun _ _ _ _ _ => rfl, fun _ _ _ _ => rfl, fun _ _ _ _ _ _ _ _ => rfl⟩,
    fun _ _ => rfl, fun _ _ _ _ => rfl⟩

theorem Inv.withHint (h : Inv v none []) {hint : ℕ} (hlo : 2 ≤ hint)
    (hhi : hint ≤ v.totalClusters + 2) : Inv (v.withHint hint) none [] := by
  have hentry : ∀ {d p}, Entry (v.withHint hint) none d p → Entry v none d p :=
    fun he => (withHint_quiet v hint).entry_iff.mpr he
  refine ⟨⟨h.sound.mounted, h.sound.reliable, h.sound.spc_pos, h.sound.numFats_pos,
      h.sound.root_start, h.sound.data_start, h.sound.covered, h.sound.clusters, hlo, hhi⟩,
    h.agree, fun d p he => h.plain d p (hentry he), fun d p he => h.chained d p (hentry he),
    fun d p d' q he he' => h.disjoint d p d' q (hentry he) (hentry he'), fun c hc => ?_,
    fun d p q he he' => h.names d p q (hentry he) (hentry he'),
    fun d hd => h.ends d ((withHint_quiet v hint).reachDir_iff.mpr hd), .inl rfl,
    fun d p he => h.float_disjoint d p (hentry he)⟩
  refine (h.used c hc).trans (or_congr_right ?_)
  constructor
  · rintro ⟨d, p, he, hmem⟩
    exact ⟨d, p, (withHint_quiet v hint).entry_iff.mp he, hmem⟩
  · rintro ⟨d, p, he, hmem⟩
    exact ⟨d, p, hentry he, hmem⟩

/-- Mounting again. -/
theorem HoldsFile.mount (hf : HoldsFile v d t data p) (h : Inv v none [])
    (hm : Mounted v) {b : Bool}
    (hrun : fat16Mount v = (b, v')) :
    b = true ∧ Inv v' none [] ∧ Mounted v' ∧ v.SameGeometry v' ∧ HoldsFile v' d t data p := by
  obtain ⟨rfl, hv'⟩ := Prod.mk.inj (hrun.symm.trans hm.mount_eq)
  replace hv' : v' = v.withHint 2 := hv'
  subst hv'
  have hq := withHint_quiet v 2
  have h' : Inv (v.withHint 2) none [] := h.withHint (le_refl 2) (Nat.le_add_left _ _)
  obtain ⟨he, -⟩ := entry_of_lookup hf.reach hf.lookup
  have hu : Untouched v (v.withHint 2) d t p d := (hq.keeps d).untouched he
  refine ⟨rfl, h', hm.congr h.sound.reliable h'.sound.reliable (.of_fields rfl hq.geometry),
    hq.geometry, hu.reach, hu.lookup.trans hf.lookup, hf.file, hf.size, fun offset maxLen => ?_⟩
  rw [← hf.read offset maxLen, hu.dirent]
  exact hu.read_eq h h' hq.geometry he (hq.entry_iff.mp he)
    (fun hdir => absurd hdir (by simp [hf.file])) offset maxLen

/-- `v'` is reached from `v` by mounting and by successful operations that leave the name `t` of
    directory `d` alone, write no directory and delete no directory with entries. -/
inductive LaterRun (fuel d : ℕ) (t : Vector UInt8 11) (v : Volume) : Volume → Prop
  | refl : LaterRun fuel d t v v
  | op {v₁ v₂ : Volume} {d₀ : ℕ} {name : List UInt8} {op : FileOp} : LaterRun fuel d t v v₁ →
      ReachDir v₁ none d₀ → Printable name → 32 ∉ name → (d ≠ d₀ ∨ nameTo83 name ≠ some t) →
      op.Applies v₁ d₀ name → op.run fuel d₀ name v₁ = some (true, v₂) → LaterRun fuel d t v v₂
  | mount {v₁ v₂ : Volume} {b : Bool} : LaterRun fuel d t v v₁ → fat16Mount v₁ = (b, v₂) →
      LaterRun fuel d t v v₂

/-- Such a run keeps the file. -/
theorem LaterRun.holdsFile (hrun : LaterRun fuel d t v v') (h : Inv v none []) (hm : Mounted v)
    (hfuel : v.fuelBound ≤ fuel) (hf : HoldsFile v d t data p) :
    Inv v' none [] ∧ Mounted v' ∧ v'.fuelBound ≤ fuel ∧ HoldsFile v' d t data p := by
  induction hrun with
  | refl => exact ⟨h, hm, hfuel, hf⟩
  | op _ hd hp hblank hother happ hop ih =>
    obtain ⟨h₁, hm₁, hfuel₁, hf₁⟩ := ih
    have heff := FileOp.effect_of_success h₁ hd hfuel₁ hp happ hop
    have hkept := FileOp.run_bootKept h₁.sound.ordered hop
    exact ⟨heff.inv, hm₁.congr h₁.sound.reliable heff.inv.sound.reliable hkept,
      by rwa [heff.geometry.fuelBound], hf₁.op h₁ heff hblank hother⟩
  | mount _ hmount ih =>
    obtain ⟨h₁, hm₁, hfuel₁, hf₁⟩ := ih
    obtain ⟨-, h₂, hm₂, hg, hf₂⟩ := hf₁.mount h₁ hm₁ hmount
    exact ⟨h₂, hm₂, by rwa [hg.fuelBound], hf₂⟩

/-- Slot `q` of directory `d` is a file with the bytes `data`. -/
structure FileAt (v : Volume) (d : ℕ) (q : Slot) (data : List UInt8) : Prop where
  entry : Entry v none d q
  file : (v.dirent q).isDir = false
  size : (v.dirent q).fileSize.toNat = data.length
  read : ∀ offset maxLen, (fat16ReadFile (v.dirent q).firstCluster (v.dirent q).fileSize.toNat
    offset maxLen v).1 = (data.drop offset).take maxLen

section FileAt

theorem HoldsFile.fileAt (h : HoldsFile v d t data p) : FileAt v d p data :=
  ⟨(entry_of_lookup h.reach h.lookup).1, h.file, h.size, h.read⟩

variable {q : Slot} {data' : List UInt8}

theorem FileAt.unique (h : FileAt v d q data) (h' : FileAt v d q data') : data = data' := by
  have hlen : data.length = data'.length := h.size.symm.trans h'.size
  have hread := (h.read 0 data.length).symm.trans (h'.read 0 data.length)
  rwa [List.drop_zero, List.drop_zero, List.take_length, hlen, List.take_length] at hread

/-- Reading an entry does not change the volume. -/
theorem Inv.readFile_volume (h : Inv v none []) (he : Entry v none d q) (size offset maxLen : ℕ) :
    (fat16ReadFile (v.dirent q).firstCluster size offset maxLen v).2 = v := by
  obtain ⟨-, h0⟩ | hch := h.chain_cases he
  · rw [h0, fat16ReadFile_none]
  · obtain ⟨bytes, hread, -⟩ := fat16ReadFile_congr h.sound h.sound (.refl v) hch hch
      (fun _ _ _ _ => rfl) size offset maxLen
    rw [hread]

/-- The slot written is the one with the name, if there is one. -/
theorem Wrote.slot_eq (hw : Wrote v d t data v' v₁ p) (he : Entry v none d q)
    (hname : (v.dirent q).name = t) : p = q := by
  have he₁ := hw.grown.entry_iff.mp he
  have hname₁ : (v₁.dirent q).name = t := by rw [hw.grown.dirent_of_entry he, hname]
  obtain ⟨hp, hpname⟩ | ⟨-, hnone⟩ := hw.old
  · exact hw.inv.names d p q hp he₁ (hpname.trans hname₁.symm)
  · exact absurd hname₁ (hnone q he₁)

theorem Wrote.fileAt (hw : Wrote v d t data v' v₁ p) (h : Inv v' none [])
    (hlen : data.length + v'.clusterSize ≤ 2 ^ 32) : FileAt v' d p data := by
  obtain ⟨hsize, hread⟩ := hw.stored.read_eq h hlen
  exact ⟨hw.stored.entry, hw.stored.file, hsize, hread⟩

/-- An operation on a name leaves a file alone that is stored under another one. -/
theorem FileAt.effect (hf : FileAt v d q data) (h : Inv v none []) {d₀ : ℕ}
    (heff : Effect v d₀ name v') (hname : nameTo83 name ≠ some (v.dirent q).name) :
    FileAt v' d q data := by
  have hout : (v.dirent q).Outside d₀ := fun hdir => absurd hdir (by simp [hf.file])
  obtain ⟨he', hdirent, hchain, hdata⟩ : Entry v' none d q ∧ v'.dirent q = v.dirent q ∧
      v'.chainOf q = v.chainOf q ∧
      ∀ c ∈ v.chainOf q, ∀ lba ∈ clusterSectors v c, v'.disk lba = v.disk lba := by
    cases heff with
    | grown _ hk =>
      exact ⟨hk.entry_iff.mp hf.entry, hk.dirent_of_entry hf.entry, hk.chain d q hf.entry hout,
        hk.data d q hf.entry hout⟩
    | @worked t v₁ p ht _ hk₁ hd₁ hp hold hk₂ _ _ =>
      have hqp : q ≠ p := by
        rintro rfl
        have he₁ := hk₁.entry_iff.mp hf.entry
        rw [ht, ← hk₁.dirent_of_entry hf.entry, (hold he₁.live.2).1] at hname
        exact hname rfl
      obtain ⟨hq₂, hdirent, hchain, hdata⟩ := hk₁.kept_of_ne hd₁ hp hold hk₂ hf.entry hqp
      have hq' := hk₂.entry_iff.mp hq₂
      exact ⟨⟨hq'.reach.mono fun _ _ _ hl => ⟨⟨hl.1, by simp⟩, rfl⟩, hq'.live, by simp⟩, hdirent,
        hchain hout, hdata hout⟩
  refine ⟨he', by rw [hdirent]; exact hf.file, by rw [hdirent]; exact hf.size,
    fun offset maxLen => ?_⟩
  rw [hdirent, read_eq_of_kept h heff.inv heff.geometry hf.entry he' hdirent hchain hdata]
  exact hf.read offset maxLen

end FileAt

/-- A stored name without blanks inside its base or its extension. -/
def SpaceFree (n : Vector UInt8 11) : Prop :=
  ∃ base ext : List UInt8, 32 ∉ base ∧ 32 ∉ ext ∧ n = padTo 8 base ++ padTo 3 ext

/-- `fat16_stat` finds the file with the bytes `data`, and `fat16_read_file` delivers them. -/
def ReadsBack (fuel d : ℕ) (name data : List UInt8) (v : Volume) : Prop :=
  ∃ e, fat16Stat fuel d name v = some (some e, v) ∧ e.isDir = false ∧ e.size = data.length ∧
    ∀ offset maxLen, (fat16ReadFile e.firstCluster e.size offset maxLen v).1 =
      (data.drop offset).take maxLen

theorem HoldsFile.readsBack (hf : HoldsFile v d t data p) (h : Inv v none [])
    (hfuel : v.fuelBound ≤ fuel) (ht : nameTo83 name = some t) : ReadsBack fuel d name data v := by
  refine ⟨(v.dirent p).toEntry, ?_, hf.file, hf.size, hf.read⟩
  rw [fat16Stat_eq_lookup h hf.reach hfuel ht, hf.lookup]
  rfl

theorem Inv.readsBack (h : Inv v none []) (hd : ReachDir v none d) (hfuel : v.fuelBound ≤ fuel)
    (hp : Printable name) (hblank : 32 ∉ name) (hlen : data.length + v.clusterSize ≤ 2 ^ 32)
    (hfile : ∀ e w, fat16Stat fuel d name v = some (some e, w) → e.isDir = false)
    (hown : ∀ t q, nameTo83 name = some t → v.lookup d t = some q → (v.dirent q).name = t)
    (hrun : fat16WriteFile fuel d name data v = some (true, v')) :
    ReadsBack fuel d name data v' := by
  have hm : v.mounted = true := h.sound.mounted
  cases ht : nameTo83 name with
  | none => simp [fat16WriteFile, hm, findOrAllocSlot, ht] at hrun
  | some t =>
    have hstat := fat16Stat_eq_lookup h hd hfuel ht
    obtain ⟨hinv, hg, p, hf⟩ := writeFile_holdsFile h hd hfuel hp hblank ht hlen
      (fun q hq => ⟨hown t q ht hq, by
        rw [hq, Option.map_some] at hstat
        exact hfile _ _ hstat⟩) hrun
    exact hf.readsBack hinv (by rwa [hg.fuelBound]) ht

/-- What a successful write has written is what the name denotes, unless `fat16_stat` found an
entry under the name that is stored under another one. -/
theorem writeFile_readsBack (h : WellFormed v) (hd : ReachDir v none d)
    (hfuel : v.fuelBound ≤ fuel) (hp : Printable name) (hblank : 32 ∉ name)
    (hlen : data.length + v.clusterSize ≤ 2 ^ 32)
    (hfile : ∀ e w, fat16Stat fuel d name v = some (some e, w) → e.isDir = false)
    (hown : ∀ t q, nameTo83 name = some t → v.lookup d t = some q → (v.dirent q).name = t)
    (hrun : fat16WriteFile fuel d name data v = some (true, v')) :
    ReadsBack fuel d name data v' :=
  h.inv.readsBack hd hfuel hp hblank hlen hfile hown hrun

theorem writeFile_readsBack_blank :
    ∃ v', fat16WriteFile 4 0 [65] [1, 2] (blankVolume 1) = some (true, v') ∧
      ReadsBack 4 0 [65] [1, 2] v' := by
  have hrun : FileOp.run 4 0 [65] (.write [1, 2]) (blankVolume 1) = some (true, _) :=
    FileOp.run_eq_after (by decide)
  have hnone : (blankVolume 1).lookup 0 (name83 [65] []) = none := by decide
  have hwf : WellFormed (blankVolume 1) := blankVolume_wellFormed (by decide)
  have ht : nameTo83 [65] = some (name83 [65] []) := by decide
  refine ⟨_, hrun, writeFile_readsBack hwf reachDir_root (by decide) (by decide)
    (by decide) (by decide) (fun e w h => ?_) (fun t q h hq => ?_) hrun⟩
  · rw [fat16Stat_eq_lookup hwf.inv reachDir_root (by decide) ht, hnone] at h
    simp at h
  · obtain rfl := Option.some.inj (ht.symm.trans h)
    rw [hnone] at hq
    exact absurd hq (by simp)

/-- A file written to a blank volume. -/
theorem write_blank_holdsFile {v' : Volume}
    (hlen : data.length + (blankVolume 1).clusterSize ≤ 2 ^ 32)
    (hrun : (FileOp.write data).run 4 0 [65] (blankVolume 1) = some (true, v')) :
    WellFormed v' ∧ (blankVolume 1).SameGeometry v' ∧
      ∃ p, HoldsFile v' 0 (name83 [65] []) data p := by
  have hwf : WellFormed (blankVolume 1) := blankVolume_wellFormed (by decide)
  have hunused : ∀ p ∈ dirSlots (blankVolume 1) 0, ((blankVolume 1).dirent p).inUse = false := by
    decide
  have hno : ∀ p, ¬ Entry (blankVolume 1) none 0 p := fun p hp => by
    have huse := hp.live.2
    rw [hunused p hp.live.1] at huse
    exact absurd huse (by simp)
  have hharmless : (FileOp.write data).Harmless (blankVolume 1) 0 [65] :=
    ⟨hlen, fun p hp => absurd hp (hno p)⟩
  have hfuel : (blankVolume 1).fuelBound ≤ 4 := by decide
  have hp : Printable [65] := by decide
  have ht : nameTo83 [65] = some (name83 [65] []) := by decide
  obtain ⟨b, v'', hrun', hwf', -⟩ := FileOp.harmless_step hwf reachDir_root hfuel hp hharmless
  obtain ⟨rfl, rfl⟩ := Prod.mk.inj (Option.some.inj (hrun.symm.trans hrun'))
  obtain ⟨-, hg, hf⟩ := writeFile_holdsFile hwf.inv reachDir_root hfuel hp (by decide) ht hlen
    (fun q hq => absurd (entry_of_lookup reachDir_root hq).1 (hno q)) hrun
  exact ⟨hwf', hg, hf⟩

/-- A root directory with a file of size 0 that another system has stored under the name `a`. -/
def lowerCaseVolume : Volume :=
  (blankVolume 1).setDirent ⟨3, 0⟩ (Dirent.fresh (padTo 8 [97] ++ padTo 3 []) attrArchive)

theorem lowerCaseVolume_wellFormed : WellFormed lowerCaseVolume ∧
    ∀ d p, Entry lowerCaseVolume none d p → SpaceFree (lowerCaseVolume.dirent p).name := by
  have hblank : WellFormed (blankVolume 1) := blankVolume_wellFormed (by decide)
  have hno : ∀ d q, ¬ Entry (blankVolume 1) none d q :=
    not_entry_of_empty fun p _ => read_zero_isEnd _
  have ho : Opened (blankVolume 1) 0 (padTo 8 [97] ++ padTo 3 []) ⟨3, 0⟩ [] :=
    .of_free hblank.inv reachDir_root (by decide) (show _ = [] ++ _ :: _ from rfl) (by simp)
      fun q hq => absurd hq (hno 0 q)
  obtain ⟨hinv, hk, hiff, hpe, hpc⟩ := ho.write
    (e := Dirent.fresh (padTo 8 [97] ++ padTo 3 []) attrArchive) rfl (by decide)
    (by decide) (.inl ⟨rfl, by decide, rfl⟩) (by simp)
  refine ⟨wellFormed_iff_inv.mpr ⟨hinv, .of_write hk
    ((wellFormed_iff_inv.mp hblank).2.open_slot _) hiff hpe hpc fun _ => by decide⟩, ?_⟩
  intro d q hq
  obtain hq | ⟨rfl, -⟩ := (hiff d q).mp hq
  · exact absurd ((entry_some_iff_of_not_inUse (by decide)).mp hq) (hno d q)
  · exact ⟨[97], [], by decide, by decide, congrArg Dirent.name hpe⟩

/-- The file `A` is written behind the file `a`, and `fat16_stat` finds the first one. -/
theorem write_behind_lowerCase :
    ¬ ∀ (v v' : Volume) (d fuel : ℕ) (name data : List UInt8), WellFormed v →
      (∀ d p, Entry v none d p → SpaceFree (v.dirent p).name) → ReachDir v none d →
      v.fuelBound ≤ fuel → Printable name → 32 ∉ name → data.length + v.clusterSize ≤ 2 ^ 32 →
      (∀ e w, fat16Stat fuel d name v = some (some e, w) → e.isDir = false) →
      fat16WriteFile fuel d name data v = some (true, v') → ReadsBack fuel d name data v' := by
  intro hall
  have hrun : FileOp.run 4 0 [65] (.write [1]) lowerCaseVolume = some (true, _) :=
    FileOp.run_eq_after (by decide)
  obtain ⟨hwf, hspace⟩ := lowerCaseVolume_wellFormed
  obtain ⟨e, hstat, -, hsize, -⟩ := hall _ _ 0 4 [65] [1] hwf hspace reachDir_root
    (by decide) (by decide) (by decide) (by decide) (fun e w h => by
      have hfile : (fat16Stat 4 0 [65] lowerCaseVolume).map (fun r => r.1.map (·.isDir)) =
          some (some false) := by decide
      rw [h] at hfile
      simpa using hfile) hrun
  have hzero : (fat16Stat 4 0 [65] (FileOp.after 4 0 [65] (.write [1]) lowerCaseVolume)).map
      (fun r => r.1.map (·.size)) = some (some 0) := by decide
  rw [hstat] at hzero
  simp [hsize] at hzero

end AuroraOS.Fat16
