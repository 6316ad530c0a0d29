import AuroraOS.Fat16.Isolation

/-!
# Whole runs

The invariant over every sequence of operations, and the one place where the driver breaks it
by itself: `fat16_write_file` frees the old chain of a file before it knows whether the new
data fits, so a write that runs out of space leaves an entry that points at free clusters.

## Main results

- `run_wellFormed` — a run of harmless calls keeps the volume well-formed
- `failed_write_preserves_iff` — when a failed write loses nothing
-/

namespace AuroraOS.Fat16

set_option maxRecDepth 4096

variable {v v' : Volume} {d fuel : ℕ} {name : List UInt8} {p : Slot}

/-- A call after which the invariant holds again. Creating is always harmless. Deleting is
    unless the name denotes a directory with entries. Writing is when the number of clusters
    does not wrap around and the name denotes nothing, a file without clusters, or a file whose
    clusters together with the free ones are enough for the data. -/
def FileOp.Harmless (v : Volume) (d : ℕ) (name : List UInt8) : FileOp → Prop
  | .create _ => True
  | .delete => ∀ p, Entry v none d p → nameTo83 name = some (v.dirent p).name → LeafSlot v p
  | .write data => data.length + v.clusterSize ≤ 2 ^ 32 ∧
      ∀ p, Entry v none d p → nameTo83 name = some (v.dirent p).name →
        (v.dirent p).isDir = false ∧ ((v.dirent p).firstCluster = 0 ∨
          clustersNeeded v.clusterSize data.length ≤ v.freeClusters.card + (v.chainOf p).length)

/-- One harmless call returns and keeps the volume well-formed. -/
theorem FileOp.harmless_step (h : WellFormed v) (hd : ReachDir v none d)
    (hfuel : v.fuelBound ≤ fuel) (hp : Printable name) {op : FileOp}
    (hop : op.Harmless v d name) :
    ∃ b v', op.run fuel d name v = some (b, v') ∧ WellFormed v' ∧ v.SameGeometry v' := by
  obtain ⟨hinv, hsized⟩ := wellFormed_iff_inv.mp h
  obtain ⟨b, v', hrun, heff, hsized'⟩ : ∃ b v', op.run fuel d name v = some (b, v') ∧
      Effect v d name v' ∧ Sized v' none := by
    cases op with
    | create asDirectory =>
      obtain ⟨b, v', hrun, heff, hs⟩ := fat16Create_spec hinv hd hfuel hp asDirectory
      exact ⟨b, v', hrun, heff, hs hsized⟩
    | delete =>
      obtain ⟨b, v', hrun, heff, hs⟩ := fat16Delete_spec hinv hd hfuel hop
      exact ⟨b, v', hrun, heff, hs hsized⟩
    | write data =>
      obtain ⟨b, v', hrun, heff, hs, -⟩ := fat16WriteFile_spec hinv hd hfuel hp data hop.2
      exact ⟨b, v', hrun, heff, hs hop.1 hsized⟩
  exact ⟨b, v', hrun, wellFormed_iff_inv.mpr ⟨heff.inv, hsized'⟩, heff.geometry⟩

theorem FileOp.after_wellFormed (h : WellFormed v) (hd : ReachDir v none d)
    (hfuel : v.fuelBound ≤ fuel) (hp : Printable name) {op : FileOp}
    (hop : op.Harmless v d name) : WellFormed (op.after fuel d name v) := by
  obtain ⟨b, v', hrun, hwf, _⟩ := FileOp.harmless_step h hd hfuel hp hop
  rwa [FileOp.after, hrun, Option.map_some, Option.getD_some]

/-- `v'` is reached from `v` by harmless calls on reachable directories. -/
inductive Run (fuel : ℕ) (v : Volume) : Volume → Prop
  | refl : Run fuel v v
  | step {v₁ v₂ : Volume} {d : ℕ} {name : List UInt8} {op : FileOp} {b : Bool} :
      Run fuel v v₁ → ReachDir v₁ none d → Printable name → op.Harmless v₁ d name →
      op.run fuel d name v₁ = some (b, v₂) → Run fuel v v₂

/-- In a run of harmless calls every state is well-formed, and the next call returns. -/
theorem run_wellFormed (h : WellFormed v) (hfuel : v.fuelBound ≤ fuel) (hrun : Run fuel v v') :
    WellFormed v' ∧ 2 ≤ v'.nextFreeClusterHint ∧
      v'.nextFreeClusterHint ≤ v'.totalClusters + 2 ∧
      ∀ d name op, ReachDir v' none d → Printable name → FileOp.Harmless v' d name op →
        ∃ b v'', op.run fuel d name v' = some (b, v'') := by
  have hstep : WellFormed v' ∧ v.SameGeometry v' := by
    induction hrun with
    | refl => exact ⟨h, .refl v⟩
    | step _ hd hp hop heq ih =>
      obtain ⟨hwf, hg⟩ := ih
      obtain ⟨b, v₂, heq', hwf₂, hg₂⟩ :=
        FileOp.harmless_step hwf hd (hg.fuelBound ▸ hfuel) hp hop
      rw [heq] at heq'
      obtain rfl := (Prod.mk.inj (Option.some.inj heq')).2
      exact ⟨hwf₂, hg.trans hg₂⟩
  obtain ⟨hwf, hg⟩ := hstep
  refine ⟨hwf, hwf.sound.hint_lo, hwf.sound.hint_hi, fun d name op hd hp hop => ?_⟩
  obtain ⟨b, v'', heq, _⟩ := FileOp.harmless_step hwf hd (hg.fuelBound ▸ hfuel) hp hop
  exact ⟨b, v'', heq⟩

/-- A run of one call on a blank volume. -/
theorem run_wellFormed_create :
    Run 4 (blankVolume 1) (FileOp.after 4 0 [65] (.create false) (blankVolume 1)) ∧
      WellFormed (FileOp.after 4 0 [65] (.create false) (blankVolume 1)) := by
  have hop : (FileOp.create false).Harmless (blankVolume 1) 0 [65] := trivial
  have hrun : Run 4 (blankVolume 1) (FileOp.after 4 0 [65] (.create false) (blankVolume 1)) :=
    .step .refl reachDir_root (by decide) hop
      (FileOp.run_eq_after (show _ = some true by decide))
  exact ⟨hrun, (run_wellFormed (blankVolume_wellFormed (by decide)) (by decide) hrun).1⟩

/-- An entry with clusters whose chain was freed under it. -/
theorem not_wellFormed_of_freed (he : Entry v none d p) (hleaf : LeafSlot v p)
    (hne : (v.dirent p).firstCluster ≠ 0) (h' : Inv v' (some p) [])
    (hq : Quiet (some p) v v') : ¬ WellFormed v' := by
  intro hwf
  have hd := reachDir_some_of_live he.reach he.live hleaf
  have hsame := hq.dirent d hd p he.live.1
  have he' : Entry v' none d p := by
    refine ⟨(hq.reachDir_iff.mp hd).mono fun _ _ _ hl => ⟨⟨hl.1, by simp⟩, rfl⟩, ⟨?_, ?_⟩,
      by simp⟩
    · rw [hq.slots d hd]
      exact he.live.1
    · rw [hsame]
      exact he.live.2
  obtain ⟨_, h0⟩ | hch := hwf.inv.chain_cases he'
  · rw [hsame] at h0
    exact hne h0
  · -- its first cluster is in use, so another entry has it, too
    have hc := hch.head_mem
    have hin := hwf.inv.inRange_of_mem he' hc
    have hused := (h'.used _ hin).mp (hwf.inv.fat_ne_zero_of_mem he' hc)
    obtain hnil | ⟨d', q, hq', hmem⟩ := hused
    · exact absurd hnil List.not_mem_nil
    · have hqp : p ≠ q := fun heq => hq'.ne (by rw [heq])
      have hq'' : Entry v' none d' q :=
        ⟨hq'.reach.mono fun _ _ _ hl => ⟨⟨hl.1, by simp⟩, rfl⟩, hq'.live, by simp⟩
      exact hwf.disjoint d p d' q he' hq'' hqp hc hmem

/-- A volume whose only cluster belongs to the file `A`, which holds one byte. -/
def oneFileVolume : Volume := FileOp.after 4 0 [65] (.write [120]) (blankVolume 1)

theorem oneFileVolume_wellFormed : WellFormed oneFileVolume := by
  have hunused : ∀ p ∈ dirSlots (blankVolume 1) 0, ((blankVolume 1).dirent p).inUse = false := by
    decide
  have hop : (FileOp.write [120]).Harmless (blankVolume 1) 0 [65] := by
    refine ⟨by decide, fun p hp => ?_⟩
    have huse := hp.live.2
    rw [hunused p hp.live.1] at huse
    exact absurd huse (by simp)
  exact FileOp.after_wellFormed (blankVolume_wellFormed (by decide)) reachDir_root (by decide)
    (by decide) hop

theorem oneFileVolume_entry : Entry oneFileVolume none 0 ⟨3, 0⟩ :=
  entry_of_root (by decide) (by decide)

/-- Two clusters of data do not fit: the write fails and the entry of `A` is left with a free
    cluster. -/
theorem oneFileVolume_full_write :
    ∃ v', FileOp.run 4 0 [65] (.write (List.replicate 513 0)) oneFileVolume = some (false, v') ∧
      ¬ WellFormed v' := by
  obtain ⟨v', hrun, hinv, hq, _⟩ := (fat16WriteFile_of_file oneFileVolume_wellFormed.inv
    oneFileVolume_entry (show _ ≤ 4 by decide)
    (show nameTo83 [65] = some (oneFileVolume.dirent ⟨3, 0⟩).name by decide)
    (by decide) (List.replicate 513 0)).2 (by decide)
  exact ⟨v', hrun, not_wellFormed_of_freed oneFileVolume_entry
    (.of_file (by decide)) (by decide) hinv hq⟩

/-- From a well-formed volume the driver reaches one that is not. -/
theorem write_leaves_dangling_entry :
    WellFormed oneFileVolume ∧ ReachDir oneFileVolume none 0 ∧ Printable [65] ∧
      513 + oneFileVolume.clusterSize ≤ 2 ^ 32 ∧
      ∃ v', FileOp.run 4 0 [65] (.write (List.replicate 513 0)) oneFileVolume = some (false, v') ∧
        ¬ WellFormed v' :=
  ⟨oneFileVolume_wellFormed, reachDir_root, by decide, by decide,
    oneFileVolume_full_write⟩

/-- `fat16_stat` followed by `fat16_read_file` of what it found. -/
def statRead (fuel d : ℕ) (name : List UInt8) (offset maxLen : ℕ) (v : Volume) :
    Option (Option (List UInt8)) :=
  match fat16Stat fuel d name v with
  | none => none
  | some (none, _) => some none
  | some (some e, v) => some (some (fat16ReadFile e.firstCluster e.size offset maxLen v).1)

/-- Where nothing changed, every name reads as before. -/
theorem Quiet.statRead_eq (hq : Quiet none v v') (h : Inv v none []) (h' : Inv v' none [])
    (hd : ReachDir v none d) (hfuel : v.fuelBound ≤ fuel) (offset maxLen : ℕ) :
    statRead fuel d name offset maxLen v' = statRead fuel d name offset maxLen v := by
  cases ht : nameTo83 name with
  | none =>
    simp only [statRead, fat16Stat, if_pos h.sound.mounted, if_pos h'.sound.mounted, findInDir, ht]
  | some t =>
    have hd' := hq.reachDir_iff.mp hd
    have hfuel' : v'.fuelBound ≤ fuel := hq.geometry.fuelBound ▸ hfuel
    have hlook : v'.lookup d t = v.lookup d t := (hq.keeps 0).lookup_eq hd
    simp only [statRead, fat16Stat_eq_lookup h hd hfuel ht,
      fat16Stat_eq_lookup h' hd' hfuel' ht, hlook]
    cases hl : v.lookup d t with
    | none => rfl
    | some q =>
      obtain ⟨he, _⟩ := entry_of_lookup hd hl
      have hu : Untouched v v' d t q ((v.dirent q).firstCluster + 1) :=
        (hq.keeps _).untouched he
      have hread := hu.read_eq h h' hq.geometry he (hq.entry_iff.mp he) (fun _ => by omega)
        offset maxLen
      simp only [Option.map_some, Dirent.toEntry, hu.dirent, hread]

/-- A failed write loses nothing exactly when the file had no clusters, or there would have been
    enough room for the write to succeed. -/
theorem failed_write_preserves_iff (h : WellFormed v) (he : Entry v none d p)
    (hfile : (v.dirent p).isDir = false) (ht : nameTo83 name = some (v.dirent p).name)
    (hfuel : v.fuelBound ≤ fuel) (data : List UInt8) :
    (∀ v', fat16WriteFile fuel d name data v = some (false, v') → WellFormed v' ∧
      ∀ offset maxLen, statRead fuel d name offset maxLen v' =
        statRead fuel d name offset maxLen v) ↔
    ((v.dirent p).firstCluster = 0 ∨
      clustersNeeded v.clusterSize data.length ≤ v.freeClusters.card + (v.chainOf p).length) := by
  obtain ⟨hinv, hsized⟩ := wellFormed_iff_inv.mp h
  obtain ⟨hok, hfail⟩ := fat16WriteFile_of_file hinv he hfuel ht hfile data
  by_cases hle : clustersNeeded v.clusterSize data.length ≤
      v.freeClusters.card + (v.chainOf p).length
  · refine ⟨fun _ => .inr hle, fun _ v' hrun => ?_⟩
    obtain ⟨w, hrun', _⟩ := hok hle
    rw [hrun] at hrun'
    exact absurd (Prod.mk.inj (Option.some.inj hrun')).1 (by simp)
  · obtain ⟨w, hrun, hinv', hq, hsame⟩ := hfail (by omega)
    constructor
    · intro hprop
      by_contra hcond
      have hne : (v.dirent p).firstCluster ≠ 0 := fun h0 => hcond (.inl h0)
      exact not_wellFormed_of_freed he (.of_file hfile) hne hinv' hq (hprop w hrun).1
    · intro hcond v' hrun'
      rw [hrun] at hrun'
      obtain rfl := (Prod.mk.inj (Option.some.inj hrun')).2
      obtain ⟨hinv₀, hq₀⟩ := hsame (hcond.resolve_right hle)
      exact ⟨wellFormed_iff_inv.mpr ⟨hinv₀, (hq₀.keeps 0).sized hsized⟩,
        hq₀.statRead_eq hinv hinv₀ he.reach hfuel⟩

/-- The failed write has destroyed the old byte of `A`. -/
theorem failed_write_loses_contents :
    WellFormed oneFileVolume ∧ Entry oneFileVolume none 0 ⟨3, 0⟩ ∧
      (oneFileVolume.dirent ⟨3, 0⟩).isDir = false ∧
      nameTo83 [65] = some (oneFileVolume.dirent ⟨3, 0⟩).name ∧
      statRead 4 0 [65] 0 1 oneFileVolume = some (some [120]) ∧
      ∃ v', fat16WriteFile 4 0 [65] (List.replicate 513 0) oneFileVolume = some (false, v') ∧
        ¬ WellFormed v' ∧ statRead 4 0 [65] 0 1 v' = some (some [0]) := by
  obtain ⟨v', hrun, hnot⟩ := oneFileVolume_full_write
  refine ⟨oneFileVolume_wellFormed, oneFileVolume_entry, by decide, by decide,
    by decide, v', hrun, hnot, ?_⟩
  have hv : v' = FileOp.after 4 0 [65] (.write (List.replicate 513 0)) oneFileVolume := by
    rw [FileOp.after, hrun, Option.map_some, Option.getD_some]
  rw [hv]
  decide

/-- Data that fits into the file's own cluster. -/
theorem failed_write_preserves_one_cluster :
    (oneFileVolume.dirent ⟨3, 0⟩).firstCluster = 2 ∧
      ∀ v', fat16WriteFile 4 0 [65] [121] oneFileVolume = some (false, v') → WellFormed v' :=
  ⟨by decide, fun v' hrun =>
    ((failed_write_preserves_iff oneFileVolume_wellFormed oneFileVolume_entry (by decide)
      (show nameTo83 [65] = some (oneFileVolume.dirent ⟨3, 0⟩).name by decide)
      (by decide) [121]).mpr (.inr (by decide)) v' hrun).1⟩

end AuroraOS.Fat16
