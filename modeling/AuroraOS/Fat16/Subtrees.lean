import AuroraOS.Fat16.Runs

/-!
# Directories as operands

Neither `fat16_delete` nor `fat16_write_file` looks at the directory attribute of the entry it
finds. Called with the name of a directory they free the directory's own clusters and leave
everything below it behind: the entries are no longer reachable and their clusters stay taken.

## Main definitions

- `SubtreeKept` — what was below a directory is still there, and no cluster is lost

## Main results

- `subtree_lost` — both operations lose the subtree of every directory with entries
-/

namespace AuroraOS.Fat16

set_option maxRecDepth 4096

variable {v v' : Volume} {d fuel : ℕ} {name : List UInt8} {p : Slot}

/-- Every entry below directory `D` is still reachable with the same clusters and bytes, and
    every cluster that is taken belongs to an entry. -/
structure SubtreeKept (v : Volume) (D : ℕ) (v' : Volume) : Prop where
  reach : ∀ d q, Lib.Reach (Live v) v.child D d → Live v d q →
    (∃ d', Entry v' none d' q) ∧ v'.dirent q = v.dirent q
  data : ∀ d q, Lib.Reach (Live v) v.child D d → Live v d q →
    v'.chainOf q = v.chainOf q ∧
      ∀ c ∈ v.chainOf q, ∀ lba ∈ clusterSectors v c, v'.disk lba = v.disk lba
  used : ∀ c, v'.InRange c → v'.fat c ≠ 0 → ∃ d q, Entry v' none d q ∧ c ∈ v'.chainOf q

/-- The clusters of the directory in slot `p` were freed, and the slot no longer leads to it. -/
structure Detached (v : Volume) (p : Slot) (v' : Volume) : Prop where
  geometry : v.SameGeometry v'
  sound : v'.Sound
  fat : ∀ c, v.InRange c → c ∉ v.chainOf p → v'.fat c = v.fat c
  dirent : ∀ q : Slot, q.indexInSector < 16 → v.rootDirStartLba ≤ q.sectorLba → q ≠ p →
    v'.dirent q = v.dirent q
  child : (v'.dirent p).inUse = true → v'.child p = some 0

/-- Freeing the chain and rewriting the slot detaches the directory. -/
theorem detached_of_written {v₁ : Volume} (hf : Freed v (v.chainOf p) v₁)
    (hw : SlotWritten v₁ p v') (hchild : (v'.dirent p).inUse = true → v'.child p = some 0) :
    Detached v p v' := by
  refine ⟨hf.geometry.trans hw.geometry, hw.sound, fun c hc hnot => ?_, fun q hi hlba hqp => ?_,
    hchild⟩
  · rw [hw.fat c (hf.geometry.inRange.mpr hc), hf.fat c hc, if_neg hnot]
  · rw [hw.dirent q hi hqp]
    exact Volume.dirent_congr (hf.disk _ hlba)

section detached

variable (h : Inv v none []) (he : Entry v none d p)

include h he

/-- No second entry leads to the directory. -/
theorem not_reachDir_some (hdir : (v.dirent p).isDir = true) :
    ¬ ReachDir v (some p) (v.dirent p).firstCluster := by
  intro hreach
  have hch := h.isChain_of_isDir he hdir
  obtain h0 | ⟨d', q, hq, _, hfc⟩ := hreach.cases
  · have := (hch.live_of_mem _ hch.head_mem).1
    omega
  · have hq' : Entry v none d' q :=
      ⟨hq.reach.mono fun _ _ _ hl => ⟨⟨hl.1, by simp⟩, rfl⟩, hq.live, by simp⟩
    have hpq : p ≠ q := fun heq => hq.ne (by rw [heq])
    have hsame : v.chainOf q = v.chainOf p := by rw [Volume.chainOf, hfc, Volume.chainOf]
    exact h.disjoint d p d' q he hq' hpq hch.head_mem (hsame ▸ hch.head_mem)

/-- Directories reached around the slot have the same slots as before. -/
theorem Detached.dirSlots_eq (hx : Detached v p v') {d' : ℕ} (hd' : ReachDir v (some p) d') :
    dirSlots v' d' = dirSlots v d' := by
  refine hx.geometry.dirSlots_congr ?_
  obtain rfl | ⟨e, q, hq, hqdir, rfl⟩ := hd'.cases
  · rfl
  · have hq' : Entry v none e q :=
      ⟨hq.reach.mono fun _ _ _ hl => ⟨⟨hl.1, by simp⟩, rfl⟩, hq.live, by simp⟩
    have hqp : q ≠ p := fun heq => hq.ne (by rw [heq])
    have hch := h.isChain_of_isDir hq' hqdir
    have hch' : IsChain v' (v.dirent q).firstCluster (v.chainOf q) :=
      hch.congr (fun c hc => hx.fat c (h.inRange_of_mem hq' hc)
        (h.disjoint e q d p hq' he hqp hc)) fun c _ hc => hx.geometry.inRange.mpr hc
    rw [hch'.clusterChain_eq hx.sound, Volume.chainOf]

/-- What is reachable afterwards was reachable around the slot. -/
theorem Detached.reachDir (hx : Detached v p v') {d' : ℕ} (hd' : ReachDir v' none d') :
    ReachDir v (some p) d' := by
  induction hd' with
  | root => exact reachDir_root
  | @step d₁ d₂ q _ hq hc ih =>
    obtain ⟨⟨hmem, huse⟩, _⟩ := hq
    rw [hx.dirSlots_eq h he ih] at hmem
    by_cases hqp : q = p
    · subst hqp
      rw [hx.child huse] at hc
      obtain rfl := Option.some.inj hc
      exact reachDir_root
    · obtain ⟨hsec, hi⟩ := mem_dirSlots.mp hmem
      have hsame := hx.dirent q hi (root_start_le_of_mem_dirSectors h.sound hsec) hqp
      rw [hsame] at huse
      rw [Volume.child, hsame] at hc
      exact .step ih ⟨⟨hmem, huse⟩, fun heq => hqp (Option.some.inj heq).symm⟩ hc

/-- The entries of the directory are lost. -/
theorem Detached.not_entry (hx : Detached v p v') (hdir : (v.dirent p).isDir = true) {q : Slot}
    (hq : Live v (v.dirent p).firstCluster q) (d' : ℕ) : ¬ Entry v' none d' q := by
  intro hent
  have hd' := hx.reachDir h he hent.reach
  have hmem := hent.live.1
  rw [hx.dirSlots_eq h he hd'] at hmem
  have hreach : ReachDir v none d' := hd'.mono fun _ _ _ hl => ⟨⟨hl.1, by simp⟩, rfl⟩
  have hdd : d' = (v.dirent p).firstCluster :=
    h.dir_unique hreach (he.reach_sub hdir) (mem_dirSlots.mp hmem).1 (mem_dirSlots.mp hq.1).1
  exact not_reachDir_some h he hdir (hdd ▸ hd')

theorem Detached.not_kept (hx : Detached v p v') (hdir : (v.dirent p).isDir = true)
    (hne : ∃ q, Live v (v.dirent p).firstCluster q) :
    ¬ SubtreeKept v (v.dirent p).firstCluster v' := by
  intro hkept
  obtain ⟨q, hq⟩ := hne
  obtain ⟨⟨d', hent⟩, _⟩ := hkept.reach _ q .root hq
  exact hx.not_entry h he hdir hq d' hent

end detached

section calls

variable (h : Inv v none []) (he : Entry v none d p)
  (ht : nameTo83 name = some (v.dirent p).name) (hfuel : v.fuelBound ≤ fuel)

include h he ht hfuel

/-- `fat16_delete` does not ask whether the entry is a directory. -/
theorem fat16Delete_detaches :
    ∃ v', fat16Delete fuel d name v = some (true, v') ∧ Detached v p v' := by
  have hmount : ¬ ¬ v.mounted = true := by simp [h.sound.mounted]
  obtain ⟨hfree, hf⟩ := freeIfAny_eq h.sound hfuel (h.chain_cases he)
  obtain ⟨hsec, hi⟩ := mem_dirSlots.mp he.live.1
  have hlba : (v.freeAll (v.chainOf p)).rootDirStartLba ≤ p.sectorLba := by
    rw [hf.geometry.rootDirStartLba]
    exact root_start_le_of_mem_dirSectors h.sound hsec
  refine ⟨_, ?_, detached_of_written hf (markDeleted_slotWritten hf.sound hlba hi) fun huse => ?_⟩
  · rw [fat16Delete, if_neg hmount]
    simp only [findOrAllocSlot_of_entry h he hfuel ht, hfree, readSector_eq hf.sound.reliable,
      writeSector_eq hf.sound.reliable]
    rfl
  · rw [Volume.markDeleted_dirent hi hi, if_pos rfl] at huse
    simp [Dirent.inUse, Dirent.isDeleted] at huse

/-- Nor does `fat16_write_file`: an empty file turns the directory into a second root. -/
theorem fat16WriteFile_detaches (hdir : (v.dirent p).isDir = true) :
    ∃ v', fat16WriteFile fuel d name [] v = some (true, v') ∧ Detached v p v' := by
  have hmount : ¬ ¬ v.mounted = true := by simp [h.sound.mounted]
  obtain ⟨hfree, hf⟩ := freeIfAny_eq h.sound hfuel (h.chain_cases he)
  obtain ⟨hsec, hi⟩ := mem_dirSlots.mp he.live.1
  have hlba : (v.freeAll (v.chainOf p)).rootDirStartLba ≤ p.sectorLba := by
    rw [hf.geometry.rootDirStartLba]
    exact root_start_le_of_mem_dirSectors h.sound hsec
  refine ⟨_, ?_, detached_of_written hf (setDirent_slotWritten hf.sound hlba hi
    ((v.dirent p).withData 0 0)) fun _ => ?_⟩
  · rw [fat16WriteFile, if_neg hmount]
    simp only [findOrAllocSlot_of_entry h he hfuel ht, Option.some_or, hfree]
    rw [show clustersNeeded (v.freeAll (v.chainOf p)).clusterSize ([] : List UInt8).length = 0
      from rfl, writeClusters]
    simp only [writeDirentSlot_eq hf.sound.reliable]
    rfl
  · have hpe : ((v.freeAll (v.chainOf p)).setDirent p ((v.dirent p).withData 0 0)).dirent p =
        (v.dirent p).withData 0 0 := by
      rw [Volume.setDirent_dirent hi hi, if_pos rfl]
    rw [Volume.child, hpe, Dirent.withData_isDir, hdir]
    rfl

end calls

/-- Deleting a directory, or writing an empty file under its name, succeeds and loses everything
    the directory contained. -/
theorem subtree_lost (h : WellFormed v) (he : Entry v none d p)
    (hdir : (v.dirent p).isDir = true) (hne : ∃ q, Live v (v.dirent p).firstCluster q)
    (ht : nameTo83 name = some (v.dirent p).name) (hfuel : v.fuelBound ≤ fuel) :
    (∃ v', fat16Delete fuel d name v = some (true, v') ∧
      ¬ SubtreeKept v (v.dirent p).firstCluster v') ∧
    ∃ v', fat16WriteFile fuel d name [] v = some (true, v') ∧
      ¬ SubtreeKept v (v.dirent p).firstCluster v' := by
  obtain ⟨v₁, hrun₁, hx₁⟩ := fat16Delete_detaches h.inv he ht hfuel
  obtain ⟨v₂, hrun₂, hx₂⟩ := fat16WriteFile_detaches h.inv he ht hfuel hdir
  exact ⟨⟨v₁, hrun₁, hx₁.not_kept h.inv he hdir hne⟩,
    ⟨v₂, hrun₂, hx₂.not_kept h.inv he hdir hne⟩⟩

/-- A volume with a file `A` in the directory `D`. -/
def nestedVolume : Volume :=
  FileOp.after 4 2 [65] (.create false) (FileOp.after 4 0 [68] (.create true) (blankVolume 1))

theorem nestedVolume_wellFormed : WellFormed nestedVolume := by
  let v₁ := FileOp.after 4 0 [68] (.create true) (blankVolume 1)
  have hop₁ : (FileOp.create true).Harmless (blankVolume 1) 0 [68] := trivial
  have hwf₁ : WellFormed v₁ := FileOp.after_wellFormed (blankVolume_wellFormed (by decide))
    reachDir_root (by decide) (by decide) hop₁
  have hreach : ReachDir v₁ none 2 := by
    have hent : Entry v₁ none 0 ⟨3, 0⟩ := entry_of_root (by decide) (by decide)
    have hsub := hent.reach_sub (by decide)
    rwa [show (v₁.dirent ⟨3, 0⟩).firstCluster = 2 by decide] at hsub
  have hop₂ : (FileOp.create false).Harmless v₁ 2 [65] := trivial
  exact FileOp.after_wellFormed hwf₁ hreach (by decide) (by decide) hop₂

theorem nestedVolume_entry : Entry nestedVolume none 0 ⟨3, 0⟩ :=
  entry_of_root (by decide) (by decide)

theorem nestedVolume_live : Live nestedVolume (nestedVolume.dirent ⟨3, 0⟩).firstCluster ⟨4, 0⟩ :=
  ⟨by decide, by decide⟩

/-- Both operations on the name `D` lose the file below it. -/
theorem subtree_lost_nested :
    (∃ v', fat16Delete 4 0 [68] nestedVolume = some (true, v') ∧
      ¬ SubtreeKept nestedVolume (nestedVolume.dirent ⟨3, 0⟩).firstCluster v') ∧
    ∃ v', fat16WriteFile 4 0 [68] [] nestedVolume = some (true, v') ∧
      ¬ SubtreeKept nestedVolume (nestedVolume.dirent ⟨3, 0⟩).firstCluster v' :=
  subtree_lost nestedVolume_wellFormed nestedVolume_entry (by decide)
    ⟨_, nestedVolume_live⟩ (by decide) (by decide)

/-- After deleting `D` its file is gone and the cluster of `D` is free. -/
theorem delete_orphans_file :
    WellFormed nestedVolume ∧ Entry nestedVolume none 0 ⟨3, 0⟩ ∧
      nameTo83 [68] = some (nestedVolume.dirent ⟨3, 0⟩).name ∧
      Live nestedVolume 2 ⟨4, 0⟩ ∧
      ∃ v', fat16Delete 4 0 [68] nestedVolume = some (true, v') ∧
        ∀ d', ¬ Entry v' none d' ⟨4, 0⟩ := by
  have hdir : (nestedVolume.dirent ⟨3, 0⟩).isDir = true := by decide
  have hinv := nestedVolume_wellFormed.inv
  obtain ⟨v', hrun, hx⟩ := fat16Delete_detaches hinv nestedVolume_entry
    (show nameTo83 [68] = _ by decide) (show _ ≤ 4 by decide)
  exact ⟨nestedVolume_wellFormed, nestedVolume_entry, by decide,
    ⟨by decide, by decide⟩, v', hrun,
    hx.not_entry hinv nestedVolume_entry hdir nestedVolume_live⟩

end AuroraOS.Fat16
