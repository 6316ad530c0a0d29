import AuroraOS.Fat16.Isolation

/-!
# What the driver does to a volume

Every function of the driver changes the volume by a sequence of small steps: a transfer, which may
write a sector that is not before the first FAT, or a new hint for the free-cluster search. What
such steps keep, every function keeps.

## Main definitions

- `Touch`, `Touches` — one step, and any number of them

## Main results

- `Touches.geometry`, `Touches.hint`, `Touches.disk` — what the steps keep
- `fat16Create_touches`, `fat16Delete_touches`, `fat16WriteFile_touches`, `fat16ReadFile_touches`,
  `walkDirectory_touches`
-/

namespace AuroraOS.Fat16

/-- One step of the driver. -/
inductive Touch (v : Volume) : Volume → Prop
  | transfer : Touch v { v with faults := fun n => v.faults (n + 1) }
  | write (lba : ℕ) (buf : Sector) : v.fatStartLba ≤ lba →
      Touch v { v with
        faults := fun n => v.faults (n + 1)
        disk := Function.update v.disk lba buf }
  | hint (c : ℕ) : (2 ≤ v.nextFreeClusterHint → 2 ≤ c) → Touch v { v with nextFreeClusterHint := c }

/-- Steps of the driver. -/
inductive Touches (v : Volume) : Volume → Prop
  | refl : Touches v v
  | tail {v₁ v₂ : Volume} : Touches v v₁ → Touch v₁ v₂ → Touches v v₂

/-- The FAT, the root directory and the clusters follow each other. -/
def Volume.Ordered (v : Volume) : Prop :=
  v.fatStartLba ≤ v.rootDirStartLba ∧ v.rootDirStartLba ≤ v.dataStartLba

theorem Touch.geometry {v v' : Volume} (h : Touch v v') : v.SameGeometry v' := by
  cases h with
  | transfer => exact ⟨rfl, rfl, rfl, rfl, rfl, rfl, rfl⟩
  | write => exact ⟨rfl, rfl, rfl, rfl, rfl, rfl, rfl⟩
  | hint => exact ⟨rfl, rfl, rfl, rfl, rfl, rfl, rfl⟩

namespace Touches

variable {v v' v'' : Volume}

theorem single (h : Touch v v') : Touches v v' := .tail .refl h

theorem trans (h : Touches v v') (h' : Touches v' v'') : Touches v v'' := by
  induction h' with
  | refl => exact h
  | tail _ hstep ih => exact .tail ih hstep

theorem geometry (h : Touches v v') : v.SameGeometry v' := by
  induction h with
  | refl => exact .refl v
  | tail _ hstep ih => exact ih.trans hstep.geometry

theorem ordered (h : Touches v v') (ho : v.Ordered) : v'.Ordered := by
  rw [Volume.Ordered, h.geometry.fatStartLba, h.geometry.rootDirStartLba, h.geometry.dataStartLba]
  exact ho

theorem hint (h : Touches v v') (hlo : 2 ≤ v.nextFreeClusterHint) : 2 ≤ v'.nextFreeClusterHint := by
  induction h with
  | refl => exact hlo
  | tail _ hstep ih =>
    cases hstep with
    | transfer => exact ih
    | write => exact ih
    | hint c hc => exact hc ih

/-- The sectors before the first FAT stay as they are. -/
theorem disk (h : Touches v v') {lba : ℕ} (hlba : lba < v.fatStartLba) :
    v'.disk lba = v.disk lba := by
  induction h with
  | refl => rfl
  | tail hsteps hstep ih =>
    have hstart := hsteps.geometry.fatStartLba
    cases hstep with
    | transfer => exact ih
    | write lba' buf hle =>
      rw [← ih]
      exact Function.update_of_ne (by omega) _ _
    | hint => exact ih

theorem reliable (h : Touches v v') (hr : v.Reliable) : v'.Reliable := by
  induction h with
  | refl => exact hr
  | tail _ hstep ih =>
    cases hstep with
    | transfer => exact funext fun n => congrFun ih (n + 1)
    | write => exact funext fun n => congrFun ih (n + 1)
    | hint => exact ih

end Touches

section driver

variable {v : Volume}

theorem readSector_touches (lba : ℕ) (v : Volume) : Touches v (readSector lba v).2 :=
  .single .transfer

theorem writeSector_touches {lba : ℕ} (hlba : v.fatStartLba ≤ lba) (buf : Sector) :
    Touches v (writeSector lba buf v).2 := by
  rw [writeSector]
  split
  · exact .single .transfer
  · exact .single (.write lba buf hlba)

theorem fatReadEntry_snd (cluster : ℕ) (v : Volume) :
    (fatReadEntry cluster v).2 = { v with faults := fun n => v.faults (n + 1) } := by
  rw [fatReadEntry]
  simp only [readSector]
  split
  · next h => exact (Prod.mk.inj h).2.symm
  · next h => exact (Prod.mk.inj h).2.symm

theorem fatReadEntry_touches (cluster : ℕ) (v : Volume) : Touches v (fatReadEntry cluster v).2 := by
  rw [fatReadEntry_snd]
  exact .single .transfer

theorem fatWriteCopies_touches (cluster value : ℕ) (copies : List ℕ) (v : Volume) :
    Touches v (fatWriteCopies cluster value copies v).2 := by
  induction copies generalizing v with
  | nil => exact .refl
  | cons i rest ih =>
    rw [fatWriteCopies]
    generalize hsec : v.fatStartLba + i * v.bpb.sectorsPerFat + cluster * 2 / 512 = sector
    have h₁ := readSector_touches sector v
    cases hread : readSector sector v with
    | mk buf v₁ =>
      rw [hread] at h₁
      cases buf with
      | none => exact h₁
      | some buf =>
        simp only
        generalize (buf.setByte (cluster * 2 % 512) (UInt8.ofNat (value % 256))).setByte
          (cluster * 2 % 512 + 1) (UInt8.ofNat (value / 256 % 256)) = buf'
        have h₂ := @writeSector_touches v₁ sector
          (by rw [h₁.geometry.fatStartLba]; omega) buf'
        cases hwrite : writeSector sector buf' v₁ with
        | mk ok v₂ =>
          rw [hwrite] at h₂
          cases ok with
          | false => exact h₁.trans h₂
          | true => exact (h₁.trans h₂).trans (ih v₂)

theorem fatWriteEntry_touches (cluster value : ℕ) (v : Volume) :
    Touches v (fatWriteEntry cluster value v).2 :=
  fatWriteCopies_touches cluster value _ v

theorem scanFree_touches {n c : ℕ} (hlo : 2 ≤ v.nextFreeClusterHint → 2 ≤ c)
    (hhi : c + n ≤ 65535) : Touches v (scanFree n c v).2 := by
  induction n generalizing c v with
  | zero => exact .refl
  | succ n ih =>
    rw [scanFree]
    have h := fatReadEntry_touches c v
    have hsnd := fatReadEntry_snd c v
    cases hread : fatReadEntry c v with
    | mk entry v₁ =>
      rw [hread] at h hsnd
      have hhint : v₁.nextFreeClusterHint = v.nextFreeClusterHint := by
        rw [show v₁ = _ from hsnd]
      simp only
      split
      · refine h.tail (.hint _ fun h2 => ?_)
        rw [hhint] at h2
        have hc := hlo h2
        rw [Nat.mod_eq_of_lt (by omega)]
        omega
      · refine h.trans (ih (fun h2 => ?_) (by omega))
        have hc := hlo (hhint ▸ h2)
        omega

theorem fatFindFreeCluster_touches (v : Volume) : Touches v (fatFindFreeCluster v).2 := by
  rw [fatFindFreeCluster]
  have hlast : (v.totalClusters + 2) % 65536 < 65536 := Nat.mod_lt _ (by decide)
  generalize (v.totalClusters + 2) % 65536 = last at hlast
  have hscan₁ : Touches v (scanFree (last - v.nextFreeClusterHint) v.nextFreeClusterHint v).2 := by
    by_cases hle : v.nextFreeClusterHint ≤ last
    · exact scanFree_touches id (by omega)
    · rw [Nat.sub_eq_zero_of_le (by omega)]
      exact .refl
  cases hscan : scanFree (last - v.nextFreeClusterHint) v.nextFreeClusterHint v with
  | mk c v₁ =>
    rw [hscan] at hscan₁
    cases c with
    | some c => exact hscan₁
    | none =>
      simp only
      have hscan₂ : Touches v₁ (scanFree (min v₁.nextFreeClusterHint last - 2) 2 v₁).2 := by
        by_cases hle : 2 ≤ min v₁.nextFreeClusterHint last
        · exact scanFree_touches (fun _ => le_rfl) (by omega)
        · rw [Nat.sub_eq_zero_of_le (by omega)]
          exact .refl
      cases hscan' : scanFree (min v₁.nextFreeClusterHint last - 2) 2 v₁ with
      | mk c v₂ =>
        rw [hscan'] at hscan₂
        cases c with
        | some c => exact hscan₁.trans hscan₂
        | none => exact hscan₁.trans hscan₂

theorem zeroSectors_touches (n : ℕ) {lba : ℕ} (hlba : v.fatStartLba ≤ lba) :
    Touches v (zeroSectors n lba v).2 := by
  induction n generalizing lba v with
  | zero => exact .refl
  | succ n ih =>
    rw [zeroSectors]
    have h := writeSector_touches hlba Sector.zero
    cases hwrite : writeSector lba Sector.zero v with
    | mk ok v₁ =>
      rw [hwrite] at h
      cases ok with
      | false => exact h
      | true => exact h.trans (ih (by rw [h.geometry.fatStartLba]; omega))

theorem linkCluster_touches (lastCluster newCluster : ℕ) (v : Volume) :
    Touches v (linkCluster lastCluster newCluster v).2 := by
  rw [linkCluster]
  split
  · exact fatWriteEntry_touches _ _ _
  · exact .refl

theorem fatStart_le_clusterToLba (ho : v.Ordered) (c : ℕ) : v.fatStartLba ≤ clusterToLba v c := by
  obtain ⟨h₁, h₂⟩ := ho
  rw [clusterToLba]
  omega

theorem extendClusterChain_touches (ho : v.Ordered) (lastCluster : ℕ) :
    Touches v (extendClusterChain lastCluster v).2 := by
  rw [extendClusterChain]
  have h₁ := fatFindFreeCluster_touches v
  cases hfind : fatFindFreeCluster v with
  | mk newCluster v₁ =>
    rw [hfind] at h₁
    simp only
    split
    · exact h₁
    · have h₂ := fatWriteEntry_touches newCluster eocMin v₁
      cases hwrite : fatWriteEntry newCluster eocMin v₁ with
      | mk ok v₂ =>
        rw [hwrite] at h₂
        cases ok with
        | false => exact h₁.trans h₂
        | true =>
          have h₃ := linkCluster_touches lastCluster newCluster v₂
          simp only
          cases hlink : linkCluster lastCluster newCluster v₂ with
          | mk ok v₃ =>
            rw [hlink] at h₃
            have h₁₃ := (h₁.trans h₂).trans h₃
            cases ok with
            | false => exact h₁₃
            | true =>
              have h₄ := zeroSectors_touches v₃.bpb.sectorsPerCluster
                (fatStart_le_clusterToLba (h₁₃.ordered ho) newCluster)
              simp only
              cases hzero :
                zeroSectors v₃.bpb.sectorsPerCluster (clusterToLba v₃ newCluster) v₃ with
              | mk ok v₄ =>
                rw [hzero] at h₄
                cases ok <;> exact h₁₃.trans h₄

/-- The sector under a directory cursor is not before the FAT. -/
theorem dirCursorNextSector_touches (ho : v.Ordered) (cur : DirCursor) :
    Touches v (dirCursorNextSector cur v).2.2 ∧
      ∀ buf lba, (dirCursorNextSector cur v).1 = some (buf, lba) → v.fatStartLba ≤ lba := by
  obtain ⟨ho₁, ho₂⟩ := ho
  rw [dirCursorNextSector]
  split
  · split
    · exact ⟨.refl, by simp⟩
    · have h := readSector_touches (v.rootDirStartLba + cur.sectorIndex) v
      simp only
      cases hread : readSector (v.rootDirStartLba + cur.sectorIndex) v with
      | mk buf v₁ =>
        rw [hread] at h
        refine ⟨h, fun buf' lba hsome => ?_⟩
        obtain ⟨_, -, heq⟩ := Option.map_eq_some_iff.mp hsome
        obtain rfl := (Prod.mk.inj heq).2
        omega
  · split
    · exact ⟨.refl, by simp⟩
    · have hlba := fatStart_le_clusterToLba ⟨ho₁, ho₂⟩ cur.cluster
      have h := readSector_touches (clusterToLba v cur.cluster + cur.sectorInCluster) v
      simp only
      cases hread : readSector (clusterToLba v cur.cluster + cur.sectorInCluster) v with
      | mk buf v₁ =>
        rw [hread] at h
        have hsome : ∀ buf' lba, buf.map (·, clusterToLba v cur.cluster + cur.sectorInCluster) =
            some (buf', lba) → v.fatStartLba ≤ lba := by
          intro buf' lba hmap
          obtain ⟨_, -, heq⟩ := Option.map_eq_some_iff.mp hmap
          obtain rfl := (Prod.mk.inj heq).2
          omega
        simp only
        split
        · have h₂ := fatReadEntry_touches cur.cluster v₁
          cases hfat : fatReadEntry cur.cluster v₁ with
          | mk next v₂ =>
            rw [hfat] at h₂
            exact ⟨h.trans h₂, hsome⟩
        · exact ⟨h, hsome⟩

/-- All slots in the outcome of a scan have a property. -/
def SlotScan.All (P : Slot → Prop) : SlotScan → Prop
  | .found p _ => P p
  | .free p => P p
  | .more freeSlot => ∀ p, freeSlot = some p → P p

/-- The slot a scan ends with is one of the sector's or the one it started with. -/
theorem scanSlots_mem {read : Slot → Dirent} {target : Vector UInt8 11} {P : Slot → Prop}
    {slots : List Slot} (hslots : ∀ p ∈ slots, P p) {free : Option Slot}
    (hfree : ∀ p, free = some p → P p) :
    (scanSlots read target slots free).All P := by
  induction slots generalizing free with
  | nil => exact hfree
  | cons q rest ih =>
    have hq := hslots q List.mem_cons_self
    have hrest := fun p hp => hslots p (List.mem_cons_of_mem q hp)
    have hor : P (free.getD q) := by
      cases free with
      | none => exact hq
      | some p => exact hfree p rfl
    rw [scanSlots]
    split
    · exact hor
    split
    · exact ih hrest fun p hp => Option.some.inj hp ▸ hor
    split
    · exact ih hrest hfree
    split
    · exact hq
    · exact ih hrest hfree

theorem slotLoop_touches (target : Vector UInt8 11) {fuel : ℕ} {cur : DirCursor}
    {free : Option Slot}
    {cluster : ℕ} (ho : v.Ordered) (hfree : ∀ p, free = some p → v.fatStartLba ≤ p.sectorLba)
    {r : SlotScan} {last : ℕ} {v' : Volume}
    (hrun : slotLoop target fuel cur free cluster v = some (r, last, v')) :
    Touches v v' ∧ r.All fun p => v.fatStartLba ≤ p.sectorLba := by
  induction fuel generalizing cur free cluster v with
  | zero => exact absurd hrun (by simp [slotLoop])
  | succ fuel ih =>
    rw [slotLoop] at hrun
    obtain ⟨htouch, hlba⟩ := dirCursorNextSector_touches ho cur
    simp only at hrun
    cases hnext : dirCursorNextSector cur v with
    | mk sector rest =>
      obtain ⟨cur₁, v₁⟩ := rest
      rw [hnext] at hrun htouch hlba
      cases sector with
      | none =>
        obtain ⟨rfl, hrest⟩ := Prod.mk.inj (Option.some.inj hrun)
        obtain ⟨-, rfl⟩ := Prod.mk.inj hrest
        exact ⟨htouch, hfree⟩
      | some sector =>
        obtain ⟨buf, lba⟩ := sector
        have hsec : v.fatStartLba ≤ lba := hlba buf lba rfl
        have hmem : ∀ p ∈ sectorSlots lba, v.fatStartLba ≤ p.sectorLba := by
          intro p hp
          obtain ⟨i, -, rfl⟩ := List.mem_map.mp hp
          exact hsec
        have hscan := @scanSlots_mem (fun p => Dirent.read buf p.indexInSector) target
          (fun p => v.fatStartLba ≤ p.sectorLba) (sectorSlots lba) hmem free hfree
        simp only at hrun
        generalize scanSlots (fun p => Dirent.read buf p.indexInSector) target (sectorSlots lba)
          free = result at hrun hscan
        cases result with
        | more free' =>
          have hih := ih (htouch.ordered ho)
            (fun p hp => by rw [htouch.geometry.fatStartLba]; exact hscan p hp) hrun
          refine ⟨htouch.trans hih.1, ?_⟩
          have hslot := hih.2
          rw [htouch.geometry.fatStartLba] at hslot
          exact hslot
        | found p e =>
          obtain ⟨rfl, hrest⟩ := Prod.mk.inj (Option.some.inj hrun)
          obtain ⟨-, rfl⟩ := Prod.mk.inj hrest
          exact ⟨htouch, hscan⟩
        | free p =>
          obtain ⟨rfl, hrest⟩ := Prod.mk.inj (Option.some.inj hrun)
          obtain ⟨-, rfl⟩ := Prod.mk.inj hrest
          exact ⟨htouch, hscan⟩

theorem findOrAllocSlot_touches (ho : v.Ordered) {fuel dirCluster : ℕ} {name : List UInt8}
    {r : Option (Slot × Option Dirent)} {v' : Volume}
    (hrun : findOrAllocSlot fuel dirCluster name v = some (r, v')) :
    Touches v v' ∧ ∀ slot e, r = some (slot, e) → v.fatStartLba ≤ slot.sectorLba := by
  rw [findOrAllocSlot] at hrun
  split at hrun
  · obtain ⟨rfl, rfl⟩ := Prod.mk.inj (Option.some.inj hrun)
    exact ⟨.refl, by simp⟩
  · next target _ =>
    split at hrun
    · exact absurd hrun (by simp)
    · next slot e last v₁ hloop =>
      obtain ⟨htouch, hslot⟩ := slotLoop_touches target ho (by simp) hloop
      obtain ⟨rfl, rfl⟩ := Prod.mk.inj (Option.some.inj hrun)
      refine ⟨htouch, fun slot' e' heq => ?_⟩
      obtain ⟨rfl, -⟩ := Prod.mk.inj (Option.some.inj heq)
      exact hslot
    · next slot last v₁ hloop =>
      obtain ⟨htouch, hslot⟩ := slotLoop_touches target ho (by simp) hloop
      obtain ⟨rfl, rfl⟩ := Prod.mk.inj (Option.some.inj hrun)
      refine ⟨htouch, fun slot' e' heq => ?_⟩
      obtain ⟨rfl, -⟩ := Prod.mk.inj (Option.some.inj heq)
      exact hslot
    · next free last v₁ hloop =>
      obtain ⟨htouch, -⟩ := slotLoop_touches target ho (by simp) hloop
      split at hrun
      · obtain ⟨rfl, rfl⟩ := Prod.mk.inj (Option.some.inj hrun)
        exact ⟨htouch, by simp⟩
      · have hext := extendClusterChain_touches (htouch.ordered ho) last
        cases hextend : extendClusterChain last v₁ with
        | mk newCluster v₂ =>
          rw [hextend] at hrun hext
          simp only at hrun
          have hboth := htouch.trans hext
          split at hrun
          · obtain ⟨rfl, rfl⟩ := Prod.mk.inj (Option.some.inj hrun)
            exact ⟨hboth, by simp⟩
          · obtain ⟨rfl, rfl⟩ := Prod.mk.inj (Option.some.inj hrun)
            refine ⟨hboth, fun slot' e' heq => ?_⟩
            obtain ⟨rfl, -⟩ := Prod.mk.inj (Option.some.inj heq)
            have := fatStart_le_clusterToLba (hboth.ordered ho) newCluster
            rwa [hboth.geometry.fatStartLba] at this

theorem writeDirentSlot_touches {slot : Slot} (hslot : v.fatStartLba ≤ slot.sectorLba)
    (entry : Dirent) : Touches v (writeDirentSlot slot entry v).2 := by
  rw [writeDirentSlot]
  have h := readSector_touches slot.sectorLba v
  cases hread : readSector slot.sectorLba v with
  | mk buf v₁ =>
    rw [hread] at h
    cases buf with
    | none => exact h
    | some buf =>
      exact h.trans (writeSector_touches (by rw [h.geometry.fatStartLba]; exact hslot) _)

theorem freeClusterChain_touches {fuel cluster : ℕ} {v' : Volume}
    (hrun : freeClusterChain fuel cluster v = some v') : Touches v v' := by
  induction fuel generalizing cluster v with
  | zero => exact absurd hrun (by simp [freeClusterChain])
  | succ fuel ih =>
    rw [freeClusterChain] at hrun
    split at hrun
    · have h₁ := fatReadEntry_touches cluster v
      cases hread : fatReadEntry cluster v with
      | mk next v₁ =>
        rw [hread] at hrun h₁
        have h₂ := fatWriteEntry_touches cluster freeCluster v₁
        simp only at hrun
        cases hwrite : fatWriteEntry cluster freeCluster v₁ with
        | mk ok v₂ =>
          rw [hwrite] at hrun h₂
          exact (h₁.trans h₂).trans (ih hrun)
    · exact Option.some.inj hrun ▸ .refl

theorem freeIfAny_touches {fuel cluster : ℕ} {v' : Volume}
    (hrun : freeIfAny fuel cluster v = some v') : Touches v v' := by
  rw [freeIfAny] at hrun
  split at hrun
  · exact freeClusterChain_touches hrun
  · exact Option.some.inj hrun ▸ .refl

theorem writeSectors_touches (n : ℕ) {lba : ℕ} (hlba : v.fatStartLba ≤ lba) (bytes : List UInt8) :
    Touches v (writeSectors n lba bytes v).2 := by
  induction n generalizing lba bytes v with
  | zero => exact .refl
  | succ n ih =>
    rw [writeSectors]
    split
    · exact .refl
    · have h := writeSector_touches hlba (Sector.ofBytes (bytes.take 512))
      cases hwrite : writeSector lba (Sector.ofBytes (bytes.take 512)) v with
      | mk ok v₁ =>
        rw [hwrite] at h
        cases ok with
        | false => exact h
        | true => exact h.trans (ih (by rw [h.geometry.fatStartLba]; omega) _)

theorem writeClusters_touches {fuel n first last : ℕ} {data : List UInt8} (ho : v.Ordered)
    {r : WriteOutcome} {v' : Volume}
    (hrun : writeClusters fuel n first last data v = some (r, v')) :
    Touches v v' := by
  induction n generalizing first last data v with
  | zero =>
    obtain ⟨-, rfl⟩ := Prod.mk.inj (Option.some.inj hrun)
    exact .refl
  | succ n ih =>
    rw [writeClusters] at hrun
    have h₁ := extendClusterChain_touches ho last
    cases hextend : extendClusterChain last v with
    | mk newCluster v₁ =>
      rw [hextend] at hrun h₁
      simp only at hrun
      split at hrun
      · obtain ⟨v₂, hfree, heq⟩ := Option.map_eq_some_iff.mp hrun
        obtain ⟨-, rfl⟩ := Prod.mk.inj heq
        exact h₁.trans (freeIfAny_touches hfree)
      · have h₂ := writeSectors_touches v₁.bpb.sectorsPerCluster
          (fatStart_le_clusterToLba (h₁.ordered ho) newCluster) (data.take v₁.clusterSize)
        cases hwrite : writeSectors v₁.bpb.sectorsPerCluster (clusterToLba v₁ newCluster)
            (data.take v₁.clusterSize) v₁ with
        | mk ok v₂ =>
          rw [hwrite] at hrun h₂
          cases ok with
          | false =>
            obtain ⟨-, rfl⟩ := Prod.mk.inj (Option.some.inj hrun)
            exact h₁.trans h₂
          | true => exact (h₁.trans h₂).trans (ih ((h₁.trans h₂).ordered ho) hrun)

/-- Writing a slot that a search has found. -/
theorem writeSlot_touches {v₁ v₂ v' : Volume} {slot : Slot} {entry : Dirent} {b : Bool}
    (hslot : v.fatStartLba ≤ slot.sectorLba) (h : Touches v v₁)
    (hrun : writeDirentSlot slot entry v₁ = (b, v')) (h₂ : v₂ = v') : Touches v v₂ := by
  have hwrite := @writeDirentSlot_touches v₁ slot
    (by rw [h.geometry.fatStartLba]; exact hslot) entry
  rw [hrun] at hwrite
  exact h₂ ▸ h.trans hwrite

theorem fat16Create_touches (ho : v.Ordered) {fuel d : ℕ} {name : List UInt8} {asDirectory b : Bool}
    {v' : Volume} (hrun : fat16Create fuel d name asDirectory v = some (b, v')) : Touches v v' := by
  rw [fat16Create] at hrun
  split at hrun
  · obtain ⟨-, rfl⟩ := Prod.mk.inj (Option.some.inj hrun)
    exact .refl
  · split at hrun
    · exact absurd hrun (by simp)
    · next v₁ hfind =>
      obtain ⟨-, rfl⟩ := Prod.mk.inj (Option.some.inj hrun)
      exact (findOrAllocSlot_touches ho hfind).1
    · next v₁ hfind =>
      obtain ⟨-, rfl⟩ := Prod.mk.inj (Option.some.inj hrun)
      exact (findOrAllocSlot_touches ho hfind).1
    · next slot v₁ hfind =>
      obtain ⟨htouch, hslot⟩ := findOrAllocSlot_touches ho hfind
      have hlba := hslot slot none rfl
      split at hrun
      · obtain ⟨-, rfl⟩ := Prod.mk.inj (Option.some.inj hrun)
        exact htouch
      · split at hrun
        · have hext := extendClusterChain_touches (htouch.ordered ho) 0
          cases hextend : extendClusterChain 0 v₁ with
          | mk newCluster v₂ =>
            rw [hextend] at hrun hext
            simp only at hrun
            split at hrun
            · obtain ⟨-, rfl⟩ := Prod.mk.inj (Option.some.inj hrun)
              exact htouch.trans hext
            · exact writeSlot_touches hlba (htouch.trans hext) (Option.some.inj hrun) rfl
        · exact writeSlot_touches hlba htouch (Option.some.inj hrun) rfl

theorem fat16Delete_touches (ho : v.Ordered) {fuel d : ℕ} {name : List UInt8} {b : Bool}
    {v' : Volume} (hrun : fat16Delete fuel d name v = some (b, v')) : Touches v v' := by
  rw [fat16Delete] at hrun
  split at hrun
  · obtain ⟨-, rfl⟩ := Prod.mk.inj (Option.some.inj hrun)
    exact .refl
  · split at hrun
    · exact absurd hrun (by simp)
    · next v₁ hfind =>
      obtain ⟨-, rfl⟩ := Prod.mk.inj (Option.some.inj hrun)
      exact (findOrAllocSlot_touches ho hfind).1
    · next v₁ hfind =>
      obtain ⟨-, rfl⟩ := Prod.mk.inj (Option.some.inj hrun)
      exact (findOrAllocSlot_touches ho hfind).1
    · next slot existing v₁ hfind =>
      obtain ⟨htouch, hslot⟩ := findOrAllocSlot_touches ho hfind
      have hlba := hslot slot (some existing) rfl
      split at hrun
      · exact absurd hrun (by simp)
      · next v₂ hfree =>
        have h₂ := htouch.trans (freeIfAny_touches hfree)
        have h₃ := readSector_touches slot.sectorLba v₂
        cases hread : readSector slot.sectorLba v₂ with
        | mk buf v₃ =>
          rw [hread] at hrun h₃
          have h₂₃ := h₂.trans h₃
          cases buf with
          | none =>
            obtain ⟨-, rfl⟩ := Prod.mk.inj (Option.some.inj hrun)
            exact h₂₃
          | some buf =>
            have h₄ := @writeSector_touches v₃ slot.sectorLba
              (by rw [h₂₃.geometry.fatStartLba]; exact hlba)
              (buf.setByte (slot.indexInSector * 32) 0xE5)
            rw [Option.some.inj hrun] at h₄
            exact h₂₃.trans h₄

theorem fat16WriteFile_touches (ho : v.Ordered) {fuel d : ℕ} {name data : List UInt8} {b : Bool}
    {v' : Volume} (hrun : fat16WriteFile fuel d name data v = some (b, v')) : Touches v v' := by
  rw [fat16WriteFile] at hrun
  split at hrun
  · obtain ⟨-, rfl⟩ := Prod.mk.inj (Option.some.inj hrun)
    exact .refl
  · split at hrun
    · exact absurd hrun (by simp)
    · next v₁ hfind =>
      obtain ⟨-, rfl⟩ := Prod.mk.inj (Option.some.inj hrun)
      exact (findOrAllocSlot_touches ho hfind).1
    · next slot existing v₁ hfind =>
      obtain ⟨htouch, hslot⟩ := findOrAllocSlot_touches ho hfind
      have hlba := hslot slot existing rfl
      split at hrun
      · obtain ⟨-, rfl⟩ := Prod.mk.inj (Option.some.inj hrun)
        exact htouch
      · next entry _ =>
        split at hrun
        · exact absurd hrun (by simp)
        · next v₂ hfree =>
          have h₂ := htouch.trans (freeIfAny_touches hfree)
          split at hrun
          · exact absurd hrun (by simp)
          · next v₃ hwrite =>
            obtain ⟨-, rfl⟩ := Prod.mk.inj (Option.some.inj hrun)
            exact h₂.trans (writeClusters_touches (h₂.ordered ho) hwrite)
          · next first v₃ hwrite =>
            have h₃ := h₂.trans (writeClusters_touches (h₂.ordered ho) hwrite)
            exact writeSlot_touches hlba h₃ (Option.some.inj hrun) rfl

/-- Walking a directory only reads. -/
theorem walkLoop_touches {σ : Type} {cb : Fat16Entry → σ → Bool × σ} (ho : v.Ordered) {fuel : ℕ}
    {cur : DirCursor} {acc acc' : σ} {v' : Volume}
    (hrun : walkLoop cb fuel cur acc v = some (acc', v')) : Touches v v' := by
  induction fuel generalizing cur acc v with
  | zero => exact absurd hrun (by simp [walkLoop])
  | succ fuel ih =>
    rw [walkLoop] at hrun
    obtain ⟨htouch, -⟩ := dirCursorNextSector_touches ho cur
    cases hnext : dirCursorNextSector cur v with
    | mk sector rest =>
      obtain ⟨cur₁, v₁⟩ := rest
      rw [hnext] at hrun htouch
      cases sector with
      | none =>
        obtain ⟨-, rfl⟩ := Prod.mk.inj (Option.some.inj hrun)
        exact htouch
      | some sector =>
        obtain ⟨buf, lba⟩ := sector
        simp only at hrun
        split at hrun
        · obtain ⟨-, rfl⟩ := Prod.mk.inj (Option.some.inj hrun)
          exact htouch
        · exact htouch.trans (ih (htouch.ordered ho) hrun)

theorem fat16List_touches (ho : v.Ordered) {fuel d : ℕ} {entries : List Fat16Entry} {v' : Volume}
    (hrun : fat16List fuel d v = some (entries, v')) : Touches v v' := by
  rw [fat16List] at hrun
  split at hrun
  · exact walkLoop_touches ho hrun
  · obtain ⟨-, rfl⟩ := Prod.mk.inj (Option.some.inj hrun)
    exact .refl

theorem fat16Stat_touches (ho : v.Ordered) {fuel d : ℕ} {name : List UInt8}
    {entry : Option Fat16Entry}
    {v' : Volume} (hrun : fat16Stat fuel d name v = some (entry, v')) : Touches v v' := by
  rw [fat16Stat] at hrun
  split at hrun
  · rw [findInDir] at hrun
    split at hrun
    · obtain ⟨-, rfl⟩ := Prod.mk.inj (Option.some.inj hrun)
      exact .refl
    · exact walkLoop_touches ho hrun
  · obtain ⟨-, rfl⟩ := Prod.mk.inj (Option.some.inj hrun)
    exact .refl

theorem readSectors_touches (n lba byteInSector toRead : ℕ) (v : Volume) :
    Touches v (readSectors n lba byteInSector toRead v).2.2 := by
  induction n generalizing lba byteInSector toRead v with
  | zero => exact .refl
  | succ n ih =>
    rw [readSectors]
    split
    · exact .refl
    · have h := readSector_touches lba v
      cases hread : readSector lba v with
      | mk buf v₁ =>
        rw [hread] at h
        cases buf with
        | none => exact h
        | some buf => exact h.trans (ih _ _ _ v₁)

theorem readClusters_touches (fuel cluster offsetInCluster toRead : ℕ) (v : Volume) :
    Touches v (readClusters fuel cluster offsetInCluster toRead v).2 := by
  induction fuel generalizing cluster offsetInCluster toRead v with
  | zero => exact .refl
  | succ fuel ih =>
    rw [readClusters]
    split
    · have h := readSectors_touches (v.bpb.sectorsPerCluster - offsetInCluster / 512)
        (clusterToLba v cluster + offsetInCluster / 512) (offsetInCluster % 512) toRead v
      cases hread : readSectors (v.bpb.sectorsPerCluster - offsetInCluster / 512)
          (clusterToLba v cluster + offsetInCluster / 512) (offsetInCluster % 512) toRead v with
      | mk ok rest =>
        obtain ⟨bytes, v₁⟩ := rest
        rw [hread] at h
        cases ok with
        | false => exact h
        | true => exact (h.trans (fatReadEntry_touches cluster v₁)).trans (ih _ _ _ _)
    · exact .refl

theorem skipClusters_touches (n cluster : ℕ) (v : Volume) :
    Touches v (skipClusters n cluster v).2 := by
  induction n generalizing cluster v with
  | zero => exact .refl
  | succ n ih =>
    rw [skipClusters]
    have h := fatReadEntry_touches cluster v
    cases hread : fatReadEntry cluster v with
    | mk next v₁ =>
      rw [hread] at h
      simp only
      split
      · exact h
      · exact h.trans (ih next v₁)

theorem fat16ReadFile_touches (firstCluster fileSize offset maxLen : ℕ) (v : Volume) :
    Touches v (fat16ReadFile firstCluster fileSize offset maxLen v).2 := by
  rw [fat16ReadFile]
  split
  · exact .refl
  split
  · exact .refl
  · simp only
    have h := skipClusters_touches (offset / v.clusterSize) firstCluster v
    cases hskip : skipClusters (offset / v.clusterSize) firstCluster v with
    | mk cluster v₁ =>
      rw [hskip] at h
      cases cluster with
      | none => exact h
      | some cluster => exact h.trans (readClusters_touches _ _ _ _ v₁)

end driver

end AuroraOS.Fat16
