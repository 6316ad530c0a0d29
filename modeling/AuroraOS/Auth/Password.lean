import AuroraOS.Crypto.Sha256
import AuroraOS.Fat16.RoundTrip

/-!
# Password storage

Model of `auth.c`: a salted hash in the file `AURAUSER.DAT` of the root directory. The salt that
`generate_salt` makes up is a parameter.

`fat16_write_file` overwrites whatever has the name, a directory too, and `fat16_stat` takes a name
in lower case for the same, so the record is found again when the name denoted nothing else before
and no later write goes to a directory.

## Main definitions

- `authSetPassword`, `authCheckPassword`

## Main results

- `password_kept`
-/

namespace AuroraOS.Auth

set_option maxRecDepth 16384

open AuroraOS.Fat16 AuroraOS.Crypto

/-- `AUTH_FILE_NAME`. -/
def authFileName : List UInt8 := [65, 85, 82, 65, 85, 83, 69, 82, 46, 68, 65, 84]

/-- The name as it is stored. -/
def authName83 : Vector UInt8 11 := #v[65, 85, 82, 65, 85, 83, 69, 82, 68, 65, 84]

/-- `AUTH_SALT_LEN`. -/
def authSaltLen : ℕ := 16

/-- `AUTH_MAX_PASSWORD`. -/
def authMaxPassword : ℕ := 64

/-- `sizeof(struct auth_record)`. -/
def authRecordSize : ℕ := 48

/-- `hash_password`. -/
def hashPassword (salt password : List UInt8) : List UInt8 :=
  sha256 (salt ++ password.take authMaxPassword)

/-- `auth_set_password`. -/
def authSetPassword (fuel : ℕ) (salt : Vector UInt8 16) (password : List UInt8) (v : Volume) :
    Option (Bool × Volume) :=
  if ¬ v.mounted ∨ password = [] then some (false, v)
  else fat16WriteFile fuel 0 authFileName (salt.toList ++ hashPassword salt.toList password) v

/-- The comparison of the hashes, which looks at every byte. -/
def hashDiff (computed stored : List UInt8) : UInt8 :=
  (computed.zip stored).foldl (fun diff b => diff ||| (b.1 ^^^ b.2)) 0

/-- `auth_check_password`. -/
def authCheckPassword (fuel : ℕ) (password : List UInt8) (v : Volume) : Option (Bool × Volume) :=
  if ¬ v.mounted then some (false, v)
  else
    match fat16Stat fuel 0 authFileName v with
    | none => none
    | some (none, v) => some (false, v)
    | some (some entry, v) =>
      if entry.isDir then some (false, v)
      else if entry.size ≠ authRecordSize then some (false, v)
      else
        match fat16ReadFile entry.firstCluster entry.size 0 authRecordSize v with
        | (record, v) =>
          if record.length ≠ authRecordSize then some (false, v)
          else
            let computed := hashPassword (record.take authSaltLen) password
            some (hashDiff computed (record.drop authSaltLen) = 0, v)

theorem or_eq_zero (a b : UInt8) : a ||| b = 0 ↔ a = 0 ∧ b = 0 := by
  constructor
  · intro h
    have hbits : a.toBitVec ||| b.toBitVec = 0#8 := congrArg UInt8.toBitVec h
    have hnat : a.toNat ||| b.toNat = 0 := congrArg BitVec.toNat hbits
    obtain ⟨ha, hb⟩ := Nat.or_eq_zero_iff.mp hnat
    exact ⟨UInt8.toNat_inj.mp ha, UInt8.toNat_inj.mp hb⟩
  · rintro ⟨rfl, rfl⟩
    rfl

/-- The difference is zero exactly when the hashes are the same. -/
theorem hashDiff_eq_zero {a b : List UInt8} (h : a.length = b.length) :
    hashDiff a b = 0 ↔ a = b := by
  have hloop : ∀ (a b : List UInt8) (acc : UInt8), a.length = b.length →
      ((a.zip b).foldl (fun diff x => diff ||| (x.1 ^^^ x.2)) acc = 0 ↔ acc = 0 ∧ a = b) := by
    intro a
    induction a with
    | nil =>
      intro b acc hlen
      obtain rfl := List.length_eq_zero_iff.mp hlen.symm
      simp
    | cons x a ih =>
      intro b acc hlen
      obtain ⟨y, b, rfl⟩ := List.exists_cons_of_length_pos
        (show 0 < b.length by rw [← hlen]; exact Nat.succ_pos _)
      rw [List.zip_cons_cons, List.foldl_cons, ih b _ (by simpa using hlen), or_eq_zero,
        UInt8.xor_eq_zero_iff]
      simp [and_assoc]
  rw [hashDiff, hloop a b 0 h]
  simp

/-- What the check does on a volume that holds a record. -/
theorem authCheckPassword_eq {v : Volume} {fuel : ℕ} {p : Slot} {salt hash : List UInt8}
    (h : Inv v none []) (hfuel : v.fuelBound ≤ fuel) (hsalt : salt.length = authSaltLen)
    (hhash : hash.length = 32) (hf : HoldsFile v 0 authName83 (salt ++ hash) p)
    (password : List UInt8) :
    (authCheckPassword fuel password v).map Prod.fst =
      some (decide (hashPassword salt password = hash)) := by
  have hstat := fat16Stat_eq_lookup h hf.reach hfuel
    (show nameTo83 authFileName = some authName83 by decide)
  have hlen : (salt ++ hash).length = authRecordSize := by
    rw [List.length_append, hsalt, hhash]
    rfl
  have hread := hf.read 0 authRecordSize
  rw [List.drop_zero, List.take_of_length_le (by omega)] at hread
  rw [hf.lookup, Option.map_some] at hstat
  rw [authCheckPassword, if_neg (by simp [h.sound.mounted]), hstat]
  simp only [Dirent.toEntry, hf.file, Bool.false_eq_true, if_false, hf.size, hlen, ne_eq,
    not_true_eq_false]
  rw [hf.size, hlen] at hread
  rw [hread, if_neg (by simp [hlen])]
  have htake : (salt ++ hash).take authSaltLen = salt := by
    rw [List.take_left' hsalt]
  have hdrop : (salt ++ hash).drop authSaltLen = hash := by
    rw [List.drop_left' hsalt]
  rw [htake, hdrop, Option.map_some]
  congr 1
  rw [decide_eq_decide]
  exact hashDiff_eq_zero (by rw [hashPassword, length_sha256, hhash])

/-- A mounted volume has small clusters. -/
theorem sectorsPerCluster_lt {v : Volume} (hm : Mounted v) (hr : v.Reliable) :
    v.bpb.sectorsPerCluster < 256 := by
  have hmount := hm.mount_eq
  rw [fat16Mount, readSector_eq hr] at hmount
  simp only at hmount
  split at hmount
  · exact absurd (Prod.mk.inj hmount).1 (by simp)
  · have heq := congrArg (fun v => v.bpb.sectorsPerCluster) (Prod.mk.inj hmount).2
    simp only at heq
    rw [← heq]
    exact UInt8.toNat_lt _

/-- A password that was set is accepted, and nothing else is that does not hash to the same, after
    any successful operations on other names and any mounting, provided that what `fat16_stat` found
    under the name before was a file stored under this very name. -/
theorem password_kept {v v₁ v₂ : Volume} {fuel : ℕ} (h : WellFormed v) (hm : Mounted v)
    (hfuel : v.fuelBound ≤ fuel) (salt : Vector UInt8 16) {password : List UInt8}
    (hlen : password.length ≤ 63)
    (hfile : ∀ q, v.lookup 0 authName83 = some q →
      (v.dirent q).name = authName83 ∧ (v.dirent q).isDir = false)
    (hset : authSetPassword fuel salt password v = some (true, v₁))
    (hrun : LaterRun fuel 0 authName83 v₁ v₂) :
    (authCheckPassword fuel password v₂).map Prod.fst = some true ∧
      ∀ q, q.length ≤ 64 → (authCheckPassword fuel q v₂).map Prod.fst = some true →
        sha256 (salt.toList ++ q) = sha256 (salt.toList ++ password) := by
  have hspc := sectorsPerCluster_lt hm h.sound.reliable
  have hsalt : salt.toList.length = authSaltLen := salt.length_toList
  have hhash : (hashPassword salt.toList password).length = 32 := length_sha256 _
  have hfits : (salt.toList ++ hashPassword salt.toList password).length + v.clusterSize ≤
      2 ^ 32 := by
    have hcs : v.clusterSize ≤ 255 * 512 := Nat.mul_le_mul_right 512 (by omega)
    rw [List.length_append, hsalt, hhash, authSaltLen]
    omega
  rw [authSetPassword] at hset
  split at hset
  · exact absurd (Prod.mk.inj (Option.some.inj hset)).1 (by simp)
  · have hname : nameTo83 authFileName = some authName83 := by decide
    obtain ⟨hinv₁, hg, p, hf₁⟩ := writeFile_holdsFile h.inv reachDir_root hfuel
      (by decide) (by decide) hname hfits hfile hset
    have hkept := (fat16WriteFile_touches h.sound.ordered hset).bootKept
    obtain ⟨hinv₂, -, hfuel₂, hf₂⟩ := hrun.holdsFile hinv₁
      (hm.congr h.sound.reliable hinv₁.sound.reliable hkept) (by rwa [hg.fuelBound]) hf₁
    have hcheck := authCheckPassword_eq hinv₂ hfuel₂ hsalt hhash hf₂
    have hfull : hashPassword salt.toList password = sha256 (salt.toList ++ password) := by
      rw [hashPassword, List.take_of_length_le (by rw [authMaxPassword]; omega)]
    refine ⟨by rw [hcheck]; simp, fun q hq haccept => ?_⟩
    rw [hcheck, Option.some_inj, decide_eq_true_eq, hfull, hashPassword,
      List.take_of_length_le (by rw [authMaxPassword]; omega)] at haccept
    exact haccept

/-- The boot sector of a volume with `n` one-sector clusters, two FATs of one sector each and one
    sector for the root directory. -/
def bootSector (n : UInt8) : Sector :=
  (Sector.zero.copyIn 11 [0, 2, 1, 1, 0, 2, 16, 0, n + 4, 0, 0xF8, 1, 0]).copyIn 510 [0x55, 0xAA]

/-- A blank volume that can be mounted. -/
def bootVolume : Volume := (blankVolume 2).setSector 0 (bootSector 2)

theorem bootVolume_wellFormed : WellFormed bootVolume := by
  have hdisk : ∀ lba, 0 < lba → bootVolume.disk lba = Sector.zero :=
    fun lba hlba => Function.update_of_ne (by omega) _ _
  refine wellFormed_of_empty
    ((blankVolume_wellFormed (n := 2) (by decide)).sound.withDisk _) ?_ ?_ ?_
  · intro i _ j _
    rw [hdisk _ (by simp [bootVolume, Volume.setSector, Volume.withDisk, blankVolume]),
      hdisk _ (by simp [bootVolume, Volume.setSector, Volume.withDisk, blankVolume])]
  · intro c _
    have hsector : bootVolume.disk (bootVolume.fatStartLba + c * 2 / 512) = Sector.zero :=
      hdisk _ (by simp [bootVolume, Volume.setSector, Volume.withDisk, blankVolume])
    simp [Volume.fat, hsector, Sector.zero, Sector.byte]
  · intro p hp
    have hlba := root_start_le_of_mem_dirSectors
      ((blankVolume_wellFormed (n := 2) (by decide)).sound.withDisk _) (mem_dirSlots.mp hp).1
    rw [Volume.dirent, hdisk _ (by simp [Volume.withDisk, blankVolume] at hlba; omega)]
    exact read_zero_isEnd _

theorem bootVolume_mounted : Mounted bootVolume := ⟨by rfl, by decide⟩

/-- A volume whose root has an empty directory with the name of the credential file. -/
def directoryVolume : Volume := FileOp.after 8 0 authFileName (.create true) bootVolume

/-- The password is stored in the entry of the directory and not accepted afterwards. -/
theorem directory_locks_out :
    WellFormed directoryVolume ∧ Mounted directoryVolume ∧
      ∃ v₁, authSetPassword 8 (Vector.replicate 16 7) [112, 119] directoryVolume = some (true, v₁) ∧
        (authCheckPassword 8 [112, 119] v₁).map Prod.fst = some false := by
  have hrun : FileOp.run 8 0 authFileName (.create true) bootVolume =
    some (true, directoryVolume) :=
    FileOp.run_eq_after (by decide)
  have hwf : WellFormed directoryVolume :=
    FileOp.after_wellFormed bootVolume_wellFormed reachDir_root (by decide) (by decide) trivial
  have hmounted := bootVolume_mounted.congr bootVolume_wellFormed.sound.reliable
    hwf.sound.reliable (FileOp.run_bootKept bootVolume_wellFormed.sound.ordered hrun)
  have hcheck : ((authSetPassword 8 (Vector.replicate 16 7) [112, 119] directoryVolume).bind
      fun r => (authCheckPassword 8 [112, 119] r.2).map fun c => (r.1, c.1)) =
        some (true, false) := by
    decide +kernel
  obtain ⟨⟨b, v₁⟩, hset, hmap⟩ := Option.bind_eq_some_iff.mp hcheck
  obtain ⟨⟨c, v₂⟩, hc, heq⟩ := Option.map_eq_some_iff.mp hmap
  obtain ⟨rfl, rfl⟩ := Prod.mk.inj heq
  exact ⟨hwf, hmounted, v₁, hset, by rw [hc]; rfl⟩

/-- The volume after a password was set on the blank one. -/
def passwordVolume : Volume :=
  ((authSetPassword 8 (Vector.replicate 16 7) [112, 119] bootVolume).map Prod.snd).getD bootVolume

/-- After creating another file and mounting again. -/
theorem password_kept_create :
    (authCheckPassword 8 [112, 119] (fat16Mount
      (FileOp.after 8 0 [65] (.create false) passwordVolume)).2).map Prod.fst = some true := by
  have hset : authSetPassword 8 (Vector.replicate 16 7) [112, 119] bootVolume =
      some (true, passwordVolume) := by
    have hok : (authSetPassword 8 (Vector.replicate 16 7) [112, 119] bootVolume).map Prod.fst =
        some true := by
      decide
    obtain ⟨⟨b, v₁⟩, hrun, rfl⟩ := Option.map_eq_some_iff.mp hok
    rw [passwordVolume, hrun]
    rfl
  have hnone : bootVolume.lookup 0 authName83 = none := by
    have : (bootVolume.lookup 0 authName83).isNone = true := by decide
    simpa using this
  have hcreate : FileOp.run 8 0 [65] (.create false) passwordVolume =
      some (true, FileOp.after 8 0 [65] (.create false) passwordVolume) :=
    FileOp.run_eq_after (by decide)
  have happ : (FileOp.create false).Applies passwordVolume 0 [65] := trivial
  have hrun : LaterRun 8 0 authName83 passwordVolume
      (fat16Mount (FileOp.after 8 0 [65] (.create false) passwordVolume)).2 :=
    .mount (.op .refl reachDir_root (by decide) (by decide) (.inr (by decide)) happ hcreate)
      rfl
  exact (password_kept bootVolume_wellFormed bootVolume_mounted (by decide) (Vector.replicate 16 7)
    (by decide) (fun q hq => absurd (hnone.symm.trans hq) (by simp)) hset hrun).1

end AuroraOS.Auth
