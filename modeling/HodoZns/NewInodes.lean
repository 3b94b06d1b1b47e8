import HodoZns.DirectoryWrites

/-!
# New inodes

What `hodo_create` and `hodo_mkdir` store: an inode without pointers, under a
number that was not in use, and an entry for it in the directory.
-/

namespace NewInodes

open ByteBlock Layout BlockLog ZoneLog LogStore Relocation Programs Kernel StoreMachine FileBlocks
  Ancestry
open BlockForest BlockFields SlotUpdates TreeWrites FileWrites Directories Operations
open DirectoryWrites

theorem fileType_putInodeFields (stack : Block) (f : InodeFields) :
    fileType (putInodeFields stack f) = UInt8.ofNat f.type := by
  simp only [fileType, putInodeFields]
  iterate 5 rw [byteAt_putLE_outside _ _ (by omega)]
  rw [putLE, byteAt_copyIn_inside _ _ (by omega) (by omega) (by omega)]
  simp

theorem inodePtr_putInodeFields {f : InodeFields} (hname : f.name.length ≤ 16) (i : Nat) :
    inodePtr (putInodeFields zeros f) i = 0 := by
  rw [inodePtr, ← getLE_zeros (N := 4096) (104 + 4 * i) 4]
  apply getLE_congr
  intro j hj _
  simp only [putInodeFields]
  iterate 6 rw [byteAt_putLE_outside _ _ (by omega)]
  rw [byteAt_copyIn_outside _ _ (by omega), byteAt_putLE_outside _ _ (by omega),
    byteAt_putLE_outside _ _ (by omega), byteAt_putMagic _ _ _ _ _ (by omega)]

section Fields

variable {k : Kind} {cred : Cred} {name : List UInt8} {mode n : Nat} {now : Timespec}

theorem isDat_storedInode (stack : Block) :
    isDat (storedInode stack k cred name mode n now) = false := by
  rw [storedInode, ← isDat_putInodeFields stack
    ⟨k.fileLen, name, k.type, n, k.modeBits ||| mode, cred.uid, cred.gid⟩]
  exact isDat_congr fun _ hi => byteAt_putTimes _ _ _ _ (by omega)

theorem iIno_storedInode (stack : Block) (hn : n < 2 ^ 32) :
    iIno (storedInode stack k cred name mode n now) = n := by
  rw [iIno, storedInode, getLE_putTimes _ _ _ _ (by omega)]
  exact (iIno_putInodeFields stack _).trans (Nat.mod_eq_of_lt hn)

theorem fileLen_storedInode (stack : Block) (hlen : k.fileLen < 2 ^ 64) :
    fileLen (storedInode stack k cred name mode n now) = k.fileLen := by
  rw [fileLen, storedInode, getLE_putTimes _ _ _ _ (by omega)]
  simp only [putInodeFields]
  iterate 6 rw [getLE_putLE_outside _ _ (by omega)]
  rw [getLE_copyIn_outside _ _ (by omega), getLE_putLE_outside _ _ (by omega),
    getLE_putLE _ _ (by omega)]
  exact Nat.mod_eq_of_lt hlen

theorem fileType_storedInode (stack : Block) :
    fileType (storedInode stack k cred name mode n now) = UInt8.ofNat k.type := by
  rw [fileType, storedInode, byteAt_putTimes _ _ _ _ (by omega)]
  exact fileType_putInodeFields stack _

theorem nameLen_storedInode (stack : Block) (hname : name.length ≤ 16) :
    nameLen (storedInode stack k cred name mode n now) = name.length := by
  rw [nameLen, storedInode, byteAt_putTimes _ _ _ _ (by omega)]
  simp only [putInodeFields]
  iterate 6 rw [byteAt_putLE_outside _ _ (by omega)]
  rw [byteAt_copyIn_outside _ _ (by omega), putLE,
    byteAt_copyIn_inside _ _ (by omega) (by omega) (by omega)]
  simp only [Nat.sub_self, pow_zero, Nat.div_one, UInt8.toNat_ofNat']
  omega

theorem nameByte_storedInode (stack : Block) (hname : name.length ≤ 16) {i : Nat}
    (hi : i < name.length) :
    nameByte (storedInode stack k cred name mode n now) i = name.getD i 0 := by
  rw [nameByte, storedInode, byteAt_putTimes _ _ _ _ (by omega)]
  simp only [putInodeFields]
  iterate 6 rw [byteAt_putLE_outside _ _ (by omega)]
  rw [byteAt_copyIn_inside _ _ (by omega) (by omega) (by omega), Nat.add_sub_cancel_left]

/-- A zero-filled stack leaves no pointers, unless the name runs over them. -/
theorem inodePtr_storedInode (hname : name.length ≤ 16) (i : Nat) :
    inodePtr (storedInode zeros k cred name mode n now) i = 0 := by
  rw [inodePtr, storedInode, getLE_putTimes _ _ _ _ (by omega)]
  exact inodePtr_putInodeFields hname i

theorem no_slot_storedInode (hname : name.length ≤ 16) (i p l : Nat) :
    ¬ Slot (storedInode zeros k cred name mode n now) i p l := by
  intro h
  obtain ⟨_, hp, _⟩ := h.of_inode (isDat_storedInode zeros)
  exact h.ne_zero (hp.symm.trans (inodePtr_storedInode hname i))

end Fields

/-- The inode is stored under `n`, and then the directory is tried. -/
inductive Stored (m : Machine Store) (hinode : Nat → Block) (dir : Nat) (b : Block) :
    Nat → Machine Store → Prop
  | mk (m₁ : Machine Store) {m' : Machine Store} {n : Nat} {r : Int} :
    n < 2 ^ 32 → m.disk.content n = none →
      m₁.disk.content = update m.disk.content n (some (hinode n)) → Valid m₁.disk →
      IsForest m₁.disk.content → m.disk.count < m₁.disk.count → SameInodes m m₁ →
      m₁.disk.content dir = some b → AddResult m₁ dir b (hinode n) 0 r m' →
      Stored m hinode dir b n m'

variable {D : Disk Store} [LikeStore D] {clock : Nat → Timespec} {m : Machine Store}

theorem wp_storeNewInode {k : Kind} {cred : Cred} {name : List UInt8} {mode dir nd : Nat}
    {now : Timespec} {b : Block} (hname : name.length ≤ 16)
    (hdir : (m.inodes dir).iIno % 2 ^ 32 = nd) (valid : Valid m.disk)
    (forest : IsForest m.disk.content) (hb : m.disk.content nd = some b)
    (hdat : isDat b = false) :
    wp (plain D clock) (storeNewInode k cred dir name mode now)
      (Stored m (fun n => storedInode zeros k cred name mode n now) nd b) m := by
  simp only [storeNewInode, wp_bind, wp_auto]
  apply wp_nextLogicalNumber (m := Machine.later m) valid
  intro n s handed
  have hlt := handed.valid.number_lt handed.used
  have hnone : m.disk.content n = none := valid.content_beyond handed.fresh
  apply wp_hodoWrite_inode (m := (Machine.later m).setDisk s) handed.valid handed.used
    (iIno_storedInode zeros hlt)
  intro s' put
  simp only [setDisk_disk] at put
  have hcontent : s'.content = update m.disk.content n
      (some (storedInode zeros k cred name mode n now)) := by
    rw [put.content, handed.content, stamp_of_inode (isDat_storedInode zeros), later_disk]
  have hforest : IsForest s'.content := by
    rw [hcontent]
    refine IsForest.put (j := 0) forest
      (fun h => absurd (h.symm.trans (isDat_storedInode zeros)) (by decide)) ?_ ?_
    · exact fun a i l hp => absurd hp (forest.orphan_of_none hnone a i l)
    · exact fun i p l hslot => absurd hslot (no_slot_storedInode hname i p l)
  have hne : nd ≠ n := by
    rintro rfl
    rw [hnone] at hb
    cases hb
  have hb' : s'.content nd = some b := by
    rw [hcontent, update_other _ _ hne]
    exact hb
  simp only [wp_getInode, wp_pure]
  apply wp_mono _ (wp_addDirent (m := ((Machine.later m).setDisk s).setDisk s') hdir put.valid
    hforest hb' hdat)
  intro r m' hr
  exact Stored.mk (((Machine.later m).setDisk s).setDisk s') hlt hnone hcontent put.valid
    hforest (Nat.lt_of_lt_of_le handed.count_lt put.count_le) ⟨rfl, rfl⟩ hb' hr

end NewInodes
