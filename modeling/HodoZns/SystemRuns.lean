import HodoZns.TreeCalls
import HodoZns.IndexWalks
import HodoZns.FileReads

/-!
# Runs with deletions

Any calls of the file system in any order, the deletions and the collector among
them. As long as no deletion clears the bit of a number in use, every call leaves
alone the inodes that it is not about, with all that is below them.
-/

namespace SystemRuns

open ByteBlock Layout BlockLog ZoneLog NumberAllocator LogCalls LogStore Programs Kernel CallRuns
  StoreMachine
open VolumeMachine FileBlocks Ownership Ancestry BlockForest TreeWrites FileWrites Directories
  Operations
open DirectoryWrites NewInodes FsRuns FileReads Erasures Trees BlockPacking TreeCalls IndexWalks

/-- A call as the tree knows them, or the removal of an entry on its own. -/
inductive SysCall where
  | call (c : TreeCall)
  | remove (dir : Nat) (name : Name)

def SysCall.program : SysCall → Program (Int × Nat)
  | .call c => c.program
  | .remove dir name => do
    let parent ← getInode dir
    let (ret, _) ← removeEntry (parent.iIno % 2 ^ 32) name
    pure (ret, dir)

/-- The VFS inodes that the call is about; a new one does not count. -/
def SysCall.touches : SysCall → List Nat
  | .call (.create _ dir _ _) => [dir]
  | .call (.mkdir _ dir _ _) => [dir]
  | .call (.mkdirBody _ dir _ _) => [dir]
  | .call (.write iocb _) => [iocb.inode]
  | .call (.unlink dir dentry) => [dentry.inode, dir]
  | .call (.rmdir dir dentry) => [dentry.inode, dir]
  | .remove dir _ => [dir]

/-- Whether a call that returned `ret` came to `hodo_erase_table_entry`. -/
def SysCall.erases : SysCall → Int → Bool
  | .call (.unlink _ dentry), _ => !isZoneGroup dentry.parentName
  | .call (.rmdir _ dentry), ret =>
    ret == 0 && !isZoneGroup dentry.name && !isZoneGroup dentry.parentName
  | _, _ => false

/-- The call goes through the operation tables of the inodes. -/
def Issued (inodes : Nat → VfsInode) : SysCall → Prop
  | .call (.create _ dir name _) => (inodes dir).iOp = some .dir ∧ name.length ≤ 16
  | .call (.mkdir _ dir name _) => (inodes dir).iOp = some .dir ∧ name.length ≤ 16
  | .call (.mkdirBody _ dir name _) => (inodes dir).iOp = some .dir ∧ name.length ≤ 16
  | .call (.write iocb _) => (inodes iocb.inode).iFop = some .file
  | .call (.unlink dir dentry) =>
    (inodes dir).iOp = some .dir ∧ (inodes dentry.inode).iFop = some .file
  | .call (.rmdir dir dentry) =>
    (inodes dir).iOp = some .dir ∧ (inodes dentry.inode).iOp = some .dir ∧ dentry.inode ≠ dir
  | .remove dir _ => (inodes dir).iOp = some .dir

instance (inodes : Nat → VfsInode) : (c : SysCall) → Decidable (Issued inodes c)
  | .call (.create _ dir name _) => inferInstanceAs (Decidable
      ((inodes dir).iOp = some .dir ∧ name.length ≤ 16))
  | .call (.mkdir _ dir name _) => inferInstanceAs (Decidable
      ((inodes dir).iOp = some .dir ∧ name.length ≤ 16))
  | .call (.mkdirBody _ dir name _) => inferInstanceAs (Decidable
      ((inodes dir).iOp = some .dir ∧ name.length ≤ 16))
  | .call (.write iocb _) => inferInstanceAs (Decidable ((inodes iocb.inode).iFop = some .file))
  | .call (.unlink dir dentry) => inferInstanceAs (Decidable
      ((inodes dir).iOp = some .dir ∧ (inodes dentry.inode).iFop = some .file))
  | .call (.rmdir dir dentry) => inferInstanceAs (Decidable ((inodes dir).iOp = some .dir ∧
      (inodes dentry.inode).iOp = some .dir ∧ dentry.inode ≠ dir))
  | .remove dir _ => inferInstanceAs (Decidable ((inodes dir).iOp = some .dir))

/-- `hodo_erase_table_entry` clears the bit of no number in use. -/
def SparesBit (m : Machine Volume) : Cmd → Prop
  | .erase n => allocated m.disk.info n = false
  | _ => True

instance (m : Machine Volume) : (c : Cmd) → Decidable (SparesBit m c)
  | .erase n => inferInstanceAs (Decidable (allocated m.disk.info n = false))
  | .startingNumber | .next | .write _ _ | .read _ _ | .gc _ | .kmalloc | .auto | .now | .newInode
  | .inode _ | .setInode _ _ => isTrue trivial

/-- What the collector needs, if the call comes to it. -/
def RoomToCollect (clock : Nat → Timespec) (m : Machine Volume) (intact : Bool) : SysCall → Prop
  | .call c => Collects clock m intact c
  | .remove _ _ => True

instance (clock : Nat → Timespec) (m : Machine Volume) (intact : Bool) : (c : SysCall) →
    Decidable (RoomToCollect clock m intact c)
  | .call c => inferInstanceAs (Decidable (Collects clock m intact c))
  | .remove _ _ => isTrue trivial

/-- The call is one the VFS makes, and numbers and room do not run out on the way. -/
def Permitted (clock : Nat → Timespec) (s : Machine Volume × Bool) (c : SysCall) : Prop :=
  Issued s.1.inodes c ∧ Guarded (machine volumeDisk (zeroFilled clock)) Fits c.program s.1 ∧
    RoomToCollect clock s.1 s.2 c

/-- Nor is a number in use freed. -/
def Admissible (clock : Nat → Timespec) (s : Machine Volume × Bool) (c : SysCall) : Prop :=
  Permitted clock s c ∧ Guarded (machine volumeDisk (zeroFilled clock)) SparesBit c.program s.1

instance (clock : Nat → Timespec) (s : Machine Volume × Bool) (c : SysCall) :
    Decidable (Permitted clock s c) :=
  inferInstanceAs (Decidable (_ ∧ Guarded _ _ _ _ ∧ _))

instance (clock : Nat → Timespec) (s : Machine Volume × Bool) (c : SysCall) :
    Decidable (Admissible clock s c) :=
  inferInstanceAs (Decidable (_ ∧ Guarded _ _ _ _))

def sysStep {σ : Type} (D : Disk σ) (E : Env) (m : Machine σ) (c : SysCall) :
    Option ((Int × Nat) × Machine σ) :=
  match exec (machine D E) c.program m with
  | .done r => some r
  | _ => none

/-- The step with a note beside the machine: whether nothing was erased yet. -/
def notedSysStep (clock : Nat → Timespec) (s : Machine Volume × Bool) (c : SysCall) :
    Option ((Int × Nat) × (Machine Volume × Bool)) :=
  (sysStep volumeDisk (zeroFilled clock) s.1 c).map fun (r, m) => (r, m, s.2 && !c.erases r.1)

/-- The invariant of all calls: a forest of blocks, and the callable inodes of the VFS lead to
different inodes of it. -/
structure LiveInv (a : Machine Store) : Prop extends DiskInv a.disk where
  vfs : VfsTree a.disk.content a.inodes a.inodeCount

/-- Behind the log stands a map that satisfies the invariant. -/
def Live (s : Machine Volume × Bool) : Prop := ∃ a, Follows s.2 s.1 a ∧ LiveInv a

/-- Inodes in use other than `refs`, and all that they lead to, are as they were. -/
structure Leaves (a a' : Machine Store) (refs : List Nat) : Prop where
  count_le : a.disk.count ≤ a'.disk.count
  others : ∀ r, r ∉ refs → Callable (a.inodes r) →
    a'.inodes r = a.inodes r ∧ SameBelow a.disk a'.disk (a.inodes r).iIno

section Invariant

variable {a a' : Machine Store} {dir ref : Nat} {dentry : Dentry}

theorem LiveInv.fs (inv : LiveInv a) : FsInv a := ⟨inv.toDiskInv, inv.vfs.toVfsInv⟩

theorem TreeInv.live {T : Tree} (inv : TreeInv a T) : LiveInv a :=
  ⟨inv.toDiskInv, inv.vfs⟩

theorem Backed.stored {c : Nat → Option Block} {i : VfsInode} (h : Backed c i)
    (hcall : Callable i) : i.iIno < 2 ^ 32 ∧ ∃ b, c i.iIno = some b ∧ isDat b = false := by
  rcases hcall with hdir | hfile
  · obtain ⟨hlt, b, hb, hdat, _⟩ := h.dir hdir
    exact ⟨hlt, b, hb, hdat⟩
  · obtain ⟨hlt, b, hb, hdat, _⟩ := h.file hfile
    exact ⟨hlt, b, hb, hdat⟩

theorem LiveInv.stored (inv : LiveInv a) (hcall : Callable (a.inodes ref)) :
    (a.inodes ref).iIno % 2 ^ 32 = (a.inodes ref).iIno ∧
      ∃ b, a.disk.content (a.inodes ref).iIno = some b ∧ isDat b = false := by
  obtain ⟨hlt, hb⟩ := Backed.stored (inv.vfs.backed ref) hcall
  exact ⟨Nat.mod_eq_of_lt hlt, hb⟩

/-- A directory of the VFS has no index blocks. -/
theorem LiveInv.dirBlock (inv : LiveInv a) (hdir : (a.inodes dir).iOp = some .dir) :
    ∃ b, a.disk.content (a.inodes dir).iIno = some b ∧ isDat b = false ∧ NoIndex b := by
  obtain ⟨_, b, hb, hdat, htype⟩ := (inv.vfs.backed dir).dir hdir
  exact ⟨b, hb, hdat, inv.noIndex hb hdat htype⟩

theorem LiveInv.apart (inv : LiveInv a) {r r' : Nat} (hr : Callable (a.inodes r))
    (hr' : Callable (a.inodes r')) (hne : r ≠ r') : (a.inodes r).iIno ≠ (a.inodes r').iIno :=
  fun heq => hne (inv.vfs.apart r r' hr hr' heq)

/-- No inode is a file and a directory. -/
theorem LiveInv.file_ne_dir (inv : LiveInv a) (hfile : (a.inodes ref).iFop = some .file)
    (hdir : (a.inodes dir).iOp = some .dir) : ref ≠ dir := by
  rintro rfl
  obtain ⟨_, b, hb, _, hreg⟩ := (inv.vfs.backed ref).file hfile
  obtain ⟨_, b', hb', _, hisDir⟩ := (inv.vfs.backed ref).dir hdir
  obtain rfl := Option.some.inj (hb.symm.trans hb')
  exact absurd (hreg.symm.trans hisDir) (by decide)

/-- The disk and the numbers of the inodes stay, and so do their tables unless they are given
up. -/
theorem LiveInv.sameDisk (inv : LiveInv a) (hdisk : a'.disk = a.disk)
    (hcount : a'.inodeCount = a.inodeCount)
    (number : ∀ r, (a'.inodes r).iIno = (a.inodes r).iIno)
    (operations : ∀ r,
      (a'.inodes r).iOp = (a.inodes r).iOp ∧ (a'.inodes r).iFop = (a.inodes r).iFop ∨
      (a'.inodes r).iOp = none ∧ (a'.inodes r).iFop = none) : LiveInv a' := by
  refine ⟨hdisk ▸ inv.toDiskInv, ?_⟩
  rw [hdisk, hcount]
  exact inv.vfs.changed number operations fun _ _ _ hat => hat

theorem LiveInv.sameInodes (inv : LiveInv a) (hdisk : a'.disk = a.disk) (h : SameInodes a a') :
    LiveInv a' :=
  inv.sameDisk hdisk h.inodeCount (fun r => by rw [h.inodes])
    fun r => Or.inl (by rw [h.inodes]; exact ⟨rfl, rfl⟩)

/-- An inode is changed, but not its number and operations. -/
theorem LiveInv.updateInode (inv : LiveInv a) {f : VfsInode → VfsInode}
    (number : (f (a.inodes ref)).iIno = (a.inodes ref).iIno)
    (operations : (f (a.inodes ref)).iOp = (a.inodes ref).iOp ∧
        (f (a.inodes ref)).iFop = (a.inodes ref).iFop ∨
      (f (a.inodes ref)).iOp = none ∧ (f (a.inodes ref)).iFop = none) :
    LiveInv (Machine.updateInode a ref f) := by
  refine inv.sameDisk rfl rfl (fun r => ?_) fun r => ?_
  · by_cases hr : r = ref
    · rw [hr, updateInode_inodes, update_same, number]
    · rw [updateInode_inodes, update_other _ _ hr]
  · by_cases hr : r = ref
    · rw [hr, updateInode_inodes, update_same]
      exact operations
    · rw [updateInode_inodes, update_other _ _ hr]
      exact Or.inl ⟨rfl, rfl⟩

theorem leaves_of_elsewhere (inv : LiveInv a) {refs : List Nat}
    (called : ∀ r ∈ refs, Callable (a.inodes r))
    (elsewhere : Elsewhere a.disk a'.disk (refs.map fun r => (a.inodes r).iIno))
    (inodes : ∀ r, r ∉ refs → Callable (a.inodes r) → a'.inodes r = a.inodes r) :
    Leaves a a' refs := by
  refine ⟨elsewhere.count_le, fun r hr hcall => ⟨inodes r hr hcall, ?_⟩⟩
  obtain ⟨_, b, hb, hdat⟩ := inv.stored hcall
  apply elsewhere.below hb hdat
  intro hmem
  obtain ⟨r', hr', heq⟩ := List.mem_map.mp hmem
  refine inv.apart (called r' hr') hcall ?_ heq
  rintro rfl
  exact hr hr'

theorem leaves_of_same (refs : List Nat) (hdisk : a'.disk = a.disk)
    (inodes : ∀ r, r ∉ refs → a'.inodes r = a.inodes r) : Leaves a a' refs := by
  refine ⟨by rw [hdisk], fun r hr _ => ⟨inodes r hr, ?_⟩⟩
  rw [hdisk]
  exact SameBelow.refl _ _

end Invariant

section Calls

variable {D : Disk Store} [LikeStore D] {clock : Nat → Timespec} {a a' : Machine Store}
  {dir : Nat}

theorem live_of_creation (inv : LiveInv a) (hdir : (a.inodes dir).iOp = some .dir)
    (h : Creation a dir a') : LiveInv a' ∧ Leaves a a' [dir] := by
  constructor
  · refine ⟨h.inv.toDiskInv, ?_⟩
    have vfs := h.inv.vfs
    rw [h.count] at vfs ⊢
    refine inv.vfs.made h.fresh vfs rfl fun r hr => ?_
    by_cases hrd : r = dir
    · rw [hrd]
      exact h.parent
    · rw [h.inodes r hr hrd]
      exact ⟨rfl, rfl, rfl⟩
  · refine leaves_of_elsewhere inv ?_ h.elsewhere fun r hr hcall => ?_
    · intro r hr
      rw [List.mem_singleton.mp hr]
      exact Or.inl hdir
    · exact h.inodes r (Nat.ne_of_lt (callable_lt inv.vfs.toVfsInv hcall))
        (List.ne_of_not_mem_cons hr)

theorem wp_write_live {iocb : Kiocb} {iter : IovIter} (inv : LiveInv a)
    (hfile : (a.inodes iocb.inode).iFop = some .file) :
    wp (plain D clock) (hodoSubFileWriteIter iocb iter)
      (fun _ a' => LiveInv a' ∧ Leaves a a' [iocb.inode]) a := by
  obtain ⟨hlt, b, hb, hdat, htype⟩ := (inv.vfs.backed iocb.inode).file hfile
  apply wp_mono _ (wp_hodoSubFileWriteIter (Nat.mod_eq_of_lt hlt) inv.valid inv.forest hb hdat)
  rintro r a' ⟨⟨b', hwritten⟩, hsize⟩
  constructor
  · refine ⟨inv.toDiskInv.fileWritten hwritten fun hdir => ?_, ?_⟩
    · exact absurd (htype.symm.trans hdir) (by decide)
    · exact inv.vfs.onlySize hsize fun _ _ => FileWritten.inodeAt hwritten inv.forest hb
  · refine leaves_of_elsewhere inv ?_ (FileWritten.elsewhere hwritten inv.forest hb hdat) ?_
    · intro r hr
      rw [List.mem_singleton.mp hr]
      exact Or.inr hfile
    · intro r hr _
      obtain ⟨size, hinodes, _⟩ := hsize
      rw [hinodes, update_other _ _ (List.ne_of_not_mem_cons hr)]

theorem wp_removeEntry_live {name : Name} (inv : LiveInv a)
    (hdir : (a.inodes dir).iOp = some .dir) :
    wp (plain D clock) (removeEntry ((a.inodes dir).iIno % 2 ^ 32) name)
      (fun _ a' => LiveInv a' ∧ Leaves a a' [dir]) a := by
  apply wp_mono _ (wp_removeEntry_changed inv.fs hdir)
  intro r a' changed
  constructor
  · refine ⟨changed.inv, ?_⟩
    rw [changed.inodes.inodes, changed.inodes.inodeCount]
    exact inv.vfs.mono changed.keeps
  · refine leaves_of_elsewhere inv ?_ changed.elsewhere fun r _ _ => ?_
    · intro r hr
      rw [List.mem_singleton.mp hr]
      exact Or.inl hdir
    · rw [changed.inodes.inodes]

end Calls

/-- `hodo_unlink` up to the erasure; the numbers of the directory and of the target. -/
def unlinkNumbers (dir : Nat) (dentry : Dentry) : Program (Nat × Nat) := do
  let now ← currentTime
  setInode dir fun i => i.setTimes now
  let starting ← startingNumber
  let parent ← getInode dir
  let target ← getInode dentry.inode
  pure ((if dir = rootRef then starting else parent.iIno) % 2 ^ 32, target.iIno % 2 ^ 32)

theorem hodoUnlink_eq (dir : Nat) {dentry : Dentry} (h : isZoneGroup dentry.parentName = false) :
    hodoUnlink dir dentry = (do
      let (parentNumber, targetNumber) ← unlinkNumbers dir dentry
      unlinkInode targetNumber
      let _ ← removeEntry parentNumber (nameArg dentry.name)
      setInode dir fun i => { i with iSize := i.iSize - 1 }
      pure 0) := by
  simp only [hodoUnlink, h]
  rfl

/-- The inode of the dentry after `dropped`. -/
def VfsInode.unused (i : VfsInode) : VfsInode := { i with iOp := none, iFop := none }

section Deletion

variable {clock : Nat → Timespec} {intact : Bool} {m : Machine Volume} {a a' : Machine Store}
  {dir : Nat} {dentry : Dentry}

/-- The root is called by the starting number, which is that of its inode. -/
theorem LiveInv.startingNumber (inv : LiveInv a) (ref : Nat) :
    (if ref = rootRef then a.disk.base else (a.inodes ref).iIno) = (a.inodes ref).iIno := by
  split
  case isTrue href => rw [href, inv.vfs.root, inv.valid.base]
  case isFalse => rfl

/-- The numbers are those of the two VFS inodes. -/
theorem wp_unlinkNumbers {E : Env} (inv : LiveInv a) (hdir : (a.inodes dir).iOp = some .dir)
    (hlt : (a.inodes dentry.inode).iIno % 2 ^ 32 = (a.inodes dentry.inode).iIno) :
    wp (machine storeDisk E) (unlinkNumbers dir dentry)
      (fun r a' => r = ((a.inodes dir).iIno, (a.inodes dentry.inode).iIno) ∧ a'.disk = a.disk ∧
        a'.inodeCount = a.inodeCount ∧ a'.tick = a.tick + 1 ∧
        ∃ now, a'.inodes = update a.inodes dir ((a.inodes dir).setTimes now)) a := by
  have hcall : Callable (a.inodes dir) := Or.inl hdir
  have hmod := (inv.stored hcall).1
  have hroot := inv.startingNumber dir
  simp only [unlinkNumbers, wp_bind, wp_currentTime_clock, wp_setInode, wp_startingNumber,
    wp_getInode,
    wp_pure]
  refine ⟨?_, rfl, rfl, rfl, _, rfl⟩
  have hparent : ((Machine.updateInode (Machine.later a) dir
      fun i => i.setTimes (E.clock a.tick)).inodes dir).iIno = (a.inodes dir).iIno := by
    simp only [updateInode_inodes, later_inodes, update_same]
    rfl
  have hinode : ((Machine.updateInode (Machine.later a) dir
      fun i => i.setTimes (E.clock a.tick)).inodes dentry.inode).iIno =
      (a.inodes dentry.inode).iIno := by
    simp only [updateInode_inodes, later_inodes]
    by_cases hd : dentry.inode = dir
    · rw [hd, update_same]
      rfl
    · rw [update_other _ _ hd]
  rw [hparent, hinode, hlt]
  exact congrArg (·, (a.inodes dentry.inode).iIno) ((congrArg (· % 2 ^ 32) hroot).trans hmod)

theorem wp_dropped (Q : Int × Nat → Machine Store → Prop) :
    wp (plain storeDisk clock) (dropped dentry 0) Q a ↔
      Q (0, dentry.inode) (Machine.updateInode a dentry.inode VfsInode.unused) := by
  simp only [dropped, if_pos, wp_bind, wp_setInode, wp_pure]
  rfl

/-- A number whose bit is clear has not been handed out. -/
theorem count_le_of_clear (h : Follows intact m a) {n : Nat}
    (clear : allocated m.disk.info n = false) : a.disk.count ≤ n := by
  obtain ⟨w, _, near, rep⟩ := h.near
  by_contra hlt
  have hn : n < numberMappingTableEntry := Nat.lt_of_lt_of_le (Nat.not_le.mp hlt) rep.count_le
  have hset := (rep.allocated_iff n hn).mpr (Nat.not_le.mp hlt)
  rw [allocated, ← near.bitmap] at hset
  exact absurd (hset.symm.trans clear) (by decide)

/-- What `hodo_unlink` does when it comes to the erasure. -/
inductive Unlinking (a : Machine Store) (dir : Nat) (dentry : Dentry) (a' : Machine Store) : Prop
  | mk {m m' : Machine Store} {b : Block} {r : Int × Nat} {now : Timespec} :
      m.disk = Store.without a.disk (a.inodes dentry.inode).iIno →
      m.disk.content (a.inodes dir).iIno = some b → isDat b = false → NoIndex b →
      RemoveResult m (a.inodes dir).iIno b (nameArg dentry.name) r m' → a'.disk = m'.disk →
      a'.inodeCount = a.inodeCount →
      a'.inodes = update a.inodes dir
        { (a.inodes dir).setTimes now with iSize := (a.inodes dir).iSize - 1 } →
      Unlinking a dir dentry a'

theorem hodoUnlink_runs (inv : LiveInv a) (hdir : (a.inodes dir).iOp = some .dir)
    (hcall : Callable (a.inodes dentry.inode)) (hne : dentry.inode ≠ dir)
    (spare : a.disk.count ≤ (a.inodes dentry.inode).iIno)
    (hzone : isZoneGroup dentry.parentName = false) :
    Safely clock intact false (hodoUnlink dir dentry)
      (fun r a' => r = 0 ∧ Unlinking a dir dentry a') m a := by
  obtain ⟨b, hb, hdat, hnoIndex⟩ := inv.dirBlock hdir
  obtain ⟨hlt, c, hc, hcdat⟩ := inv.stored hcall
  have hused := inv.valid.used hc
  have orphan := inv.forest.orphan_of_inode hc hcdat
  rw [hodoUnlink_eq dir hzone]
  refine safely_bind (safely_of_wp (wp_unlinkNumbers inv hdir hlt)) ?_
  rintro r m₁ a₁ _ ⟨rfl, hdisk₁, hcount₁, _, now, hinodes₁⟩
  refine safely_bind
    (unlinkInode_runs (by rw [hdisk₁]; exact hused) (by rw [hdisk₁]; exact spare)) ?_
  rintro _ m₂ a₂ _ rfl
  apply safely_of_wp
  rw [wp_bind]
  have hdisk : (Machine.later (a₁.setDisk
      (Store.without a₁.disk (a.inodes dentry.inode).iIno))).disk =
      Store.without a.disk (a.inodes dentry.inode).iIno := by
    rw [later_disk, setDisk_disk, hdisk₁]
  have hb' : (Store.without a.disk (a.inodes dentry.inode).iIno).content (a.inodes dir).iIno =
      some b := by
    simp only [Store.without, update_other _ _ (inv.apart (Or.inl hdir) hcall (Ne.symm hne)), hb]
  apply wp_mono _ (wp_removeEntry (by rw [hdisk]; exact valid_without inv.valid)
    (by rw [hdisk]; exact forest_without inv.forest orphan)
      (by rw [hdisk]; exact hb') hdat hnoIndex)
  intro r a₃ hremove
  have hinodes : SameInodes (Machine.later (a₁.setDisk
      (Store.without a₁.disk (a.inodes dentry.inode).iIno))) a₃ := by
    refine (DiskInv.removed ?_ (by rw [hdisk]; exact hb') hdat hnoIndex hremove).inodes
    rw [hdisk]
    exact DiskInv.without inv.toDiskInv orphan
  simp only [wp_bind, wp_setInode, wp_pure]
  have hinodes₃ : a₃.inodes = update a.inodes dir ((a.inodes dir).setTimes now) :=
    hinodes.inodes.trans hinodes₁
  have hinodes₄ : (Machine.updateInode a₃ dir fun i => { i with iSize := i.iSize - 1 }).inodes =
      update a.inodes dir
        { (a.inodes dir).setTimes now with iSize := (a.inodes dir).iSize - 1 } := by
    simp only [updateInode_inodes, hinodes₃, update_same]
    funext r
    by_cases hr : r = dir
    · rw [hr, update_same, update_same]
      rfl
    · rw [update_other _ _ hr, update_other _ _ hr, update_other _ _ hr]
  exact ⟨trivial, .mk hdisk (hdisk ▸ hb') hdat hnoIndex hremove rfl
    (hinodes.inodeCount.trans hcount₁) hinodes₄⟩

/-- After the deletion the VFS gives up the inode of the dentry. -/
theorem live_of_unlinking (inv : LiveInv a) (hdir : (a.inodes dir).iOp = some .dir)
    (hcall : Callable (a.inodes dentry.inode)) (hne : dentry.inode ≠ dir)
    (h : Unlinking a dir dentry a') :
    LiveInv (Machine.updateInode a' dentry.inode VfsInode.unused) ∧
      Leaves a (Machine.updateInode a' dentry.inode VfsInode.unused) [dentry.inode, dir] := by
  obtain ⟨hdisk, hb, hdat, hnoIndex, hremove, hdisk', hcount, hinodes⟩ := h
  obtain ⟨_, c, hc, hcdat⟩ := inv.stored hcall
  have orphan := inv.forest.orphan_of_inode hc hcdat
  have hwithout := DiskInv.without inv.toDiskInv orphan
  rw [← hdisk] at hwithout
  have changed := hwithout.removed hb hdat hnoIndex hremove
  have hgone : (Machine.updateInode a' dentry.inode VfsInode.unused).inodes dentry.inode =
      VfsInode.unused (a.inodes dentry.inode) := by
    rw [updateInode_inodes, update_same, hinodes, update_other _ _ hne]
  have hother : ∀ r, r ≠ dentry.inode → r ≠ dir →
      (Machine.updateInode a' dentry.inode VfsInode.unused).inodes r = a.inodes r := by
    intro r hr hrd
    rw [updateInode_inodes, update_other _ _ hr, hinodes, update_other _ _ hrd]
  have same : ∀ r, r ≠ dentry.inode →
      ((Machine.updateInode a' dentry.inode VfsInode.unused).inodes r).iIno = (a.inodes r).iIno ∧
      ((Machine.updateInode a' dentry.inode VfsInode.unused).inodes r).iOp = (a.inodes r).iOp ∧
      ((Machine.updateInode a' dentry.inode VfsInode.unused).inodes r).iFop =
        (a.inodes r).iFop := by
    intro r hr
    by_cases hrd : r = dir
    · rw [hrd, updateInode_inodes, update_other _ _ (Ne.symm hne), hinodes, update_same]
      exact ⟨rfl, rfl, rfl⟩
    · rw [hother r hr hrd]
      exact ⟨rfl, rfl, rfl⟩
  constructor
  · refine ⟨by rw [updateInode_disk, hdisk']; exact changed.inv, ?_⟩
    rw [updateInode_inodeCount, hcount, updateInode_disk, hdisk']
    refine inv.vfs.changed (fun r => ?_) (fun r => ?_) fun r hr t hat => ?_
    · by_cases hr : r = dentry.inode
      · rw [hr, hgone]
        rfl
      · exact (same r hr).1
    · by_cases hr : r = dentry.inode
      · rw [hr, hgone]
        exact Or.inr ⟨rfl, rfl⟩
      · exact Or.inl (same r hr).2
    · have hrd : r ≠ dentry.inode := by
        rintro rfl
        rw [Callable, hgone] at hr
        rcases hr with hop | hfop
        · cases hop
        · cases hfop
      rw [Callable, (same r hrd).2.1, (same r hrd).2.2] at hr
      apply changed.keeps
      rw [hdisk]
      exact inodeAt_without.mpr ⟨inv.apart hr hcall hrd, hat⟩
  · refine leaves_of_elsewhere inv (fun r hr => ?_) ?_ fun r hr _ => ?_
    · rcases List.mem_pair.mp hr with rfl | rfl
      · exact hcall
      · exact Or.inl hdir
    · rw [updateInode_disk, hdisk']
      exact (elsewhere_without orphan).trans (hdisk ▸ changed.elsewhere)
    · simp only [List.mem_cons, List.not_mem_nil, or_false, not_or] at hr
      exact hother r hr.1 hr.2

end Deletion

/-- A command that leaves the VFS inodes alone. -/
def Quiet : Cmd → Prop
  | .newInode | .setInode _ _ => False
  | _ => True

theorem inodes_of_quiet {σ : Type} {D : Disk σ} {E : Env} {m m' : Machine σ} {c : Cmd} {r : c.Reply}
    (hc : Quiet c) (hstep : machine D E c m = .done (r, m')) :
    m'.inodes = m.inodes ∧ m'.inodeCount = m.inodeCount := by
  cases c with
  | newInode => exact hc.elim
  | setInode ref f => exact hc.elim
  | next | write buf n | read n buf | erase n | gc temp =>
    obtain ⟨_, _, heq⟩ := Outcome.map_eq_done.mp hstep
    obtain ⟨_, rfl⟩ := Prod.mk.inj heq
    exact ⟨rfl, rfl⟩
  | startingNumber | kmalloc | auto | now | inode ref =>
    obtain ⟨_, rfl⟩ := Prod.mk.inj (Outcome.done.inj hstep)
    exact ⟨rfl, rfl⟩

theorem wp_quiet {D : Disk Store} {E : Env} {α : Type} {p : Program α} {a : Machine Store}
    {Q : α → Machine Store → Prop} (quiet : p.Only Quiet) (safe : wp (machine D E) p Q a) :
    wp (machine D E) p (fun r a' => Q r a' ∧ SameInodes a a') a := by
  refine wp_keeps (I := SameInodes a) (fun s c r s' hc same hstep => ?_) quiet (SameInodes.refl a)
    safe
  obtain ⟨hinodes, hcount⟩ := inodes_of_quiet hc hstep
  exact same.trans ⟨hinodes, hcount⟩

/-- Whether the directory of the dentry is empty. -/
def targetEmpty (dentry : Dentry) : Program Bool := do
  let starting ← startingNumber
  let target ← getInode dentry.inode
  let stack ← auto
  let inode ← hodoRead ((if dentry.inode = rootRef then starting else target.iIno) % 2 ^ 32) stack
  checkDirectoryEmpty inode

theorem hodoRmdir_eq (dir : Nat) {dentry : Dentry} (h : isZoneGroup dentry.name = false) :
    hodoRmdir dir dentry = (do
      let empty ← targetEmpty dentry
      if empty then do
        setInode dir fun i => { i with iNlink := i.iNlink - 1 }
        hodoUnlink dir dentry
      else pure eNotEmpty) := by
  simp only [hodoRmdir, h]
  rfl

theorem only_targetEmpty {P : Cmd → Prop} (starts : P .startingNumber) (inodes : ∀ r, P (.inode r))
    (autos : P .auto) (reads : ∀ n buf, P (.read n buf)) (allocates : P .kmalloc)
    (dentry : Dentry) : (targetEmpty dentry).Only P := by
  refine only_bind (only_cmd starts) fun _ => only_bind (only_cmd (inodes _)) fun _ => ?_
  refine only_bind (only_cmd autos) fun stack => only_bind ?_ fun inode => ?_
  · exact only_bind (only_cmd (reads _ _)) fun _ => only_pure _ _
  · exact only_checkDirectoryEmpty reads allocates inode

section Rmdir

variable {clock : Nat → Timespec} {intact : Bool} {m : Machine Volume} {a a' : Machine Store}
  {dir : Nat} {dentry : Dentry}

theorem wp_targetEmpty_live (inv : LiveInv a) (hop : (a.inodes dentry.inode).iOp = some .dir) :
    wp (plain storeDisk clock) (targetEmpty dentry)
      (fun _ a' => a'.disk = a.disk ∧ SameInodes a a') a := by
  apply wp_quiet
  · exact only_targetEmpty trivial (fun _ => trivial) trivial (fun _ _ => trivial) trivial dentry
  · obtain ⟨b, hb, hdat, _⟩ := inv.dirBlock hop
    have hcall : Callable (a.inodes dentry.inode) := Or.inl hop
    have hmod := (inv.stored hcall).1
    simp only [targetEmpty, wp_bind, wp_startingNumber, wp_getInode, wp_auto,
      inv.startingNumber dentry.inode, hmod]
    apply (wp_hodoRead_some (m := Machine.later a) inv.valid hb _ _).mpr
    simp only [checkDirectoryEmpty, wp_bind, wp_kmalloc]
    apply wp_mono _ (wp_walkAll (s := a.disk) (g := fun t (_ : Unit) =>
      if checkDirectoryEmptyFromDirectBlock t then (.inl () : Unit ⊕ Unit) else .inr ())
      (fun _ _ => rfl) inv.valid inv.forest hb hdat zeros () (Machine.later (Machine.later a)) rfl)
    rintro r a' ⟨_, hdisk⟩
    cases r with
    | inl r => exact (wp_pure _ _ _ _).mpr hdisk
    | inr r => exact (wp_pure _ _ _ _).mpr hdisk

end Rmdir

section Steps

variable {clock : Nat → Timespec} {intact : Bool} {m : Machine Volume} {a a' : Machine Store}
  {dir : Nat} {dentry : Dentry}

theorem passive_unlinkNumbers (dir : Nat) (dentry : Dentry) :
    (unlinkNumbers dir dentry).Only Passive := by
  refine only_bind (only_cmd trivial) fun _ => only_bind (only_cmd trivial) fun _ => ?_
  refine only_bind (only_cmd trivial) fun _ => only_bind (only_cmd trivial) fun _ => ?_
  exact only_bind (only_cmd trivial) fun _ => only_pure _ _

/-- Where no number in use is freed, the target has a number that was never handed out as a
bit. -/
theorem count_le_of_spared (h : Follows intact m a) (inv : LiveInv a)
    (hdir : (a.inodes dir).iOp = some .dir) (hcall : Callable (a.inodes dentry.inode))
    (hzone : isZoneGroup dentry.parentName = false)
    (spares : Guarded (machine volumeDisk (zeroFilled clock)) SparesBit (hodoUnlink dir dentry) m) :
    a.disk.count ≤ (a.inodes dentry.inode).iIno := by
  rw [hodoUnlink_eq dir hzone] at spares
  obtain ⟨r, m₁, a₁, hexec, h₁, rfl, hdisk₁, _⟩ := program_follows h
    (guarded_of_only fits_of_passive (passive_unlinkNumbers dir dentry) m)
    (wp_unlinkNumbers (E := zeroFilled clock) inv hdir (inv.stored hcall).1)
  have herase := (guarded_bind.mp ((guarded_bind.mp spares).2 _ _ hexec)).1
  have hclear := (guarded_bind.mp herase).1.1
  exact hdisk₁ ▸ count_le_of_clear h₁ hclear

theorem unlink_live (h : Follows intact m a) (inv : LiveInv a)
    (hdir : (a.inodes dir).iOp = some .dir) (hcall : Callable (a.inodes dentry.inode))
    (hne : dentry.inode ≠ dir)
    (spares : Guarded (machine volumeDisk (zeroFilled clock)) SparesBit (hodoUnlink dir dentry) m) :
    Safely clock intact (intact && isZoneGroup dentry.parentName)
      (hodoUnlink dir dentry >>= dropped dentry)
      (fun r a' => r.1 = 0 ∧ LiveInv a' ∧ Leaves a a' [dentry.inode, dir]) m a := by
  by_cases hzone : isZoneGroup dentry.parentName = true
  · rw [hzone, Bool.and_true]
    apply safely_of_wp
    simp only [hodoUnlink, hzone, if_true, wp_bind, wp_currentTime, wp_setInode,
      wp_pure, wp_dropped]
    have live : LiveInv (Machine.later a) := inv.sameInodes rfl ⟨rfl, rfl⟩
    refine ⟨trivial, LiveInv.updateInode (LiveInv.updateInode live rfl (Or.inl ⟨rfl, rfl⟩)) rfl
      (Or.inr ⟨rfl, rfl⟩), leaves_of_same _ rfl fun r hr => ?_⟩
    simp only [List.mem_cons, List.not_mem_nil, or_false, not_or] at hr
    rw [updateInode_inodes, update_other _ _ hr.1, updateInode_inodes, update_other _ _ hr.2,
      later_inodes]
  · rw [Bool.not_eq_true] at hzone
    rw [hzone, Bool.and_false]
    refine safely_bind (hodoUnlink_runs inv hdir hcall hne
      (count_le_of_spared h inv hdir hcall hzone spares) hzone) ?_
    rintro r m₁ a₁ _ ⟨rfl, unlinking⟩
    apply safely_of_wp
    rw [wp_dropped]
    exact ⟨rfl, live_of_unlinking inv hdir hcall hne unlinking⟩

/-- The directory is the parent of what is deleted, and loses a link. -/
theorem leaves_of_nlink {f : VfsInode → VfsInode}
    (h : Leaves (Machine.updateInode a dir f) a' [dentry.inode, dir]) :
    Leaves a a' [dentry.inode, dir] := by
  refine ⟨h.count_le, fun r hr hcall => ?_⟩
  have hrd : r ≠ dir := by
    rintro rfl
    exact hr (List.mem_cons_of_mem _ List.mem_cons_self)
  have hsame : (Machine.updateInode a dir f).inodes r = a.inodes r := by
    rw [updateInode_inodes, update_other _ _ hrd]
  have hleft := h.others r hr (by rwa [hsame])
  rwa [hsame] at hleft

/-- What `hodo_rmdir` does with a directory that it found empty. -/
theorem rmdir_empty_live {a₁ : Machine Store} {m₁ : Machine Volume} (h : Follows intact m₁ a₁)
    (inv : LiveInv a) (hdisk : a₁.disk = a.disk) (hinodes : SameInodes a a₁)
    (hdir : (a.inodes dir).iOp = some .dir) (hop : (a.inodes dentry.inode).iOp = some .dir)
    (hne : dentry.inode ≠ dir)
    (spares : Guarded (machine volumeDisk (zeroFilled clock)) SparesBit (do
      setInode dir fun i => { i with iNlink := i.iNlink - 1 }
      hodoUnlink dir dentry) m₁) :
    Safely clock intact (intact && isZoneGroup dentry.parentName)
      ((do
        setInode dir fun i => { i with iNlink := i.iNlink - 1 }
        hodoUnlink dir dentry) >>= dropped dentry)
      (fun r a' => r.1 = 0 ∧ LiveInv a' ∧ Leaves a a' [dentry.inode, dir]) m₁ a₁ := by
  have hset : wp (plain storeDisk clock) (setInode dir fun i => { i with iNlink := i.iNlink - 1 })
      (fun _ a₂ => a₂ = Machine.updateInode a₁ dir fun i => { i with iNlink := i.iNlink - 1 }) a₁ :=
    (wp_setInode _ _ _).mpr rfl
  have inv₁ : LiveInv (Machine.updateInode a₁ dir fun i => { i with iNlink := i.iNlink - 1 }) :=
    LiveInv.updateInode (inv.sameInodes hdisk hinodes) rfl (Or.inl ⟨rfl, rfl⟩)
  have hdir₁ : ((Machine.updateInode a₁ dir fun i => { i with iNlink := i.iNlink - 1 }).inodes
      dir).iOp = some .dir := by
    rw [updateInode_inodes, update_same, hinodes.inodes]
    exact hdir
  have hcall₁ : Callable ((Machine.updateInode a₁ dir fun i =>
      { i with iNlink := i.iNlink - 1 }).inodes dentry.inode) := by
    rw [updateInode_inodes, update_other _ _ hne, hinodes.inodes]
    exact Or.inl hop
  rw [bind_assoc]
  intro h₁ fits
  obtain ⟨_, m₂, a₂, hexec, h₂, rfl⟩ := program_follows h (guarded_bind.mp fits).1 hset
  have spares₂ := (guarded_bind.mp spares).2 _ _ hexec
  have rest := unlink_live h₂ inv₁ hdir₁ hcall₁ hne spares₂ h₂ ((guarded_bind.mp fits).2 _ _ hexec)
  obtain ⟨r, m', a', hexec', h', hr, live, leaves⟩ := rest
  refine ⟨r, m', a', (exec_bind_done hexec _).trans hexec', h', hr, live, ?_⟩
  have hleft := leaves_of_nlink leaves
  refine ⟨hdisk ▸ hleft.count_le, fun r hr hcall => ?_⟩
  have hsame := hleft.others r hr (by rwa [hinodes.inodes])
  rwa [hinodes.inodes, hdisk] at hsame

theorem rmdir_live (h : Follows intact m a) (inv : LiveInv a)
    (hdir : (a.inodes dir).iOp = some .dir) (hop : (a.inodes dentry.inode).iOp = some .dir)
    (hne : dentry.inode ≠ dir)
    (fits : Guarded (machine volumeDisk (zeroFilled clock)) Fits
      (TreeCall.rmdir dir dentry).program m)
    (spares : Guarded (machine volumeDisk (zeroFilled clock)) SparesBit
      (TreeCall.rmdir dir dentry).program m) :
    ∃ r m' a', exec (machine volumeDisk (zeroFilled clock)) (TreeCall.rmdir dir dentry).program m =
        .done (r, m') ∧
      Follows (intact && !(SysCall.call (.rmdir dir dentry)).erases r.1) m' a' ∧ LiveInv a' ∧
      Leaves a a' [dentry.inode, dir] := by
  simp only [TreeCall.program, SysCall.erases] at fits spares ⊢
  by_cases hzone : isZoneGroup dentry.name = true
  · have hreturn : wp (plain storeDisk clock) (hodoRmdir dir dentry >>= dropped dentry)
        (fun r a' => LiveInv a' ∧ Leaves a a' [dentry.inode, dir]) a := by
      simp only [hodoRmdir, hzone, if_true, wp_bind, wp_pure, wp_dropped]
      refine ⟨LiveInv.updateInode inv rfl (Or.inr ⟨rfl, rfl⟩), leaves_of_same _ rfl fun r hr => ?_⟩
      rw [updateInode_inodes, update_other _ _ (List.ne_of_not_mem_cons hr)]
    obtain ⟨r, m', a', hexec, h', hlive⟩ := program_follows h fits hreturn
    refine ⟨r, m', a', hexec, ?_, hlive⟩
    simpa only [hzone, Bool.not_true, Bool.and_false, Bool.false_and, Bool.not_false,
      Bool.and_true] using h'
  · rw [Bool.not_eq_true] at hzone
    rw [hodoRmdir_eq dir hzone, bind_assoc] at fits spares ⊢
    obtain ⟨empty, m₁, a₁, hexec, h₁, hdisk, hinodes⟩ := program_follows h (guarded_bind.mp fits).1
      (wp_targetEmpty_live inv hop)
    have fits₁ := (guarded_bind.mp fits).2 _ _ hexec
    have spares₁ := (guarded_bind.mp spares).2 _ _ hexec
    rw [exec_bind_done hexec]
    cases empty with
    | false =>
      have hkept : wp (plain storeDisk clock) (pure eNotEmpty >>= dropped dentry)
          (fun r a' => r.1 = eNotEmpty ∧ a' = a₁) a₁ := by
        simp only [wp_bind, wp_pure, dropped, if_neg (show ¬ eNotEmpty = 0 by decide)]
        exact ⟨trivial, trivial⟩
      obtain ⟨r, m', a', hexec', h', hr, rfl⟩ := program_follows h₁ fits₁ hkept
      refine ⟨r, m', a', hexec', ?_, inv.sameInodes hdisk hinodes,
        leaves_of_same _ hdisk fun r _ => by rw [hinodes.inodes]⟩
      rw [hr, show (eNotEmpty == 0) = false by decide]
      simpa only [Bool.false_and, Bool.not_false, Bool.and_true] using h'
    | true =>
      obtain ⟨r, m', a', hexec', h', hr, hlive⟩ :=
        rmdir_empty_live h₁ inv hdisk hinodes hdir hop hne
        (guarded_bind.mp spares₁).1 h₁ fits₁
      refine ⟨r, m', a', hexec', ?_, hlive⟩
      simpa only [hr, hzone, beq_self_eq_true, Bool.not_false, Bool.and_true, Bool.true_and,
        Bool.not_not] using h'

theorem mkdir_live {cred : Cred} {name : List UInt8} {mode : Nat} (inv : LiveInv a)
    (hdir : (a.inodes dir).iOp = some .dir) (hname : name.length ≤ 16)
    (collects : Collects clock m intact (.mkdir cred dir name mode)) :
    Safely clock intact intact (TreeCall.mkdir cred dir name mode).program
      (fun _ a' => LiveInv a' ∧ Leaves a a' [dir]) m a := by
  obtain ⟨rfl, room⟩ := collects
  simp only [TreeCall.program, hodoMkdir]
  refine safely_bind (safely_of_wp (wp_hodoMkdirBody inv.fs hdir hname)) ?_
  rintro r m₁ a₁ hexec creation
  have hkmalloc : exec (machine volumeDisk (zeroFilled clock)) kmallocUnchecked m₁ =
      .done (zeros, { m₁ with tick := m₁.tick + 1 }) := rfl
  have htemp : wp (plain storeDisk clock) kmallocUnchecked (fun _ a₂ => a₂ = Machine.later a₁) a₁ :=
    (wp_kmallocUnchecked _).mpr rfl
  refine safely_bind (safely_of_wp htemp) ?_
  rintro temp m₂ a₂ hexec₂ rfl
  obtain ⟨rfl, rfl⟩ := Prod.mk.inj (Outcome.done.inj (hkmalloc.symm.trans hexec₂))
  refine safely_bind (collect_runs (m := { m₁ with tick := m₁.tick + 1 }) (a := Machine.later a₁)
    (room _ hexec).1 (room _ hexec).2 zeros) ?_
  rintro _ m₃ a₃ _ rfl
  apply safely_of_wp
  rw [wp_pure]
  obtain ⟨live, leaves⟩ := live_of_creation inv hdir creation
  exact ⟨LiveInv.sameInodes live rfl ⟨rfl, rfl⟩, leaves.count_le, leaves.others⟩

/-- Every call ends, and leaves the inodes alone that it is not about. -/
theorem sys_step {c : SysCall} (h : Follows intact m a) (inv : LiveInv a)
    (admissible : Admissible clock (m, intact) c) :
    ∃ r s' a', notedSysStep clock (m, intact) c = some (r, s') ∧ Follows s'.2 s'.1 a' ∧
      LiveInv a' ∧ Leaves a a' c.touches := by
  obtain ⟨⟨issued, fits, collects⟩, spares⟩ := admissible
  simp only [h.inodes] at issued
  suffices runs : ∃ r m' a',
    exec (machine volumeDisk (zeroFilled clock)) c.program m = .done (r, m') ∧
      Follows (intact && !c.erases r.1) m' a' ∧ LiveInv a' ∧ Leaves a a' c.touches by
    obtain ⟨r, m', a', hexec, h', hlive⟩ := runs
    exact ⟨r, (m', intact && !c.erases r.1), a',
      by simp only [notedSysStep, sysStep, hexec, Option.map_some], h', hlive⟩
  have passes : ∀ {r : Int × Nat} {m' : Machine Volume} {a' : Machine Store},
      c.erases r.1 = false → Follows intact m' a' → Follows (intact && !c.erases r.1) m' a' := by
    intro r m' a' hr h'
    rwa [hr, Bool.not_false, Bool.and_true]
  have follows : ∀ {Q : Int × Nat → Machine Store → Prop},
      (∀ ret, c.erases ret = false) → wp (plain storeDisk clock) c.program Q a →
      (∀ r a', Q r a' → LiveInv a' ∧ Leaves a a' c.touches) →
      ∃ r m' a', exec (machine volumeDisk (zeroFilled clock)) c.program m = .done (r, m') ∧
        Follows (intact && !c.erases r.1) m' a' ∧ LiveInv a' ∧ Leaves a a' c.touches := by
    intro Q hret safe hQ
    obtain ⟨r, m', a', hexec, h', hq⟩ := program_follows h fits safe
    exact ⟨r, m', a', hexec, passes (hret _) h', hQ r a' hq⟩
  cases c with
  | remove dir name =>
    refine follows (Q := fun _ a' => LiveInv a' ∧ Leaves a a' [dir]) (fun _ => rfl) ?_
      fun _ _ hlive => hlive
    simp only [SysCall.program, wp_bind, wp_getInode, wp_pure]
    exact wp_removeEntry_live inv issued
  | call c =>
    cases c with
    | create cred dir name mode =>
      exact follows (fun _ => rfl) (wp_hodoCreate inv.fs issued.1 issued.2)
        fun _ _ => live_of_creation inv issued.1
    | mkdirBody cred dir name mode =>
      exact follows (fun _ => rfl) (wp_hodoMkdirBody inv.fs issued.1 issued.2)
        fun _ _ => live_of_creation inv issued.1
    | mkdir cred dir name mode =>
      obtain ⟨r, m', a', hexec, h', hlive⟩ :=
        mkdir_live inv issued.1 issued.2 collects h fits
      exact ⟨r, m', a', hexec, passes rfl h', hlive⟩
    | write iocb iter =>
      refine follows (Q := fun _ a' => LiveInv a' ∧ Leaves a a' [iocb.inode]) (fun _ => rfl) ?_
        fun _ _ hlive => hlive
      simp only [SysCall.program, TreeCall.program, wp_bind, wp_pure]
      exact wp_write_live inv issued
    | unlink dir dentry =>
      have hne := inv.file_ne_dir issued.2 issued.1
      obtain ⟨r, m', a', hexec, h', _, hlive⟩ := unlink_live h inv issued.1 (Or.inr issued.2) hne
        (guarded_bind.mp spares).1 h fits
      refine ⟨r, m', a', hexec, ?_, hlive⟩
      simpa only [SysCall.erases, Bool.not_not] using h'
    | rmdir dir dentry =>
      exact rmdir_live h inv issued.1 issued.2.1 issued.2.2 fits spares

end Steps

theorem live_mounted (uid gid groups : Nat) (now : Timespec) :
    LiveInv (mounted (mountedStore zeros uid gid) groups now) := by
  have inv := fsInv_mounted uid gid groups now
  refine ⟨inv.toDiskInv, inv.vfs, rfl, Nat.zero_lt_one, fun r r' hr hr' _ => ?_⟩
  have hlt := callable_lt inv.vfs hr
  have hlt' := callable_lt inv.vfs hr'
  have hone : (mounted (mountedStore zeros uid gid) groups now).inodeCount = 1 := rfl
  omega

/-- Every run of admissible calls from a first mount ends, and follows a machine over the plain
map. -/
theorem sys_run (clock : Nat → Timespec) (uid gid groups : Nat) (now : Timespec)
    {cs : List SysCall}
    (calls : EachCall (notedSysStep clock) (Admissible clock) cs
      (firstMounted uid gid groups now, true)) :
    ∃ as s, run (notedSysStep clock) cs (firstMounted uid gid groups now, true) = some (as, s) ∧
      Live s := by
  refine run_total (Admissible clock) Live ?_
    ⟨_, follows_mounted zeros uid gid groups now, live_mounted uid gid groups now⟩ calls
  rintro ⟨m, intact⟩ c ⟨a, follows, inv⟩ admissible
  obtain ⟨r, s', a', hstep, follows', inv', _⟩ := sys_step follows inv admissible
  exact ⟨r, s', hstep, a', follows', inv'⟩

/-- What is stored under the number is not what a deletion left there: nothing was deleted yet,
or the inode is one of the VFS. -/
def InUse (s : Machine Volume × Bool) (n : Nat) : Prop :=
  s.2 = true ∨ ∃ ref, Callable (s.1.inodes ref) ∧ (s.1.inodes ref).iIno = n

theorem stored_of_inUse {intact : Bool} {m : Machine Volume} {a : Machine Store} {n : Nat}
    {b : Block} (h : Follows intact m a) (inv : LiveInv a) (inUse : InUse (m, intact) n)
    (hb : onDisk m.disk n = some b) : a.disk.content n = some b := by
  rcases inUse with rfl | ⟨ref, hcall, rfl⟩
  · rwa [Represents.onDisk h.represents] at hb
  · simp only [h.inodes] at hcall hb ⊢
    obtain ⟨_, b', hb', _⟩ := inv.stored hcall
    rw [onDisk_of_follows h hb'] at hb
    rw [hb', hb]

end SystemRuns
