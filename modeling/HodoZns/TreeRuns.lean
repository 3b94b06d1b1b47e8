import HodoZns.SystemRuns

/-!
# Runs on the directory tree

What the deletions do to the tree, and with them any call. As long as no deletion
frees a number in use, a run over the log changes the tree as its calls say.
-/

namespace TreeRuns

open ByteBlock Layout BlockLog ZoneLog NumberAllocator LogCalls LogStore Programs Kernel CallRuns
  StoreMachine
open VolumeMachine FileBlocks BlockForest TreeWrites FileWrites Directories Operations
open DirectoryWrites NewInodes FsRuns Ownership FileContents DirectoryBlocks DirectoryMaps
open Erasures Trees BlockPacking TreeCalls SystemRuns

section Deletion

variable {clock : Nat → Timespec} {intact : Bool} {m : Machine Volume} {a a' : Machine Store}
  {T : Tree} {dir : Nat} {dentry : Dentry} {e : Entry}

/-- What a deletion does that came to the erasure. -/
structure Deletes (a : Machine Store) (T : Tree) (dir : Nat) (dentry : Dentry) (isDir : Bool)
    (e : Entry) (a' : Machine Store) : Prop where
  mem : e ∈ T (a.inodes dir).iIno
  name : e.name.bytes = dentry.name
  target : e.iIno = (a.inodes dentry.inode).iIno
  type : e.isDir = isDir
  count : a'.inodeCount = a.inodeCount
  parent : ∃ now, a'.inodes dir = { (a.inodes dir).setTimes now with
    iSize := (a.inodes dir).iSize - 1
    iNlink := (a.inodes dir).iNlink - if isDir then 1 else 0 }
  other : ∀ r, r ≠ dir → r ≠ dentry.inode → a'.inodes r = a.inodes r
  gone : (a'.inodes dentry.inode).iOp = none
  inv : TreeInv a' (leave T (a.inodes dir).iIno e.name)

theorem deletes_of_unlinking {isDir : Bool} {a₁ : Machine Store} (inv : TreeInv a₁ T)
    (hdir : (a₁.inodes dir).iOp = some .dir) (hcall : Callable (a₁.inodes dentry.inode))
    (hne : dentry.inode ≠ dir) (he : e ∈ T (a.inodes dir).iIno)
    (hname : e.name.bytes = dentry.name) (htarget : e.iIno = (a.inodes dentry.inode).iIno)
    (htype : e.isDir = isDir) (hempty : T e.iIno = ∅) (hcount : a₁.inodeCount = a.inodeCount)
    (hinodes : a₁.inodes = update a.inodes dir
      { a.inodes dir with iNlink := (a.inodes dir).iNlink - if isDir then 1 else 0 })
    (h : Unlinking a₁ dir dentry a') :
    Deletes a T dir dentry isDir e (Machine.updateInode a' dentry.inode VfsInode.unused) := by
  have live := (live_of_unlinking (TreeInv.live inv) hdir hcall hne h).1
  have hparent : (a₁.inodes dir).iIno = (a.inodes dir).iIno := by rw [hinodes, update_same]
  have hnumber : (a₁.inodes dentry.inode).iIno = e.iIno := by
    rw [hinodes, update_other _ _ hne, htarget]
  have hapart := LiveInv.apart (TreeInv.live inv) (Or.inl hdir) hcall (Ne.symm hne)
  have harg : nameArg dentry.name = e.name.arg := by rw [FileName.arg, hname]
  obtain @⟨_, _, b, r, now, hdisk₂, hb, _, _, hremove, hdisk, hcount', hinodes'⟩ := h
  rw [hnumber] at hdisk₂ hapart
  rw [hparent] at hb hremove hapart
  rw [harg] at hremove
  obtain ⟨_, _, htree, _⟩ := inv.toDiskTree.removed he hempty hapart hdisk₂ hb hremove
  refine ⟨he, hname, htarget, htype, hcount'.trans hcount, ⟨now, ?_⟩, fun r hr hrd => ?_, ?_,
    ⟨?_, live.vfs⟩⟩
  · rw [updateInode_inodes, update_other _ _ (Ne.symm hne), hinodes', update_same, hinodes,
      update_same]
    rfl
  · rw [updateInode_inodes, update_other _ _ hrd, hinodes', update_other _ _ hr, hinodes,
      update_other _ _ hr]
  · rw [updateInode_inodes, update_same]
    rfl
  · rw [updateInode_disk, hdisk]
    exact htree

end Deletion

/-- Directory, name and kind of what the call makes. -/
def TreeCall.creates : TreeCall → Option (Nat × List UInt8 × Bool)
  | .create _ dir name _ => some (dir, name, false)
  | .mkdir _ dir name _ => some (dir, name, true)
  | .mkdirBody _ dir name _ => some (dir, name, true)
  | _ => none

def TreeCall.deletes : TreeCall → Option (Nat × Dentry × Bool)
  | .unlink dir dentry => some (dir, dentry, false)
  | .rmdir dir dentry => some (dir, dentry, true)
  | _ => none

/-- How a call changes the tree, and what it answers. -/
inductive Effect (a : Machine Store) (T : Tree) (c : TreeCall) :
    Int × Nat → Machine Store → Tree → Prop
  | created {dir : Nat} {name : FileName} {isDir : Bool} {e : Entry} {a' : Machine Store} :
      TreeCall.creates c = some (dir, name.bytes, isDir) →
      Creates a T dir name isDir (if isDir then 0 else 1) e a' →
      Effect a T c (0, a.inodeCount) a' (enter T (a.inodes dir).iIno e)
  | written {iocb : Kiocb} {iter : IovIter} {r : Int} {a' : Machine Store} :
      c = .write iocb iter → OnlySize a a' iocb.inode → TreeInv a' T →
      Grown a.disk.content a'.disk.content (a.inodes iocb.inode).iIno →
      Effect a T c (r, iocb.inode) a' T
  | deleted {dir : Nat} {dentry : Dentry} {isDir : Bool} {e : Entry} {a' : Machine Store} :
      TreeCall.deletes c = some (dir, dentry, isDir) → Deletes a T dir dentry isDir e a' →
      erased a.disk.content a.inodes c = some e.iIno →
      Effect a T c (0, dentry.inode) a' (leave T (a.inodes dir).iIno e.name)
  | kept {dir : Nat} {dentry : Dentry} {isDir : Bool} {r : Int} {a' : Machine Store} :
      TreeCall.deletes c = some (dir, dentry, isDir) →
      (r = 0 → isZoneGroup dentry.name = true ∨ isZoneGroup dentry.parentName = true) →
      a'.disk = a.disk → TreeInv a' T → (r ≠ 0 → SameInodes a a') →
      Effect a T c (r, dentry.inode) a' T

section Steps

variable {clock : Nat → Timespec} {intact : Bool} {m : Machine Volume} {a : Machine Store}
  {T : Tree} {dir : Nat} {name : List UInt8} {dentry : Dentry}

theorem Effect.inv {c : TreeCall} {r : Int × Nat} {a' : Machine Store} {T' : Tree}
    (h : Effect a T c r a' T') : TreeInv a' T' := by
  cases h with
  | created _ h => exact h.inv
  | written _ _ h _ => exact h
  | deleted _ h => exact h.inv
  | kept _ _ _ h _ => exact h

/-- The directory that a call is about can be used. -/
theorem dir_of_called {c : TreeCall} (h : Follows intact m a)
    (called : Called (onDisk m.disk) m.inodes c) :
    (∀ name isDir, TreeCall.creates c = some (dir, name, isDir) →
      (a.inodes dir).iOp = some .dir) ∧
    ∀ dentry isDir, TreeCall.deletes c = some (dir, dentry, isDir) →
      (a.inodes dir).iOp = some .dir := by
  rw [h.inodes] at called
  cases c with
  | create | mkdir | mkdirBody =>
    refine ⟨fun name isDir hc => ?_, fun _ _ hc => nomatch hc⟩
    obtain ⟨rfl, _⟩ := Prod.mk.inj (Option.some.inj hc)
    exact called.1
  | write => exact ⟨fun _ _ hc => (nomatch hc), fun _ _ hc => nomatch hc⟩
  | unlink =>
    refine ⟨fun _ _ hc => (nomatch hc), fun dentry isDir hc => ?_⟩
    obtain ⟨rfl, _⟩ := Prod.mk.inj (Option.some.inj hc)
    exact called.2.1
  | rmdir =>
    refine ⟨fun _ _ hc => (nomatch hc), fun dentry isDir hc => ?_⟩
    obtain ⟨rfl, _⟩ := Prod.mk.inj (Option.some.inj hc)
    exact called.2.2.1

theorem TreeInv.sameInodes {a' : Machine Store} (inv : TreeInv a T) (hdisk : a'.disk = a.disk)
    (h : SameInodes a a') : TreeInv a' T :=
  inv.sameDisk hdisk h.inodeCount (fun r => by rw [h.inodes]) fun r =>
    Or.inl (by rw [h.inodes]; simp)

/-- An inode is changed, but not its number and operations. -/
theorem TreeInv.updateInode (inv : TreeInv a T) {ref : Nat} {f : VfsInode → VfsInode}
    (number : (f (a.inodes ref)).iIno = (a.inodes ref).iIno)
    (hop : (f (a.inodes ref)).iOp = (a.inodes ref).iOp)
    (hfop : (f (a.inodes ref)).iFop = (a.inodes ref).iFop) :
    TreeInv (Machine.updateInode a ref f) T := by
  refine inv.sameDisk rfl rfl (fun r => ?_) fun r => Or.inl ?_
  · by_cases hr : r = ref
    · rw [hr, updateInode_inodes, update_same, number]
    · rw [updateInode_inodes, update_other _ _ hr]
  · by_cases hr : r = ref
    · rw [hr, updateInode_inodes, update_same, hop, hfop]
      exact ⟨rfl, rfl⟩
    · rw [updateInode_inodes, update_other _ _ hr]
      exact ⟨rfl, rfl⟩

theorem TreeInv.unused (inv : TreeInv a T) (ref : Nat) :
    TreeInv (Machine.updateInode a ref VfsInode.unused) T := by
  refine inv.sameDisk rfl rfl (fun r => ?_) fun r => ?_
  · by_cases hr : r = ref
    · rw [hr, updateInode_inodes, update_same]
      rfl
    · rw [updateInode_inodes, update_other _ _ hr]
  · by_cases hr : r = ref
    · rw [hr, updateInode_inodes, update_same]
      exact Or.inr ⟨rfl, rfl⟩
    · rw [updateInode_inodes, update_other _ _ hr]
      exact Or.inl ⟨rfl, rfl⟩

theorem DirsHold.vacant (h : Follows intact m a) (tree : DirsHold a.disk T)
    (hat : InodeAt a.disk.content (a.inodes dir).iIno hodoTypeDir)
    (vacant : Vacant (onDisk m.disk) m.inodes dir name) :
    (a.inodes dir).iOp = some .dir ∧ ∃ n : FileName, n.bytes = name ∧
      ∀ e ∈ T (a.inodes dir).iIno, e.name ≠ n := by
  rw [h.inodes] at vacant
  obtain ⟨hdir, ⟨hpos, hle, hnul⟩, hno⟩ := vacant
  refine ⟨hdir, ⟨name, hpos, hle, hnul⟩, rfl, fun e he hname => ?_⟩
  obtain ⟨es, _, hes, hdirents⟩ := DirsHold.direntsOf tree h hat
  rw [← hes, List.mem_toFinset] at he
  have hhas := hno e.record (by rw [hdirents]; exact List.mem_map_of_mem he)
  rw [show nameArg name = FileName.arg ⟨name, hpos, hle, hnul⟩ from rfl, ← hname,
    (hasName_record e e.name).mpr rfl] at hhas
  cases hhas

theorem DirsHold.linked (h : Follows intact m a) (tree : DirsHold a.disk T)
    (hat : InodeAt a.disk.content (a.inodes dir).iIno hodoTypeDir)
    (linked : Linked (onDisk m.disk) m.inodes dir dentry) :
    (a.inodes dir).iOp = some .dir ∧ ∃ e ∈ T (a.inodes dir).iIno,
      e.name.bytes = dentry.name ∧ e.iIno = (a.inodes dentry.inode).iIno := by
  rw [h.inodes] at linked
  obtain ⟨hdir, ⟨hpos, hle, hnul⟩, d, hd, hname, hino⟩ := linked
  obtain ⟨es, _, hes, hdirents⟩ := DirsHold.direntsOf tree h hat
  rw [hdirents] at hd
  obtain ⟨e, he, rfl⟩ := List.mem_map.mp hd
  refine ⟨hdir, e, by rwa [← hes, List.mem_toFinset], ?_, (iIno_record e).symm.trans hino⟩
  have heq := (hasName_record e ⟨dentry.name, hpos, hle, hnul⟩).mp hname
  exact congrArg FileName.bytes heq

theorem vacant_of_called (h : Follows intact m a) (inv : TreeInv a T)
    (vacant : Vacant (onDisk m.disk) m.inodes dir name) :
    (a.inodes dir).iOp = some .dir ∧ ∃ n : FileName, n.bytes = name ∧
      ∀ e ∈ T (a.inodes dir).iIno, e.name ≠ n :=
  DirsHold.vacant h inv.toDirsHold (inv.dirAt (h.inodes ▸ vacant.1)).2 vacant

theorem entry_of_linked (h : Follows intact m a) (inv : TreeInv a T)
    (linked : Linked (onDisk m.disk) m.inodes dir dentry) :
    (a.inodes dir).iOp = some .dir ∧ ∃ e ∈ T (a.inodes dir).iIno,
      e.name.bytes = dentry.name ∧ e.iIno = (a.inodes dentry.inode).iIno :=
  DirsHold.linked h inv.toDirsHold (inv.dirAt (h.inodes ▸ linked.1)).2 linked

theorem TreeInv.fileEmpty (inv : TreeInv a T) {ref : Nat}
    (hfile : (a.inodes ref).iFop = some .file) :
    T (a.inodes ref).iIno = ∅ := by
  rw [Finset.eq_empty_iff_forall_notMem]
  intro e he
  obtain ⟨_, b, hb, _, hreg⟩ := (inv.vfs.backed ref).file hfile
  obtain ⟨b', hb', _, hdir⟩ := inv.inDirs he
  obtain rfl := Option.some.inj (hb.symm.trans hb')
  exact absurd (hreg.symm.trans hdir) (by decide)

/-- The kind of an entry is that of the inode it leads to. -/
theorem TreeInv.entryKind (inv : TreeInv a T) {n : Nat} {e : Entry} (he : e ∈ T n) {isDir : Bool}
    (hat : InodeAt a.disk.content e.iIno (if isDir then hodoTypeDir else hodoTypeReg)) :
    e.isDir = isDir := by
  obtain ⟨b, hb, _, htype⟩ := inv.target he
  obtain ⟨b', hb', _, htype'⟩ := hat
  obtain rfl := Option.some.inj (hb.symm.trans hb')
  have heq := htype.symm.trans htype'
  rw [entryType] at heq
  revert heq
  cases e.isDir <;> cases isDir <;> decide

theorem wp_unlink_zone (inv : TreeInv a T) (hzone : isZoneGroup dentry.parentName = true) :
    wp (plain storeDisk clock) (hodoUnlink dir dentry)
      (fun r a' => r = 0 ∧ a'.disk = a.disk ∧ TreeInv a' T) a := by
  simp only [hodoUnlink, hzone, if_true, wp_bind, wp_currentTime, wp_setInode, wp_pure]
  exact ⟨trivial, rfl, TreeInv.updateInode (a := Machine.later a)
    (TreeInv.sameInodes inv rfl ⟨rfl, rfl⟩) rfl rfl rfl⟩

end Steps

section Runs

variable {clock : Nat → Timespec} {intact : Bool} {m : Machine Volume} {a : Machine Store}
  {T : Tree} {dir : Nat} {dentry : Dentry}

theorem wp_targetEmpty (inv : TreeInv a T) (hop : (a.inodes dentry.inode).iOp = some .dir) :
    wp (plain storeDisk clock) (targetEmpty dentry)
      (fun r a' => (r = true ↔ T (a.inodes dentry.inode).iIno = ∅) ∧ a'.disk = a.disk ∧
        SameInodes a a') a := by
  obtain ⟨hmod, hat⟩ := inv.dirAt hop
  obtain ⟨b, ds, h, hds⟩ := inv.dirs hat
  have hroot := LiveInv.startingNumber (TreeInv.live inv) dentry.inode
  simp only [targetEmpty, wp_bind, wp_startingNumber, wp_getInode, wp_auto, hroot, hmod]
  apply (wp_hodoRead_some (m := Machine.later a) inv.valid h.inode _ _).mpr
  apply wp_mono _ (wp_checkDirectoryEmpty (m := Machine.later a) inv.valid inv.forest h.blocks)
  rintro r a' ⟨rfl, rfl⟩
  refine ⟨?_, rfl, rfl, rfl⟩
  rw [← hds, List.isEmpty_iff, List.toFinset_eq_empty_iff]

/-- An entry does not lead to the directory that holds it. -/
theorem TreeInv.apartFrom (inv : TreeInv a T) (hdir : (a.inodes dir).iOp = some .dir)
    (hcall : Callable (a.inodes dentry.inode)) (hne : dentry.inode ≠ dir) :
    (a.inodes dir).iIno ≠ (a.inodes dentry.inode).iIno :=
  fun heq => hne (inv.vfs.apart _ _ hcall (Or.inl hdir) heq.symm)

theorem unlink_runs (h : Follows intact m a) (inv : TreeInv a T)
    (called : Called (onDisk m.disk) m.inodes (.unlink dir dentry))
    (spares : Spares m.disk m.inodes (.unlink dir dentry)) :
    Safely clock intact (intact && (erased (onDisk m.disk) m.inodes (.unlink dir dentry)).isNone)
      (TreeCall.unlink dir dentry).program
      (fun r a' => ∃ T', Effect a T (.unlink dir dentry) r a' T') m a := by
  obtain ⟨hfile, linked⟩ := called
  rw [h.inodes] at hfile
  obtain ⟨hdir, e, he, hname, htarget⟩ := entry_of_linked h inv linked
  have hne : dentry.inode ≠ dir := by
    intro heq
    rw [heq] at hfile
    have hempty := TreeInv.fileEmpty inv hfile
    rw [hempty] at he
    exact absurd he (Finset.notMem_empty e)
  simp only [Spares, erased, h.inodes] at spares ⊢
  by_cases hzone : isZoneGroup dentry.parentName = true
  · simp only [hzone, if_true, Option.isNone_none, Bool.and_true]
    apply safely_of_wp
    simp only [TreeCall.program, wp_bind]
    apply wp_mono _ (wp_unlink_zone inv hzone)
    rintro r a₁ ⟨rfl, hdisk, inv₁⟩
    rw [wp_dropped]
    exact ⟨T, Effect.kept rfl (fun _ => Or.inr hzone) hdisk (TreeInv.unused inv₁ _)
      fun hne => absurd rfl hne⟩
  · rw [if_neg hzone] at spares ⊢
    simp only [Option.isNone_some, Bool.and_false]
    have hcall : Callable (a.inodes dentry.inode) := Or.inr hfile
    have hempty : T e.iIno = ∅ := by
      rw [htarget]
      exact TreeInv.fileEmpty inv hfile
    have htype : e.isDir = false := TreeInv.entryKind inv he (by
      rw [htarget]
      exact ((inv.vfs.backed _).file hfile).2)
    refine safely_bind (hodoUnlink_runs (TreeInv.live inv) hdir hcall hne
      (count_le_of_clear h (spares _ rfl)) (Bool.not_eq_true _ ▸ hzone)) ?_
    rintro r m₁ a₁ _ ⟨rfl, unlinking⟩
    apply safely_of_wp
    rw [wp_dropped]
    refine ⟨_, Effect.deleted rfl (deletes_of_unlinking inv hdir hcall hne he hname htarget htype
      hempty rfl ?_ unlinking) ?_⟩
    · simp only [Bool.false_eq_true, if_false, UInt32.sub_zero, update_self]
    · rw [erased, if_neg hzone, htarget]

/-- `hodo_rmdir` of an empty directory, outside the zone groups. -/
theorem hodoRmdir_runs {e : Entry} (inv : TreeInv a T) (hdir : (a.inodes dir).iOp = some .dir)
    (hop : (a.inodes dentry.inode).iOp = some .dir) (hne : dentry.inode ≠ dir)
    (he : e ∈ T (a.inodes dir).iIno) (hname : e.name.bytes = dentry.name)
    (htarget : e.iIno = (a.inodes dentry.inode).iIno) (hempty : T e.iIno = ∅)
    (spare : a.disk.count ≤ e.iIno) (hzone : isZoneGroup dentry.name = false)
    (hparent : isZoneGroup dentry.parentName = false) :
    Safely clock intact false (hodoRmdir dir dentry)
      (fun r a' => r = 0 ∧ Deletes a T dir dentry true e
        (Machine.updateInode a' dentry.inode VfsInode.unused)) m a := by
  have hcall : Callable (a.inodes dentry.inode) := Or.inl hop
  have htype : e.isDir = true := TreeInv.entryKind inv he (by
    rw [htarget]
    exact ((inv.vfs.backed _).dir hop).2)
  rw [hodoRmdir_eq dir hzone]
  refine safely_bind (safely_of_wp (wp_targetEmpty inv hop)) ?_
  rintro r m₁ a₁ _ ⟨hr, hdisk₁, hinodes₁⟩
  rw [hr.mpr (htarget ▸ hempty), if_pos rfl]
  have hset : wp (plain storeDisk clock) (setInode dir fun i => { i with iNlink := i.iNlink - 1 })
      (fun _ a₂ => a₂ = Machine.updateInode a₁ dir fun i => { i with iNlink := i.iNlink - 1 }) a₁ :=
    (wp_setInode _ _ _).mpr rfl
  refine safely_bind (safely_of_wp hset) ?_
  rintro _ m₂ a₂ _ rfl
  have inv₁ : TreeInv (Machine.updateInode a₁ dir fun i => { i with iNlink := i.iNlink - 1 }) T :=
    TreeInv.updateInode (TreeInv.sameInodes inv hdisk₁ hinodes₁) rfl rfl rfl
  have hdir₁ : (Machine.updateInode a₁ dir fun i => { i with iNlink := i.iNlink - 1 }).inodes =
      update a.inodes dir { a.inodes dir with iNlink := (a.inodes dir).iNlink - 1 } := by
    rw [updateInode_inodes, hinodes₁.inodes]
  have hdir₂ : ((Machine.updateInode a₁ dir fun i => { i with iNlink := i.iNlink - 1 }).inodes
      dir).iOp = some .dir := by
    rw [hdir₁, update_same]
    exact hdir
  have htarget₁ : (Machine.updateInode a₁ dir fun i => { i with iNlink := i.iNlink - 1 }).inodes
      dentry.inode = a.inodes dentry.inode := by
    rw [hdir₁, update_other _ _ hne]
  refine safely_mono
    (hodoUnlink_runs (TreeInv.live inv₁) hdir₂ (htarget₁ ▸ hcall) hne ?_ hparent) ?_
  · rw [updateInode_disk, hdisk₁, htarget₁, ← htarget]
    exact spare
  · rintro r a' ⟨rfl, unlinking⟩
    exact ⟨rfl, deletes_of_unlinking inv₁ hdir₂ (htarget₁ ▸ hcall) hne he hname htarget htype hempty
      hinodes₁.inodeCount hdir₁ unlinking⟩

theorem direntsOf_eq_nil (h : Follows intact m a) (inv : TreeInv a T)
    (hop : (a.inodes dentry.inode).iOp = some .dir) :
    direntsOf (onDisk m.disk) (a.inodes dentry.inode).iIno = [] ↔
      T (a.inodes dentry.inode).iIno = ∅ := by
  obtain ⟨es, _, hes, hdirents⟩ := DirsHold.direntsOf inv.toDirsHold h (inv.dirAt hop).2
  rw [hdirents, ← hes, List.map_eq_nil_iff, List.toFinset_eq_empty_iff]

/-- What keeps `hodo_rmdir` from the erasure. -/
theorem wp_rmdir_kept (inv : TreeInv a T) (hop : (a.inodes dentry.inode).iOp = some .dir)
    (hkept : isZoneGroup dentry.name = true ∨ isZoneGroup dentry.parentName = true ∨
      T (a.inodes dentry.inode).iIno ≠ ∅) :
    wp (plain storeDisk clock) (hodoRmdir dir dentry)
      (fun r a' => (r = 0 → isZoneGroup dentry.name = true ∨ isZoneGroup dentry.parentName = true) ∧
        (r = 0 ∨ r = eNotEmpty) ∧ a'.disk = a.disk ∧ TreeInv a' T ∧ (r ≠ 0 → SameInodes a a')) a :=
    by
  by_cases hzone : isZoneGroup dentry.name = true
  · simp only [hodoRmdir, hzone, if_true, wp_pure]
    exact ⟨fun _ => Or.inl trivial, Or.inl trivial, trivial, inv, fun hne => absurd rfl hne⟩
  · simp only [hodoRmdir_eq dir (Bool.not_eq_true _ ▸ hzone), wp_bind]
    apply wp_mono _ (wp_targetEmpty inv hop)
    rintro r a₁ ⟨hr, hdisk₁, hinodes₁⟩
    have inv₁ := TreeInv.sameInodes inv hdisk₁ hinodes₁
    by_cases hempty : T (a.inodes dentry.inode).iIno = ∅
    · have hparent : isZoneGroup dentry.parentName = true := by
        rcases hkept with hname | hparent | hno
        · exact absurd hname hzone
        · exact hparent
        · exact absurd hempty hno
      rw [hr.mpr hempty, if_pos rfl, wp_bind, wp_setInode]
      have inv₂ : TreeInv
        (Machine.updateInode a₁ dir fun i => { i with iNlink := i.iNlink - 1 }) T :=
        TreeInv.updateInode inv₁ rfl rfl rfl
      apply wp_mono _ (wp_unlink_zone inv₂ hparent)
      rintro r a₃ ⟨rfl, hdisk₃, inv₃⟩
      exact ⟨fun _ => Or.inr hparent, Or.inl rfl, hdisk₃.trans hdisk₁, inv₃,
        fun hne => absurd rfl hne⟩
    · rw [if_neg fun htrue => hempty (hr.mp htrue), wp_pure]
      exact ⟨fun hzero => absurd hzero (by decide), Or.inr rfl, hdisk₁, inv₁, fun _ => hinodes₁⟩

theorem rmdir_runs (h : Follows intact m a) (inv : TreeInv a T)
    (called : Called (onDisk m.disk) m.inodes (.rmdir dir dentry))
    (spares : Spares m.disk m.inodes (.rmdir dir dentry)) :
    Safely clock intact (intact && (erased (onDisk m.disk) m.inodes (.rmdir dir dentry)).isNone)
      (TreeCall.rmdir dir dentry).program
      (fun r a' => ∃ T', Effect a T (.rmdir dir dentry) r a' T') m a := by
  obtain ⟨hop, hne, linked⟩ := called
  rw [h.inodes] at hop
  obtain ⟨hdir, e, he, hname, htarget⟩ := entry_of_linked h inv linked
  simp only [Spares, erased, h.inodes, direntsOf_eq_nil h inv hop] at spares ⊢
  split at spares
  case isTrue hreach =>
    obtain ⟨hzone, hparent, hempty⟩ := hreach
    rw [if_pos ⟨hzone, hparent, hempty⟩, Option.isNone_some, Bool.and_false]
    refine safely_bind (hodoRmdir_runs inv hdir hop hne he hname htarget (htarget ▸ hempty) ?_ hzone
      hparent) ?_
    · rw [htarget]
      exact count_le_of_clear h (spares _ rfl)
    · rintro r m₁ a₁ _ ⟨rfl, deletes⟩
      apply safely_of_wp
      rw [wp_dropped]
      refine ⟨_, Effect.deleted rfl deletes ?_⟩
      obtain ⟨es, _, hes, hdirents⟩ := DirsHold.direntsIn inv.toDirsHold inv.valid.content_zero
        (fun hb => hb) (inv.dirAt hop).2
      rw [hempty, List.toFinset_eq_empty_iff] at hes
      rw [erased, hdirents, hes, if_pos ⟨hzone, hparent, rfl⟩, htarget]
  case isFalse hreach =>
    rw [if_neg hreach, Option.isNone_none, Bool.and_true]
    apply safely_of_wp
    simp only [TreeCall.program, wp_bind]
    apply wp_mono _ (wp_rmdir_kept inv hop ?_)
    · rintro r a₁ ⟨hkept, hr, hdisk, inv₁, hsame⟩
      rcases hr with rfl | rfl
      · rw [wp_dropped]
        exact ⟨T, Effect.kept rfl hkept hdisk (TreeInv.unused inv₁ _) fun hne => absurd rfl hne⟩
      · simp only [dropped, if_neg (show ¬ eNotEmpty = 0 by decide), wp_pure]
        exact ⟨T, Effect.kept rfl hkept hdisk inv₁ hsame⟩
    · by_cases hname : isZoneGroup dentry.name = true
      · exact Or.inl hname
      · by_cases hparent : isZoneGroup dentry.parentName = true
        · exact Or.inr (Or.inl hparent)
        · exact Or.inr (Or.inr fun hempty => hreach
            ⟨Bool.not_eq_true _ ▸ hname, Bool.not_eq_true _ ▸ hparent, hempty⟩)

theorem mkdir_runs {cred : Cred} {name : List UInt8} {mode : Nat} (h : Follows intact m a)
    (inv : TreeInv a T) (called : Called (onDisk m.disk) m.inodes (.mkdir cred dir name mode))
    (collects : Collects clock m intact (.mkdir cred dir name mode)) :
    Safely clock intact intact (TreeCall.mkdir cred dir name mode).program
      (fun r a' => ∃ T', Effect a T (.mkdir cred dir name mode) r a' T') m a := by
  obtain ⟨hdir, n, rfl, hvacant⟩ := vacant_of_called h inv called
  obtain ⟨rfl, room⟩ := collects
  simp only [TreeCall.program, hodoMkdir]
  refine safely_bind (safely_of_wp (wp_hodoMkdirBody_tree inv hdir hvacant)) ?_
  rintro r m₁ a₁ hexec ⟨rfl, e, created⟩
  have hkmalloc : exec (machine volumeDisk (zeroFilled clock)) kmallocUnchecked m₁ =
      .done (zeros, { m₁ with tick := m₁.tick + 1 }) := rfl
  have htemp : wp (plain storeDisk clock) kmallocUnchecked (fun _ a₂ => a₂ = Machine.later a₁) a₁ :=
    (wp_kmallocUnchecked _).mpr rfl
  refine safely_bind (safely_of_wp htemp) ?_
  rintro temp m₂ a₂ hexec₂ rfl
  obtain ⟨rfl, rfl⟩ := Prod.mk.inj (Outcome.done.inj (hkmalloc.symm.trans hexec₂))
  refine safely_bind (collect_runs (m := { m₁ with tick := m₁.tick + 1 }) (a := Machine.later a₁)
    (room _ hexec).1 (room _ hexec).2 zeros) ?_
  rintro _ m₃ a₃ _ rfl
  apply safely_of_wp
  rw [wp_pure]
  have later : Creates a T dir n true 0 e (Machine.later a₁) :=
    ⟨created.name, created.isDir, created.fresh, created.growth,
      TreeInv.sameInodes created.inv rfl ⟨rfl, rfl⟩, created.number, created.count, created.inodes⟩
  exact ⟨_, Effect.created rfl later⟩

/-- Every call ends, and changes the tree as its effect says. -/
theorem tree_step {c : TreeCall} (h : Follows intact m a) (inv : TreeInv a T)
    (made : Made clock m intact c) (spares : Spares m.disk m.inodes c) :
    ∃ r m' a' T', treeStep volumeDisk (zeroFilled clock) m c = some (r, m') ∧
      Follows (intact && (erased (onDisk m.disk) m.inodes c).isNone) m' a' ∧
      Effect a T c r a' T' := by
  obtain ⟨called, fits, collects⟩ := made
  have runs : Safely clock intact (intact && (erased (onDisk m.disk) m.inodes c).isNone) c.program
      (fun r a' => ∃ T', Effect a T c r a' T') m a := by
    cases c with
    | create cred dir name mode =>
      obtain ⟨hdir, n, rfl, hvacant⟩ := vacant_of_called h inv called
      change Safely clock intact (intact && true) _ _ m a
      rw [Bool.and_true]
      refine safely_mono (safely_of_wp (wp_hodoCreate_tree inv hdir hvacant)) ?_
      rintro r a' ⟨rfl, e, created⟩
      exact ⟨_, Effect.created rfl created⟩
    | mkdir cred dir name mode =>
      change Safely clock intact (intact && true) _ _ m a
      rw [Bool.and_true]
      exact mkdir_runs h inv called collects
    | mkdirBody cred dir name mode =>
      obtain ⟨hdir, n, rfl, hvacant⟩ := vacant_of_called h inv called
      change Safely clock intact (intact && true) _ _ m a
      rw [Bool.and_true]
      refine safely_mono (safely_of_wp (wp_hodoMkdirBody_tree inv hdir hvacant)) ?_
      rintro r a' ⟨rfl, e, created⟩
      exact ⟨_, Effect.created rfl created⟩
    | write iocb iter =>
      have hfile : (a.inodes iocb.inode).iFop = some .file := h.inodes ▸ called
      obtain ⟨hlt, b, hb, hdat, htype⟩ := (inv.vfs.backed _).file hfile
      change Safely clock intact (intact && true) _ _ m a
      rw [Bool.and_true]
      apply safely_of_wp
      simp only [TreeCall.program, wp_bind, wp_pure]
      apply wp_mono _ (wp_hodoSubFileWriteIter (Nat.mod_eq_of_lt hlt) inv.valid inv.forest hb hdat)
      rintro r a' ⟨⟨b', hwritten⟩, hsize⟩
      exact ⟨T, Effect.written rfl hsize (inv.written hb hdat htype hwritten hsize)
        hwritten.growth⟩
    | unlink dir dentry => exact unlink_runs h inv called spares
    | rmdir dir dentry => exact rmdir_runs h inv called spares
  obtain ⟨r, m', a', hexec, follows', T', effect⟩ := runs h fits
  exact ⟨r, m', a', T', by rw [treeStep, hexec], follows', effect⟩

end Runs

/-- The step with a note beside the machine: whether the log is still as it was before
the first erasure. -/
def notedStep (clock : Nat → Timespec) (s : Machine Volume × Bool) (c : TreeCall) :
    Option ((Int × Nat) × (Machine Volume × Bool)) :=
  (treeStep volumeDisk (zeroFilled clock) s.1 c).map fun (r, m) =>
    (r, m, s.2 && (erased (onDisk s.1.disk) s.1.inodes c).isNone)

/-- The call is made, and the bit it clears is of no number in use. -/
def Spared (clock : Nat → Timespec) (s : Machine Volume × Bool) (c : TreeCall) : Prop :=
  Made clock s.1 s.2 c ∧ Spares s.1.disk s.1.inodes c

instance (clock : Nat → Timespec) (s : Machine Volume × Bool) (c : TreeCall) :
    Decidable (Spared clock s c) :=
  inferInstanceAs (Decidable (_ ∧ _))

/-- Behind the log stands a map that holds the tree. -/
def TreeState (s : Machine Volume × Bool) (T : Tree) : Prop :=
  ∃ a, Follows s.2 s.1 a ∧ TreeInv a T

section

variable {clock : Nat → Timespec}

theorem notedStep_eq {s : Machine Volume × Bool} {c : TreeCall} {r : Int × Nat}
    {m' : Machine Volume}
    (h : treeStep volumeDisk (zeroFilled clock) s.1 c = some (r, m')) :
    notedStep clock s c = some (r, m', s.2 && (erased (onDisk s.1.disk) s.1.inodes c).isNone) := by
  rw [notedStep, h]
  rfl

theorem treeState_step {s : Machine Volume × Bool} {T : Tree} {c : TreeCall} (h : TreeState s T)
    (spared : Spared clock s c) :
    ∃ r s' a a' T', notedStep clock s c = some (r, s') ∧ Follows s.2 s.1 a ∧ TreeInv a T ∧
      Follows s'.2 s'.1 a' ∧ Effect a T c r a' T' := by
  obtain ⟨a, follows, inv⟩ := h
  obtain ⟨r, m', a', T', hstep, follows', effect⟩ := tree_step follows inv spared.1 spared.2
  exact ⟨r, _, a, a', T', notedStep_eq hstep, follows, inv, follows', effect⟩

/-- Only the root directory is there, and it has no entries. -/
theorem treeInv_mounted (uid gid groups : Nat) (now : Timespec) :
    TreeInv (mounted (mountedStore zeros uid gid) groups now) fun _ => ∅ := by
  have inv := fsInv_mounted uid gid groups now
  have hroot : ∀ {n b}, (mountedStore zeros uid gid).content n = some b →
      n = 16 ∧ rootInode zeros 16 uid gid = b := by
    intro n b hb
    simp only [mountedStore, update] at hb
    split at hb
    case isTrue hn => exact ⟨hn, Option.some.inj hb⟩
    case isFalse => cases hb
  refine ⟨⟨⟨inv.toDiskInv, fun {n} hn => ?_,
    fun he => absurd he (Finset.notMem_empty _)⟩, fun he => absurd he (Finset.notMem_empty _),
    fun _ _ _ _ he => absurd he (Finset.notMem_empty _)⟩, (live_mounted uid gid groups now).vfs⟩
  obtain ⟨b, hb, hdat, _⟩ := hn
  obtain ⟨rfl, rfl⟩ := hroot hb
  have hptr : ∀ i, inodePtr (rootInode zeros 16 uid gid) i = 0 := fun i =>
    inodePtr_putInodeFields (by simp) i
  refine ⟨_, [], ⟨hb, hdat, fun i _ _ => hptr i, by simp, fun i hi => absurd hi (Nat.not_lt_zero i),
    fun i _ hi => ?_, by simp⟩, by simp⟩
  exact (dataAt_eq_none_iff inv.valid inv.forest hb hdat hi).mpr (hptr i)

theorem treeState_mounted (uid gid groups : Nat) (now : Timespec) :
    TreeState (firstMounted uid gid groups now, true) fun _ => ∅ :=
  ⟨_, follows_mounted zeros uid gid groups now, treeInv_mounted uid gid groups now⟩

/-- In every run of calls that spare the numbers in use the tree is kept. -/
theorem tree_run (uid gid groups : Nat) (now : Timespec) {cs : List TreeCall}
    (calls : EachCall (notedStep clock) (Spared clock) cs (firstMounted uid gid groups now, true)) :
    ∃ as s, run (notedStep clock) cs (firstMounted uid gid groups now, true) = some (as, s) ∧
      ∃ T, TreeState s T := by
  refine run_total (Spared clock) (fun s => ∃ T, TreeState s T) ?_
    ⟨_, treeState_mounted uid gid groups now⟩ calls
  rintro s c ⟨T, state⟩ spared
  obtain ⟨r, s', _, a', T', hstep, _, _, follows', effect⟩ := treeState_step state spared
  exact ⟨r, s', hstep, T', a', follows', Effect.inv effect⟩

end

end TreeRuns
