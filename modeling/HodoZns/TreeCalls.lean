import HodoZns.Trees

/-!
# Calls on the directory tree

Creations, writes and deletions as the VFS makes them: a name is created only
where there is none, and deleted through a dentry that goes with an entry. What
the creations and the writes do to the tree.
-/

namespace TreeCalls

open ByteBlock Layout BlockLog ZoneLog NumberAllocator LogCalls LogStore Programs Kernel CallRuns
  StoreMachine
open VolumeMachine FileBlocks BlockForest TreeWrites FileWrites Directories Operations
open DirectoryWrites NewInodes FsRuns Ownership FileContents DirectoryBlocks DirectoryMaps
open Erasures Trees BlockPacking

/-- `mkdirBody` is `hodo_mkdir` without its final call of `GC`. -/
inductive TreeCall where
  | create (cred : Cred) (dir : Nat) (name : List UInt8) (mode : Nat)
  | mkdir (cred : Cred) (dir : Nat) (name : List UInt8) (mode : Nat)
  | mkdirBody (cred : Cred) (dir : Nat) (name : List UInt8) (mode : Nat)
  | write (iocb : Kiocb) (iter : IovIter)
  | unlink (dir : Nat) (dentry : Dentry)
  | rmdir (dir : Nat) (dentry : Dentry)

/-- With the dentry of what was deleted the VFS gives up its inode. -/
def dropped (dentry : Dentry) (ret : Int) : Program (Int × Nat) :=
  if ret = 0 then do
    setInode dentry.inode fun i => { i with iOp := none, iFop := none }
    pure (ret, dentry.inode)
  else pure (ret, dentry.inode)

/-- The second component is the VFS inode that the call is about. -/
def TreeCall.program : TreeCall → Program (Int × Nat)
  | .create cred dir name mode => hodoCreate cred dir name mode
  | .mkdir cred dir name mode => hodoMkdir cred dir name mode
  | .mkdirBody cred dir name mode => hodoMkdirBody cred dir name mode
  | .write iocb iter => do
    let (ret, _, _) ← hodoSubFileWriteIter iocb iter
    pure (ret, iocb.inode)
  | .unlink dir dentry => do
    let ret ← hodoUnlink dir dentry
    dropped dentry ret
  | .rmdir dir dentry => do
    let ret ← hodoRmdir dir dentry
    dropped dentry ret

def treeStep {σ : Type} (D : Disk σ) (E : Env) (m : Machine σ) (c : TreeCall) :
    Option ((Int × Nat) × Machine σ) :=
  match exec (machine D E) c.program m with
  | .done r => some r
  | _ => none

/-- Names that fit the `name` field. -/
def IsFileName (name : List UInt8) : Prop := 0 < name.length ∧ name.length ≤ 16 ∧ 0 ∉ name

instance (name : List UInt8) : Decidable (IsFileName name) :=
  inferInstanceAs (Decidable (0 < name.length ∧ name.length ≤ 16 ∧ 0 ∉ name))

/-- A directory without an entry of that name. -/
def Vacant (c : Nat → Option Block) (inodes : Nat → VfsInode) (dir : Nat) (name : List UInt8) :
    Prop :=
  (inodes dir).iOp = some .dir ∧ IsFileName name ∧
    ∀ d ∈ direntsOf c (inodes dir).iIno, d.hasName (nameArg name) = false

/-- The dentry goes with an entry of the directory. -/
def Linked (c : Nat → Option Block) (inodes : Nat → VfsInode) (dir : Nat) (dentry : Dentry) :
    Prop :=
  (inodes dir).iOp = some .dir ∧ IsFileName dentry.name ∧
    ∃ d ∈ direntsOf c (inodes dir).iIno, d.hasName (nameArg dentry.name) = true ∧
      d.iIno = (inodes dentry.inode).iIno

-- the instances go through the list of entries, not through all records there can be
instance (c : Nat → Option Block) (inodes : Nat → VfsInode) (dir : Nat) (name : List UInt8) :
    Decidable (Vacant c inodes dir name) :=
  have : Decidable (∀ d ∈ direntsOf c (inodes dir).iIno, d.hasName (nameArg name) = false) :=
    List.decidableBAll _ _
  inferInstanceAs (Decidable (_ ∧ _ ∧ _))

instance (c : Nat → Option Block) (inodes : Nat → VfsInode) (dir : Nat) (dentry : Dentry) :
    Decidable (Linked c inodes dir dentry) :=
  have : Decidable (∃ d ∈ direntsOf c (inodes dir).iIno, d.hasName (nameArg dentry.name) = true ∧
      d.iIno = (inodes dentry.inode).iIno) := List.decidableBEx _ _
  inferInstanceAs (Decidable (_ ∧ _ ∧ ∃ d ∈ _, _))

/-- What the VFS sees to before it makes the call. -/
def Called (c : Nat → Option Block) (inodes : Nat → VfsInode) : TreeCall → Prop
  | .create _ dir name _ => Vacant c inodes dir name
  | .mkdir _ dir name _ => Vacant c inodes dir name
  | .mkdirBody _ dir name _ => Vacant c inodes dir name
  | .write iocb _ => (inodes iocb.inode).iFop = some .file
  | .unlink dir dentry => (inodes dentry.inode).iFop = some .file ∧ Linked c inodes dir dentry
  | .rmdir dir dentry => (inodes dentry.inode).iOp = some .dir ∧ dentry.inode ≠ dir ∧
      Linked c inodes dir dentry

instance (c : Nat → Option Block) (inodes : Nat → VfsInode) : (call : TreeCall) →
    Decidable (Called c inodes call)
  | .create _ dir name _ => inferInstanceAs (Decidable (Vacant c inodes dir name))
  | .mkdir _ dir name _ => inferInstanceAs (Decidable (Vacant c inodes dir name))
  | .mkdirBody _ dir name _ => inferInstanceAs (Decidable (Vacant c inodes dir name))
  | .write iocb _ => inferInstanceAs (Decidable ((inodes iocb.inode).iFop = some .file))
  | .unlink dir dentry => inferInstanceAs (Decidable (_ ∧ Linked c inodes dir dentry))
  | .rmdir dir dentry => inferInstanceAs (Decidable (_ ∧ _ ∧ Linked c inodes dir dentry))

/-- The number of the inode for which the call comes to `hodo_erase_table_entry`. -/
def erased (c : Nat → Option Block) (inodes : Nat → VfsInode) : TreeCall → Option Nat
  | .unlink _ dentry =>
    if isZoneGroup dentry.parentName then none else some (inodes dentry.inode).iIno
  | .rmdir _ dentry =>
    if isZoneGroup dentry.name = false ∧ isZoneGroup dentry.parentName = false ∧
        direntsOf c (inodes dentry.inode).iIno = []
    then some (inodes dentry.inode).iIno else none
  | _ => none

/-- The bit that `hodo_erase_table_entry` clears is that of no number in use. -/
def Spares (v : Volume) (inodes : Nat → VfsInode) (call : TreeCall) : Prop :=
  ∀ n ∈ erased (onDisk v) inodes call, allocated v.info n = false

instance (v : Volume) (inodes : Nat → VfsInode) (call : TreeCall) :
    Decidable (Spares v inodes call) :=
  inferInstanceAs (Decidable (∀ n ∈ erased (onDisk v) inodes call, _))

/-- The collector is called only while nothing was erased, and finds room. The block that a
deletion writes back names number 0, whose entry is outside `mapping_table`. -/
def Collects (clock : Nat → Timespec) (m : Machine Volume) (intact : Bool) : TreeCall → Prop
  | .mkdir cred dir name mode => intact = true ∧
      ∀ r, exec (machine volumeDisk (zeroFilled clock))
        (hodoMkdirBody cred dir name mode) m = .done r →
        WpInData r.2.disk ∧ Sparse r.2.disk.info
  | _ => True

instance (m : MappingInfo) : Decidable (Sparse m) :=
  inferInstanceAs (Decidable (∀ r, 1 ≤ r → r ≤ 13 → liveCount m r ≤ r * (blocksPerZone - 1)))

instance (clock : Nat → Timespec) (m : Machine Volume) (intact : Bool) : (call : TreeCall) →
    Decidable (Collects clock m intact call)
  | .mkdir cred dir name mode => inferInstanceAs (Decidable (intact = true ∧
      ∀ r, exec (machine volumeDisk (zeroFilled clock))
        (hodoMkdirBody cred dir name mode) m = .done r →
        WpInData r.2.disk ∧ Sparse r.2.disk.info))
  | .create _ _ _ _ | .mkdirBody _ _ _ _ | .write _ _ | .unlink _ _ | .rmdir _ _ => isTrue trivial

/-- The call is one the VFS makes, and numbers and room do not run out on the way. -/
def Made (clock : Nat → Timespec) (m : Machine Volume) (intact : Bool) (c : TreeCall) : Prop :=
  Called (onDisk m.disk) m.inodes c ∧
    Guarded (machine volumeDisk (zeroFilled clock)) Fits c.program m ∧ Collects clock m intact c

instance (clock : Nat → Timespec) (m : Machine Volume) (intact : Bool) (c : TreeCall) :
    Decidable (Made clock m intact c) :=
  inferInstanceAs (Decidable (_ ∧ Guarded _ _ _ _ ∧ Collects _ _ _ _))

section Views

variable {intact : Bool} {m : Machine Volume} {a : Machine Store} {T : Tree} {n : Nat}

theorem onDisk_of_follows (h : Follows intact m a) {b : Block} (hb : a.disk.content n = some b) :
    onDisk m.disk n = some b := by
  obtain ⟨w, _, near, rep⟩ := h.near
  obtain ⟨p, hm, hblock⟩ := rep.stored_names hb
  have hentry : tableEntry m.disk.info n = p := by
    rw [tableEntry, near.index_eq, near.entry]
    · exact hm.2.1
    · rw [← tableEntry, hm.2.1]
      exact hm.2.2
  have hin : BlockLog.InTable m.disk.info n := ⟨hm.1.1, by rw [near.index_eq]; exact hm.1.2⟩
  rw [onDisk, if_pos hin, Consistency.stored, hentry, if_neg hm.2.2, Consistency.blockAt, near.dev]
  exact hblock

theorem onDisk_zero (h : Follows intact m a) : onDisk m.disk 0 = none := by
  obtain ⟨w, _, near, rep⟩ := h.near
  rw [onDisk, if_neg]
  rintro ⟨_, hidx⟩
  rw [near.index_eq] at hidx
  simp [tableIndex, rep.consistent.starting] at hidx

theorem starting_of_follows (h : Follows intact m a) : m.disk.info.startingLogicalNumber = 16 := by
  obtain ⟨w, _, near, rep⟩ := h.near
  exact near.starting.trans rep.consistent.starting

/-- A stored inode is found on the log, with its length and the blocks below it. -/
theorem storedLen_of_follows (h : Follows intact m a) {b : Block}
    (hb : a.disk.content n = some b) : storedLen (onDisk m.disk) n = fileLen b :=
  storedLen_eq (onDisk_of_follows h hb)

theorem storedBlock_of_follows (h : Follows intact m a) (valid : Valid a.disk)
    (forest : IsForest a.disk.content) {b : Block} (hb : a.disk.content n = some b)
    (hdat : isDat b = false) (o : Nat) :
    storedBlock (onDisk m.disk) n o = dataAt a.disk.content b o := by
  rw [storedBlock_eq (onDisk_of_follows h hb)]
  cases hf : fieldOf o with
  | none => rw [dataAt_none hf (onDisk_zero h), dataAt_none hf valid.content_zero]
  | some f =>
    refine dataAt_congr forest valid.content_zero (onDisk_zero h) hb hdat hf rfl fun _ x hx _ => ?_
    obtain ⟨t, ht⟩ := Option.ne_none_iff_exists'.mp hx
    rw [ht, onDisk_of_follows h ht]

/-- The valid entries of a directory are those of the tree, wherever its blocks are found. -/
theorem DirsHold.direntsIn {s : Store} {c : Nat → Option Block} (tree : DirsHold s T)
    (h0 : c 0 = none) (holds : ∀ {x b}, s.content x = some b → c x = some b)
    (hn : InodeAt s.content n hodoTypeDir) :
    ∃ es : List Entry, (es.map Entry.name).Nodup ∧ es.toFinset = T n ∧
      direntsOf c n = es.map Entry.record := by
  obtain ⟨b, ds, hb, hds⟩ := tree.dirs hn
  exact ⟨ds.flatten, hb.unique, hds, direntsOf_eq hb.blocks tree.valid tree.forest h0 holds⟩

theorem DirsHold.direntsOf (tree : DirsHold a.disk T) (h : Follows intact m a)
    (hn : InodeAt a.disk.content n hodoTypeDir) :
    ∃ es : List Entry, (es.map Entry.name).Nodup ∧ es.toFinset = T n ∧
      direntsOf (onDisk m.disk) n = es.map Entry.record :=
  DirsHold.direntsIn tree (onDisk_zero h) (onDisk_of_follows h) hn

end Views

def Callable (i : VfsInode) : Prop := i.iOp = some .dir ∨ i.iFop = some .file

/-- Callable inodes go with different stored inodes. -/
structure VfsTree (c : Nat → Option Block) (inodes : Nat → VfsInode) (inodeCount : Nat) : Prop
    extends VfsInv c inodes inodeCount where
  root : (inodes rootRef).iIno = 16
  rootUsed : rootRef < inodeCount
  apart : ∀ r r', Callable (inodes r) → Callable (inodes r') →
    (inodes r).iIno = (inodes r').iIno → r = r'

structure TreeInv (a : Machine Store) (T : Tree) : Prop extends DiskTree a.disk T where
  vfs : VfsTree a.disk.content a.inodes a.inodeCount

section Vfs

variable {c c' : Nat → Option Block} {inodes inodes' : Nat → VfsInode} {count ref n : Nat}

theorem Callable.inode {i : VfsInode} (h : Callable i) (backed : Backed c i) :
    i.iIno < 2 ^ 32 ∧ c i.iIno ≠ none := by
  rcases h with hdir | hfile
  · obtain ⟨hlt, b, hb, _⟩ := backed.dir hdir
    exact ⟨hlt, by rw [hb]; exact Option.some_ne_none b⟩
  · obtain ⟨hlt, b, hb, _⟩ := backed.file hfile
    exact ⟨hlt, by rw [hb]; exact Option.some_ne_none b⟩

theorem callable_lt (h : VfsInv c inodes count) (hr : Callable (inodes ref)) : ref < count := by
  by_contra hge
  obtain ⟨hop, hfop⟩ := h.spare ref (Nat.not_lt.mp hge)
  rcases hr with hdir | hfile
  · rw [hop] at hdir
    cases hdir
  · rw [hfop] at hfile
    cases hfile

/-- An inode for a new number was set up under a reference that was not in use. -/
theorem VfsTree.made (h : VfsTree c inodes count) (hn : c n = none)
    (vfs : VfsInv c' inodes' (count + 1)) (number : (inodes' count).iIno = n)
    (same : ∀ r, r ≠ count → (inodes' r).iIno = (inodes r).iIno ∧
      (inodes' r).iOp = (inodes r).iOp ∧ (inodes' r).iFop = (inodes r).iFop) :
    VfsTree c' inodes' (count + 1) where
  toVfsInv := vfs
  root := (same rootRef (Nat.ne_of_lt h.rootUsed)).1.trans h.root
  rootUsed := Nat.lt_succ_of_lt h.rootUsed
  apart := by
    have old : ∀ r, r ≠ count → Callable (inodes' r) → Callable (inodes r) := by
      intro r hr hcall
      rwa [Callable, (same r hr).2.1, (same r hr).2.2] at hcall
    have other : ∀ r, r ≠ count → Callable (inodes' r) → (inodes' r).iIno ≠ n := by
      intro r hr hcall heq
      rw [(same r hr).1] at heq
      exact ((old r hr hcall).inode (h.backed r)).2 (heq ▸ hn)
    intro r r' hr hr' heq
    by_cases hrc : r = count
    · by_cases hrc' : r' = count
      · rw [hrc, hrc']
      · rw [hrc, number] at heq
        exact absurd heq.symm (other r' hrc' hr')
    · by_cases hrc' : r' = count
      · rw [hrc', number] at heq
        exact absurd heq (other r hrc hr)
      · rw [(same r hrc).1, (same r' hrc').1] at heq
        exact h.apart r r' (old r hrc hr) (old r' hrc' hr') heq

/-- Numbers and operations stay, except for inodes that are given up. -/
theorem VfsTree.changed (h : VfsTree c inodes count)
    (number : ∀ r, (inodes' r).iIno = (inodes r).iIno)
    (operations : ∀ r, (inodes' r).iOp = (inodes r).iOp ∧ (inodes' r).iFop = (inodes r).iFop ∨
      (inodes' r).iOp = none ∧ (inodes' r).iFop = none)
    (keeps : ∀ r, Callable (inodes' r) → ∀ t, InodeAt c (inodes r).iIno t →
      InodeAt c' (inodes r).iIno t) : VfsTree c' inodes' count := by
  have still : ∀ r, Callable (inodes' r) →
      (inodes' r).iOp = (inodes r).iOp ∧ (inodes' r).iFop = (inodes r).iFop := by
    intro r hr
    rcases operations r with hsame | ⟨hop, hfop⟩
    · exact hsame
    · rcases hr with hdir | hfile
      · rw [hop] at hdir
        cases hdir
      · rw [hfop] at hfile
        cases hfile
  have old : ∀ r, Callable (inodes' r) → Callable (inodes r) := by
    intro r hr
    obtain ⟨hop, hfop⟩ := still r hr
    rwa [Callable, hop, hfop] at hr
  refine ⟨⟨fun r => ⟨fun hop => ?_, fun hfop => ?_⟩, fun r hr => ?_⟩, (number _).trans h.root,
    h.rootUsed, fun r r' hr hr' heq => ?_⟩
  · have hcall : Callable (inodes' r) := Or.inl hop
    obtain ⟨hlt, hat⟩ := (h.backed r).dir ((still r hcall).1.symm.trans hop)
    rw [number]
    exact ⟨hlt, keeps r hcall _ hat⟩
  · have hcall : Callable (inodes' r) := Or.inr hfop
    obtain ⟨hlt, hat⟩ := (h.backed r).file ((still r hcall).2.symm.trans hfop)
    rw [number]
    exact ⟨hlt, keeps r hcall _ hat⟩
  · rcases operations r with ⟨hop, hfop⟩ | hnone
    · rw [hop, hfop]
      exact h.spare r hr
    · exact hnone
  · rw [number, number] at heq
    exact h.apart r r' (old r hr) (old r' hr') heq

theorem VfsTree.mono (h : VfsTree c inodes count) (keeps : ∀ n t, InodeAt c n t → InodeAt c' n t) :
    VfsTree c' inodes count :=
  h.changed (fun _ => rfl) (fun _ => Or.inl ⟨rfl, rfl⟩) fun _ _ _ => keeps _ _

theorem VfsTree.onlySize {a a' : Machine Store} (h : VfsTree c a.inodes a.inodeCount)
    (hsize : OnlySize a a' ref) (keeps : ∀ n t, InodeAt c n t → InodeAt c' n t) :
    VfsTree c' a'.inodes a'.inodeCount := by
  obtain ⟨size, hinodes, hcount⟩ := hsize
  rw [hcount, hinodes]
  refine h.changed (fun r => ?_) (fun r => Or.inl ?_) fun _ _ _ => keeps _ _
  · by_cases hr : r = ref
    · rw [hr, update_same]
    · rw [update_other _ _ hr]
  · by_cases hr : r = ref
    · rw [hr, update_same]
      exact ⟨rfl, rfl⟩
    · rw [update_other _ _ hr]
      exact ⟨rfl, rfl⟩

end Vfs

section Machines

variable {a a' : Machine Store} {T : Tree}

/-- A call that leaves the disk and the tables of the inodes alone. -/
theorem TreeInv.sameDisk (inv : TreeInv a T) (hdisk : a'.disk = a.disk)
    (hcount : a'.inodeCount = a.inodeCount)
    (number : ∀ r, (a'.inodes r).iIno = (a.inodes r).iIno)
    (operations : ∀ r,
      (a'.inodes r).iOp = (a.inodes r).iOp ∧ (a'.inodes r).iFop = (a.inodes r).iFop ∨
      (a'.inodes r).iOp = none ∧ (a'.inodes r).iFop = none) : TreeInv a' T := by
  refine ⟨hdisk ▸ inv.toDiskTree, ?_⟩
  rw [hdisk, hcount]
  exact inv.vfs.changed number operations fun _ _ _ hat => hat

theorem TreeInv.written (inv : TreeInv a T) {n ref : Nat} {b b' : Block}
    (hn : a.disk.content n = some b) (hb : isDat b = false) (htype : fileType b = hodoTypeReg)
    (h : FileWritten a.disk a'.disk n b b') (hsize : OnlySize a a' ref) : TreeInv a' T :=
  ⟨inv.toDiskTree.fileWritten hn hb htype h,
    inv.vfs.onlySize hsize fun _ _ => FileWritten.inodeAt h inv.forest hn⟩

end Machines

theorem describes_storedInode {k : Kind} {cred : Cred} {name : FileName} {mode n : Nat}
    {now : Timespec} {isDir : Bool} (hk : k.type = if isDir then 1 else 0) (hpos : 0 < n)
    (hlt : n < 2 ^ 32) :
    Describes (storedInode zeros k cred name.bytes mode n now)
      ⟨name, n, isDir, hpos, Nat.lt_trans hlt (by decide)⟩ where
  nameLen := nameLen_storedInode zeros name.le
  nameByte _ hi := nameByte_storedInode zeros name.le hi
  iIno := iIno_storedInode zeros hlt
  fileType := by
    rw [fileType_storedInode, hk]
    cases isDir <;> rfl

section Creation

variable {D : Disk Store} [LikeStore D] {clock : Nat → Timespec} {a m : Machine Store} {T : Tree}
  {dir : Nat} {name : FileName}

/-- A new inode that a directory was to take an entry for. -/
structure Entered (m : Machine Store) (T : Tree) (d : Nat) (name : FileName) (isDir : Bool)
    (e : Entry) (m' : Machine Store) : Prop where
  name : e.name = name
  isDir : e.isDir = isDir
  lt : e.iIno < 2 ^ 32
  fresh : m.disk.content e.iIno = none
  tree : DiskTree m'.disk (enter T d e)
  inodes : SameInodes m m'
  there : InodeAt m'.disk.content e.iIno (entryType e)
  keeps : ∀ x t, InodeAt m.disk.content x t → InodeAt m'.disk.content x t
  growth : ∃ c, Grown m.disk.content c e.iIno ∧ Grown c m'.disk.content d

theorem wp_storeNewInode_tree {k : Kind} {isDir : Bool} {cred : Cred} {mode d : Nat}
    {now : Timespec} (hk : k.type = if isDir then 1 else 0) (tree : DiskTree m.disk T)
    (hd : (m.inodes dir).iIno % 2 ^ 32 = d) (hdir : InodeAt m.disk.content d hodoTypeDir)
    (vacant : ∀ e ∈ T d, e.name ≠ name) :
    wp (plain D clock) (storeNewInode k cred dir name.bytes mode now)
      (fun n m' => ∃ e, e.iIno = n ∧ Entered m T d name isDir e m') m := by
  obtain ⟨b, hb, hdat, _⟩ := id hdir
  apply wp_mono _ (wp_storeNewInode name.le hd tree.valid tree.forest hb hdat)
  rintro n m' ⟨m₁, hlt, hnone, hcontent, valid₁, forest₁, _, hinodes, hb₁, hadd⟩
  have hpos : 0 < n := by
    have hused := valid₁.used (show m₁.disk.content n = _ by rw [hcontent, update_same])
    exact Nat.pos_of_ne_zero (valid₁.ne_zero hused)
  have tree₁ : DiskTree m₁.disk T := tree.newInode hnone valid₁ forest₁ hcontent
    (isDat_storedInode zeros) (inodePtr_storedInode name.le)
  have keeps₁ : ∀ x t, InodeAt m.disk.content x t → InodeAt m₁.disk.content x t := by
    rintro x t ⟨c, hc, hx⟩
    have hne : x ≠ n := by
      rintro rfl
      rw [hnone] at hc
      cases hc
    exact ⟨c, by rw [hcontent, update_other _ _ hne, hc], hx⟩
  have there : InodeAt m₁.disk.content n (if isDir then hodoTypeDir else hodoTypeReg) := by
    refine ⟨_, by rw [hcontent, update_same], isDat_storedInode zeros, ?_⟩
    rw [fileType_storedInode, hk]
    cases isDir <;> rfl
  obtain ⟨b', ds, h, hds⟩ := tree₁.dirs (keeps₁ _ _ hdir)
  obtain rfl := Option.some.inj (h.inode.symm.trans hb₁)
  have changed := tree₁.toDiskInv.added hb₁ h.isInode h.noIndex hadd
  have tree' := tree₁.added (keeps₁ _ _ hdir) h hds (describes_storedInode hk hpos hlt) vacant there
    (fun n' e' he' heq => by
      obtain ⟨c, hc, _⟩ := tree.target he'
      rw [heq, hnone] at hc
      cases hc) hadd
  exact ⟨_, rfl, rfl, rfl, hlt, hnone, tree', hinodes.trans changed.inodes,
    changed.keeps _ _ there, fun x t hx => changed.keeps x t (keeps₁ x t hx), m₁.disk.content,
    hcontent ▸ grown_of_new hnone, hadd.growth⟩

/-- What `hodo_create` and `hodo_mkdir` do; `grown` is what the directory's size changes by. -/
structure Creates (a : Machine Store) (T : Tree) (dir : Nat) (name : FileName) (isDir : Bool)
    (grown : Int) (e : Entry) (a' : Machine Store) : Prop where
  name : e.name = name
  isDir : e.isDir = isDir
  fresh : a.disk.content e.iIno = none
  growth : ∃ c, Grown a.disk.content c e.iIno ∧ Grown c a'.disk.content (a.inodes dir).iIno
  inv : TreeInv a' (enter T (a.inodes dir).iIno e)
  number : (a'.inodes a.inodeCount).iIno = e.iIno
  count : a'.inodeCount = a.inodeCount + 1
  inodes : ∀ r, r ≠ a.inodeCount → a'.inodes r =
    update a.inodes dir { a.inodes dir with iSize := (a.inodes dir).iSize + grown } r

theorem TreeInv.dirAt (inv : TreeInv a T) (hdir : (a.inodes dir).iOp = some .dir) :
    (a.inodes dir).iIno % 2 ^ 32 = (a.inodes dir).iIno ∧
    InodeAt a.disk.content (a.inodes dir).iIno hodoTypeDir := by
  obtain ⟨hlt, hat⟩ := (inv.vfs.backed dir).dir hdir
  exact ⟨Nat.mod_eq_of_lt hlt, hat⟩

theorem creates_of_entered {isDir : Bool} {e : Entry} {m' a' : Machine Store} {k : Kind}
    {cred : Cred} {mode : Nat} {now : Timespec} {grown : Int} {i : VfsInode}
    (hk : k.operations = if isDir then .dir else .file)
    (inv : TreeInv a T) (hdir : (a.inodes dir).iOp = some .dir)
    (h : Entered (Machine.later (Machine.withInode a)) T (a.inodes dir).iIno name isDir e m')
    (hdisk : a'.disk = m'.disk) (hcount : a'.inodeCount = m'.inodeCount)
    (hinodes : a'.inodes = update
      (update m'.inodes dir { m'.inodes dir with iSize := (m'.inodes dir).iSize + grown })
      a.inodeCount (VfsInode.setUp i k cred mode e.iIno now)) :
    Creates a T dir name isDir grown e a' := by
  have hne : dir ≠ a.inodeCount := Nat.ne_of_lt (callable_lt inv.vfs.toVfsInv (Or.inl hdir))
  have hsame : m'.inodes = update a.inodes a.inodeCount newInode := h.inodes.inodes
  have hcount' : a'.inodeCount = a.inodeCount + 1 := hcount.trans h.inodes.inodeCount
  have htype : entryType e = if isDir then hodoTypeDir else hodoTypeReg := by
    rw [entryType, h.isDir]
  have hbacked : Backed a'.disk.content (VfsInode.setUp i k cred mode e.iIno now) := by
    rw [hdisk]
    apply backed_setUp h.lt
    · intro hop
      have hat := h.there
      cases isDir with
      | true => rwa [htype] at hat
      | false => rw [hk] at hop; cases hop
    · intro hop
      have hat := h.there
      cases isDir with
      | true => rw [hk] at hop; cases hop
      | false => rwa [htype] at hat
  have hinodes' : ∀ r, r ≠ a.inodeCount → a'.inodes r =
      update a.inodes dir { a.inodes dir with iSize := (a.inodes dir).iSize + grown } r := by
    intro r hr
    rw [hinodes, update_other _ _ hr, hsame]
    by_cases hrd : r = dir
    · rw [hrd, update_same, update_same, update_other _ _ hne]
    · rw [update_other _ _ hrd, update_other _ _ hrd, update_other _ _ hr]
  have hnumber : (a'.inodes a.inodeCount).iIno = e.iIno := by
    rw [hinodes, update_same]
    rfl
  have hvfs : VfsInv a'.disk.content a'.inodes (a.inodeCount + 1) := by
    have hnew : VfsInv a'.disk.content m'.inodes (a.inodeCount + 1) := by
      rw [hsame, hdisk]
      exact inv.vfs.toVfsInv.alloc.mono h.keeps
    rw [hinodes]
    refine VfsInv.update_backed ?_ hbacked (Nat.lt_succ_self _)
    exact hnew.update_tables rfl rfl rfl
  refine ⟨h.name, h.isDir, h.fresh, hdisk ▸ h.growth, ⟨hdisk ▸ h.tree, ?_⟩, hnumber, hcount',
    hinodes'⟩
  rw [hcount']
  refine inv.vfs.made h.fresh hvfs hnumber fun r hr => ?_
  rw [hinodes' r hr]
  by_cases hrd : r = dir
  · rw [hrd, update_same]
    exact ⟨rfl, rfl, rfl⟩
  · rw [update_other _ _ hrd]
    exact ⟨rfl, rfl, rfl⟩

theorem wp_hodoCreate_tree {cred : Cred} {mode : Nat} (inv : TreeInv a T)
    (hdir : (a.inodes dir).iOp = some .dir)
    (vacant : ∀ e ∈ T (a.inodes dir).iIno, e.name ≠ name) :
    wp (plain D clock) (hodoCreate cred dir name.bytes mode)
      (fun r a' => r = (0, a.inodeCount) ∧ ∃ e, Creates a T dir name false 1 e a') a := by
  obtain ⟨hmod, hat⟩ := inv.dirAt hdir
  have hsame : ((Machine.later (Machine.withInode a)).inodes dir) = a.inodes dir :=
    update_other _ _ (Nat.ne_of_lt (callable_lt inv.vfs.toVfsInv (Or.inl hdir)))
  simp only [hodoCreate, wp_bind, wp_allocInode, wp_currentTime, wp_setInode, wp_pure]
  apply wp_mono _ (wp_storeNewInode_tree (m := Machine.later (Machine.withInode a))
    (show regularFile.type = if false then 1 else 0 from rfl) inv.toDiskTree
      (by rw [hsame]; exact hmod) hat vacant)
  rintro n m' ⟨e, rfl, h⟩
  exact ⟨trivial, e, creates_of_entered rfl inv hdir h rfl rfl rfl⟩

theorem wp_hodoMkdirBody_tree {cred : Cred} {mode : Nat} (inv : TreeInv a T)
    (hdir : (a.inodes dir).iOp = some .dir)
    (vacant : ∀ e ∈ T (a.inodes dir).iIno, e.name ≠ name) :
    wp (plain D clock) (hodoMkdirBody cred dir name.bytes mode)
      (fun r a' => r = (0, a.inodeCount) ∧ ∃ e, Creates a T dir name true 0 e a') a := by
  obtain ⟨hmod, hat⟩ := inv.dirAt hdir
  have hsame : ((Machine.later (Machine.withInode a)).inodes dir) = a.inodes dir :=
    update_other _ _ (Nat.ne_of_lt (callable_lt inv.vfs.toVfsInv (Or.inl hdir)))
  simp only [hodoMkdirBody, wp_bind, wp_allocInode, wp_currentTime, wp_setInode, wp_pure]
  apply wp_mono _ (wp_storeNewInode_tree (m := Machine.later (Machine.withInode a))
    (show directory.type = if true then 1 else 0 from rfl) inv.toDiskTree
      (by rw [hsame]; exact hmod) hat vacant)
  rintro n m' ⟨e, rfl, h⟩
  have hsize : update m'.inodes dir { m'.inodes dir with iSize := (m'.inodes dir).iSize + 0 } =
      m'.inodes := by rw [Int.add_zero, update_self]
  exact ⟨trivial, e, creates_of_entered rfl inv hdir h rfl rfl
    (congrArg (update · a.inodeCount (VfsInode.setUp { m'.inodes a.inodeCount with iSize := 2 }
      directory cred mode e.iIno (clock a.tick))) hsize.symm)⟩

end Creation

end TreeCalls
