import HodoZns.NewInodes
import HodoZns.VolumeMachine

/-!
# Runs of file-system operations

Creations, writes and removals in any order, each called through the operation
tables of a VFS inode. Every one of them keeps the forest of blocks.
-/

namespace FsRuns

open ByteBlock Layout BlockLog ZoneLog LogStore Programs Kernel CallRuns StoreMachine VolumeMachine
open FileBlocks Ancestry BlockForest BlockFields SlotUpdates TreeWrites FileWrites Directories
open Operations DirectoryWrites NewInodes

inductive FsCall where
  | create (cred : Cred) (dir : Nat) (name : List UInt8) (mode : Nat)
  | mkdir (cred : Cred) (dir : Nat) (name : List UInt8) (mode : Nat)
  | write (iocb : Kiocb) (iter : IovIter)
  | remove (dir : Nat) (name : Name)

/-- `hodo_mkdir` stands here without its final call of `GC`. -/
def FsCall.program : FsCall → Program Int
  | .create cred dir name mode => do
    let (ret, _) ← hodoCreate cred dir name mode
    pure ret
  | .mkdir cred dir name mode => do
    let (ret, _) ← hodoMkdirBody cred dir name mode
    pure ret
  | .write iocb iter => do
    let (ret, _, _) ← hodoSubFileWriteIter iocb iter
    pure ret
  | .remove dir name => do
    let parent ← getInode dir
    let (ret, _) ← removeEntry (parent.iIno % 2 ^ 32) name
    pure ret

def fsStep {σ : Type} (D : Disk σ) (E : Env) (m : Machine σ) (c : FsCall) :
    Option (Int × Machine σ) :=
  match exec (machine D E) c.program m with
  | .done r => some r
  | _ => none

/-- The VFS calls an operation only through the tables of the inode, and the
names are short enough for the `name` field. -/
def Dispatched (inodes : Nat → VfsInode) : FsCall → Prop
  | .create _ dir name _ => (inodes dir).iOp = some .dir ∧ name.length ≤ 16
  | .mkdir _ dir name _ => (inodes dir).iOp = some .dir ∧ name.length ≤ 16
  | .write iocb _ => (inodes iocb.inode).iFop = some .file
  | .remove dir _ => (inodes dir).iOp = some .dir

instance (inodes : Nat → VfsInode) : (c : FsCall) → Decidable (Dispatched inodes c)
  | .create _ dir name _ =>
    inferInstanceAs (Decidable ((inodes dir).iOp = some .dir ∧ name.length ≤ 16))
  | .mkdir _ dir name _ =>
    inferInstanceAs (Decidable ((inodes dir).iOp = some .dir ∧ name.length ≤ 16))
  | .write iocb _ => inferInstanceAs (Decidable ((inodes iocb.inode).iFop = some .file))
  | .remove dir _ => inferInstanceAs (Decidable ((inodes dir).iOp = some .dir))

/-- An inode of the given type is stored under `n`. -/
def InodeAt (c : Nat → Option Block) (n : Nat) (type : UInt8) : Prop :=
  ∃ b, c n = some b ∧ isDat b = false ∧ fileType b = type

/-- A VFS inode that can be called goes with a stored inode of its type. -/
structure Backed (c : Nat → Option Block) (i : VfsInode) : Prop where
  dir : i.iOp = some .dir → i.iIno < 2 ^ 32 ∧ InodeAt c i.iIno hodoTypeDir
  file : i.iFop = some .file → i.iIno < 2 ^ 32 ∧ InodeAt c i.iIno hodoTypeReg

/-- References that are not in use cannot be called. -/
structure VfsInv (c : Nat → Option Block) (inodes : Nat → VfsInode) (inodeCount : Nat) : Prop where
  backed : ∀ r, Backed c (inodes r)
  spare : ∀ r, inodeCount ≤ r → (inodes r).iOp = none ∧ (inodes r).iFop = none

structure DiskInv (s : Store) : Prop where
  valid : Valid s
  forest : IsForest s.content
  noIndex : ∀ {n b}, s.content n = some b → isDat b = false → fileType b = hodoTypeDir → NoIndex b

structure FsInv (a : Machine Store) : Prop extends DiskInv a.disk where
  vfs : VfsInv a.disk.content a.inodes a.inodeCount

/-- Where two contents agree on all that is reached, the same is reached. -/
theorem reach_iff_of_same {c c' : Nat → Option Block} {x : Nat}
    (same : ∀ y, Reach (Edge c) x y → c' y = c y) (y : Nat) :
    Reach (Edge c') x y ↔ Reach (Edge c) x y := by
  have hedge : ∀ a p, Reach (Edge c) x a → (Edge c' a p ↔ Edge c a p) := fun a p hreach => by
    simp only [Edge, PointsTo, same a hreach]
  constructor
  · intro hreach
    induction hreach with
    | refl => exact Relation.ReflTransGen.refl
    | tail _ he ih => exact ih.tail ((hedge _ _ ih).mp he)
  · exact reach_congr fun a p hreach => (hedge a p hreach).mpr

/-- All that the inode under `x` leads to is as it was. -/
def SameBelow (s s' : Store) (x : Nat) : Prop :=
  ∀ y, Reach (Edge s.content) x y → s'.content y = s.content y

theorem SameBelow.refl (s : Store) (x : Nat) : SameBelow s s x := fun _ _ => rfl

theorem SameBelow.trans {s s' s'' : Store} {x : Nat} (h : SameBelow s s' x)
    (h' : SameBelow s' s'' x) : SameBelow s s'' x :=
  fun y hreach => (h' y ((reach_iff_of_same h y).mpr hreach)).trans (h y hreach)

/-- The data blocks are among what the inode leads to. -/
theorem SameBelow.dataAt {s s' : Store} {n : Nat} {b : Block} (h : SameBelow s s' n)
    (valid : Valid s) (valid' : Valid s') (forest : IsForest s.content) (hn : s.content n = some b)
    (hb : isDat b = false) (o : Nat) : dataAt s'.content b o = dataAt s.content b o := by
  cases hf : fieldOf o with
  | none => rw [dataAt_none hf valid.content_zero, dataAt_none hf valid'.content_zero]
  | some f =>
    refine dataAt_congr forest valid.content_zero valid'.content_zero hn hb hf rfl
      fun hne x _ hreach => h x (Relation.ReflTransGen.head ?_ hreach)
    exact ⟨_, _, b, hn, slot_of_field hf hb hne⟩

theorem FileWritten.isolated {s s' : Store} {n : Nat} {b b' : Block} (h : FileWritten s s' n b b')
    (forest : IsForest s.content) (hn : s.content n = some b) (hb : isDat b = false) {x : Nat}
    {d : Block} (hx : s.content x = some d) (hd : isDat d = false) (hne : x ≠ n) :
    SameBelow s s' x := by
  intro y hreach
  apply h.frame y
  · exact forest.reach_some hreach (by rw [hx]; exact Option.some_ne_none d)
  · intro hown
    exact forest.forest.roots_disjoint (forest.orphan_of_inode hx hd).no_edge
      (forest.orphan_of_inode hn hb).no_edge hne hreach hown

/-- No number is taken back, and the inodes under other numbers than `ns` lead to what they
led to. -/
structure Elsewhere (s s' : Store) (ns : List Nat) : Prop where
  count_le : s.count ≤ s'.count
  below : ∀ {x d}, s.content x = some d → isDat d = false → x ∉ ns → SameBelow s s' x

theorem Elsewhere.refl (s : Store) (ns : List Nat) : Elsewhere s s ns :=
  ⟨Nat.le_refl _, fun _ _ _ => SameBelow.refl s _⟩

theorem Elsewhere.trans {s s' s'' : Store} {ns ns' : List Nat} (h : Elsewhere s s' ns)
    (h' : Elsewhere s' s'' ns') : Elsewhere s s'' (ns ++ ns') := by
  refine ⟨Nat.le_trans h.count_le h'.count_le, fun {x d} hx hd hne => ?_⟩
  rw [List.mem_append, not_or] at hne
  have below := h.below hx hd hne.1
  have hx' : s'.content x = some d := (below x Relation.ReflTransGen.refl).trans hx
  exact below.trans (h'.below hx' hd hne.2)

theorem FileWritten.elsewhere {s s' : Store} {n : Nat} {b b' : Block}
    (h : FileWritten s s' n b b') (forest : IsForest s.content) (hn : s.content n = some b)
    (hb : isDat b = false) : Elsewhere s s' [n] :=
  ⟨h.count_le, fun hx hd hne =>
    FileWritten.isolated h forest hn hb hx hd (List.ne_of_not_mem_cons hne)⟩

/-- A block under a new number is below no inode. -/
theorem elsewhere_fresh {s s' : Store} {n : Nat} {o : Option Block} (forest : IsForest s.content)
    (count_le : s.count ≤ s'.count) (fresh : s.content n = none)
    (content : s'.content = update s.content n o) : Elsewhere s s' [] := by
  refine ⟨count_le, fun {x d} hx _ _ y hreach => ?_⟩
  have hy := forest.reach_some hreach (by rw [hx]; exact Option.some_ne_none d)
  have hne : y ≠ n := by
    rintro rfl
    exact hy fresh
  rw [content, update_other _ _ hne]

theorem Backed.mono {c c' : Nat → Option Block} {i : VfsInode} (h : Backed c i)
    (keeps : ∀ n t, InodeAt c n t → InodeAt c' n t) : Backed c' i :=
  ⟨fun hi => ⟨(h.dir hi).1, keeps _ _ (h.dir hi).2⟩,
    fun hi => ⟨(h.file hi).1, keeps _ _ (h.file hi).2⟩⟩

theorem backed_newInode (c : Nat → Option Block) : Backed c newInode :=
  ⟨fun h => (by cases h), fun h => (by cases h)⟩

theorem fileType_of_fields {b b' : Block}
    (fields : ∀ off k, 16 ≤ off → off + k ≤ 56 → getLE b' off k = getLE b off k) :
    fileType b' = fileType b := by
  have h := fields 33 1 (by omega) (by omega)
  simp only [getLE, Nat.mul_zero, Nat.add_zero] at h
  exact UInt8.toNat_inj.mp h

/-- Another inode is not below the one that is written. -/
theorem other_inode {s s' : Store} {n x : Nat} {b b' d : Block} (h : FileWritten s s' n b b')
    (forest : IsForest s.content) (hx : s.content x = some d) (hd : isDat d = false)
    (hne : x ≠ n) : s'.content x = some d := by
  rw [h.frame x (by rw [hx]; exact Option.some_ne_none d) fun hreach =>
    hne (eq_of_reach_root (forest.orphan_of_inode hx hd).no_edge hreach).symm]
  exact hx

theorem FileWritten.inodeAt {s s' : Store} {n : Nat} {b b' : Block} (h : FileWritten s s' n b b')
    (forest : IsForest s.content) (hn : s.content n = some b) {x : Nat} {t : UInt8}
    (hx : InodeAt s.content x t) : InodeAt s'.content x t := by
  obtain ⟨d, hd, hdat, htype⟩ := hx
  by_cases heq : x = n
  · subst heq
    obtain rfl := Option.some.inj (hn.symm.trans hd)
    exact ⟨b', h.inode, h.isInode, (fileType_of_fields h.fields).trans htype⟩
  · exact ⟨d, other_inode h forest hd hdat heq, hdat, htype⟩

/-- The invariant after a file or directory was rewritten in place. -/
theorem DiskInv.fileWritten {s s' : Store} {n : Nat} {b b' : Block} (inv : DiskInv s)
    (h : FileWritten s s' n b b') (noIndex : fileType b = hodoTypeDir → NoIndex b') :
    DiskInv s' where
  valid := h.valid
  forest := h.forest
  noIndex := by
    intro x d hd hdat htype
    by_cases hx : x = n
    · subst hx
      obtain rfl := Option.some.inj (h.inode.symm.trans hd)
      exact noIndex ((fileType_of_fields h.fields).symm.trans htype)
    · exact inv.noIndex (h.inodes x d hd hdat hx) hdat htype

theorem DiskInv.put_inode {s s' : Store} {n : Nat} {b : Block} (inv : DiskInv s)
    (valid : Valid s') (forest : IsForest s'.content)
    (content : s'.content = update s.content n (some b))
    (noIndex : fileType b = hodoTypeDir → NoIndex b) : DiskInv s' where
  valid := valid
  forest := forest
  noIndex := by
    intro x d hd hdat htype
    rw [content] at hd
    by_cases hx : x = n
    · rw [hx, update_same] at hd
      obtain rfl := Option.some.inj hd
      exact noIndex htype
    · rw [update_other _ _ hx] at hd
      exact inv.noIndex hd hdat htype

section Vfs

variable {c c' : Nat → Option Block} {inodes : Nat → VfsInode} {count ref : Nat}

theorem VfsInv.mono (h : VfsInv c inodes count) (keeps : ∀ n t, InodeAt c n t → InodeAt c' n t) :
    VfsInv c' inodes count :=
  ⟨fun r => (h.backed r).mono keeps, h.spare⟩

theorem backed_of_tables {i j : VfsInode} (h : Backed c i) (hino : j.iIno = i.iIno)
    (hop : j.iOp = i.iOp) (hfop : j.iFop = i.iFop) : Backed c j :=
  ⟨fun hj => by rw [hino]; exact h.dir (hop.symm.trans hj),
    fun hj => by rw [hino]; exact h.file (hfop.symm.trans hj)⟩

/-- An update that leaves the number and the tables of an inode alone. -/
theorem VfsInv.update_tables (h : VfsInv c inodes count) {j : VfsInode}
    (hino : j.iIno = (inodes ref).iIno) (hop : j.iOp = (inodes ref).iOp)
    (hfop : j.iFop = (inodes ref).iFop) : VfsInv c (update inodes ref j) count := by
  refine ⟨fun r => ?_, fun r hr => ?_⟩ <;> by_cases heq : r = ref
  · rw [heq, update_same]
    exact backed_of_tables (h.backed ref) hino hop hfop
  · rw [update_other _ _ heq]
    exact h.backed r
  · rw [heq, update_same, hop, hfop]
    exact h.spare ref (heq ▸ hr)
  · rw [update_other _ _ heq]
    exact h.spare r hr

/-- An inode in use is set up. -/
theorem VfsInv.update_backed (h : VfsInv c inodes count) {j : VfsInode} (hj : Backed c j)
    (hlt : ref < count) : VfsInv c (update inodes ref j) count := by
  refine ⟨fun r => ?_, fun r hr => ?_⟩ <;> by_cases heq : r = ref
  · rw [heq, update_same]
    exact hj
  · rw [update_other _ _ heq]
    exact h.backed r
  · omega
  · rw [update_other _ _ heq]
    exact h.spare r hr

theorem VfsInv.alloc (h : VfsInv c inodes count) :
    VfsInv c (update inodes count newInode) (count + 1) := by
  refine ⟨fun r => ?_, fun r hr => ?_⟩
  · by_cases heq : r = count
    · rw [heq, update_same]
      exact ⟨fun h => (by cases h), fun h => (by cases h)⟩
    · rw [update_other _ _ heq]
      exact h.backed r
  · rw [update_other _ _ (by omega)]
    exact h.spare r (by omega)

end Vfs

theorem DiskInv.dirInode {s : Store} (inv : DiskInv s) {i : VfsInode} (backed : Backed s.content i)
    (h : i.iOp = some .dir) : ∃ b, s.content (i.iIno % 2 ^ 32) = some b ∧ isDat b = false ∧
      fileType b = hodoTypeDir ∧ NoIndex b := by
  obtain ⟨hlt, b, hb, hdat, htype⟩ := backed.dir h
  rw [Nat.mod_eq_of_lt hlt]
  exact ⟨b, hb, hdat, htype, inv.noIndex hb hdat htype⟩

variable {D : Disk Store} [LikeStore D] {clock : Nat → Timespec} {a : Machine Store}

/-- The directory under `n` may have changed. -/
structure DirChanged (m m' : Machine Store) (n : Nat) : Prop where
  inv : DiskInv m'.disk
  inodes : SameInodes m m'
  keeps : ∀ x t, InodeAt m.disk.content x t → InodeAt m'.disk.content x t
  elsewhere : Elsewhere m.disk m'.disk [n]

theorem dirChanged_of_same {m m' : Machine Store} (inv : DiskInv m.disk) (disk : m'.disk = m.disk)
    (inodes : SameInodes m m') (n : Nat) : DirChanged m m' n where
  inv := disk ▸ inv
  inodes := inodes
  keeps := by
    rw [disk]
    exact fun _ _ hx => hx
  elsewhere := by
    rw [disk]
    exact Elsewhere.refl _ _

theorem dirChanged_of_written {m m' : Machine Store} {n : Nat} {b b' : Block}
    (inv : DiskInv m.disk) (hn : m.disk.content n = some b) (hb : isDat b = false)
    (noIndex : NoIndex b) (h : FileWritten m.disk m'.disk n b b')
    (ptrs : ∀ k, 10 ≤ k → inodePtr b' k = inodePtr b k) (inodes : SameInodes m m') :
    DirChanged m m' n where
  inv := inv.fileWritten h fun _ k hlo hhi => (ptrs k hlo).trans (noIndex k hlo hhi)
  inodes := inodes
  keeps _ _ := FileWritten.inodeAt h inv.forest hn
  elsewhere := FileWritten.elsewhere h inv.forest hn hb

/-- Whether or not the directory took the entry. -/
theorem DiskInv.added {m m' : Machine Store} {n : Nat} {b sub : Block} {r : Int}
    (inv : DiskInv m.disk) (hn : m.disk.content n = some b) (hb : isDat b = false)
    (noIndex : NoIndex b) (h : AddResult m n b sub 0 r m') : DirChanged m m' n := by
  cases h with
  | full _ hdisk hinodes => exact dirChanged_of_same inv hdisk hinodes n
  | slot _ _ _ _ _ hwritten _ hptrs hinodes =>
    exact dirChanged_of_written inv hn hb noIndex hwritten.toFileWritten hptrs hinodes
  | block _ _ _ _ hwritten _ hptrs hinodes =>
    exact dirChanged_of_written inv hn hb noIndex hwritten.toFileWritten hptrs hinodes

/-- Whether or not the directory had the entry. -/
theorem DiskInv.removed {m m' : Machine Store} {n : Nat} {b : Block} {name : Name} {r : Int × Nat}
    (inv : DiskInv m.disk) (hn : m.disk.content n = some b) (hb : isDat b = false)
    (noIndex : NoIndex b) (h : RemoveResult m n b name r m') : DirChanged m m' n := by
  cases h with
  | removed h =>
    obtain ⟨_, _, _, _, _, hwritten, _, hptrs, hinodes⟩ := h
    exact dirChanged_of_written inv hn hb noIndex hwritten.toFileWritten
      (fun k _ => hptrs k) hinodes
  | absent _ hdisk hinodes => exact dirChanged_of_same inv hdisk hinodes n

/-- A new inode was stored under `n` and its directory was to take an entry for it; its VFS
inode is not yet set up. -/
structure NewlyStored (m : Machine Store) (dir : Nat) (type : UInt8) (n : Nat)
    (m' : Machine Store) : Prop where
  inv : FsInv m'
  inodes : SameInodes m m'
  lt : n < 2 ^ 32
  there : InodeAt m'.disk.content n type
  fresh : m.disk.content n = none
  elsewhere : Elsewhere m.disk m'.disk [(m.inodes dir).iIno]

theorem wp_storeNewInode_inv {k : Kind} {cred : Cred} {name : List UInt8} {mode dir : Nat}
    {now : Timespec} {m : Machine Store} (inv : FsInv m) (hdir : (m.inodes dir).iOp = some .dir)
    (hname : name.length ≤ 16) :
    wp (plain D clock) (storeNewInode k cred dir name mode now)
      (NewlyStored m dir (UInt8.ofNat k.type)) m := by
  obtain ⟨b, hb, hdat, htype, hnoIndex⟩ := inv.dirInode (inv.vfs.backed dir) hdir
  apply wp_mono _ (wp_storeNewInode hname rfl inv.valid inv.forest hb hdat)
  rintro n m' ⟨m₁, hlt, hnone, hcontent, valid₁, forest₁, hcount, hinodes, hb₁, hadd⟩
  have hnew : InodeAt m₁.disk.content n (UInt8.ofNat k.type) :=
    ⟨_, by rw [hcontent, update_same], isDat_storedInode zeros, fileType_storedInode zeros⟩
  have hkeeps : ∀ x t, InodeAt m.disk.content x t → InodeAt m₁.disk.content x t := by
    rintro x t ⟨d, hd, hx⟩
    have hne : x ≠ n := by
      rintro rfl
      rw [hnone] at hd
      cases hd
    exact ⟨d, by rw [hcontent, update_other _ _ hne, hd], hx⟩
  have inv₁ : DiskInv m₁.disk := inv.toDiskInv.put_inode valid₁ forest₁ hcontent
    fun _ i _ _ => inodePtr_storedInode hname i
  have changed := inv₁.added hb₁ hdat hnoIndex hadd
  have hfresh := elsewhere_fresh inv.forest (Nat.le_of_lt hcount) hnone hcontent
  refine ⟨⟨changed.inv, ?_⟩, hinodes.trans changed.inodes, hlt, changed.keeps _ _ hnew, hnone, ?_⟩
  · rw [changed.inodes.inodes, changed.inodes.inodeCount, hinodes.inodes, hinodes.inodeCount]
    exact inv.vfs.mono fun x t hx => changed.keeps x t (hkeeps x t hx)
  · have hmod := Nat.mod_eq_of_lt ((inv.vfs.backed dir).dir hdir).1
    rw [← hmod]
    exact hfresh.trans changed.elsewhere

theorem backed_setUp {c : Nat → Option Block} {i : VfsInode} {k : Kind} {cred : Cred}
    {mode n : Nat} {now : Timespec} (hn : n < 2 ^ 32)
    (hdir : k.operations = .dir → InodeAt c n hodoTypeDir)
    (hfile : k.operations = .file → InodeAt c n hodoTypeReg) :
    Backed c (VfsInode.setUp i k cred mode n now) :=
  ⟨fun h => ⟨hn, hdir (Option.some.inj h)⟩, fun h => ⟨hn, hfile (Option.some.inj h)⟩⟩

theorem FsInv.withInode (inv : FsInv a) : FsInv (Machine.later (Machine.withInode a)) :=
  ⟨inv.toDiskInv, inv.vfs.alloc⟩

theorem FsInv.dir_withInode (inv : FsInv a) {dir : Nat} (hdir : (a.inodes dir).iOp = some .dir) :
    ((Machine.withInode a).inodes dir).iOp = some .dir := by
  have hne : dir ≠ a.inodeCount := by
    rintro rfl
    rw [(inv.vfs.spare _ (Nat.le_refl _)).1] at hdir
    cases hdir
  rwa [withInode_inodes, update_other _ _ hne]

/-- What a creation leaves alone. -/
structure Creation (a : Machine Store) (dir : Nat) (a' : Machine Store) : Prop where
  inv : FsInv a'
  count : a'.inodeCount = a.inodeCount + 1
  fresh : a.disk.content (a'.inodes a.inodeCount).iIno = none
  inodes : ∀ r, r ≠ a.inodeCount → r ≠ dir → a'.inodes r = a.inodes r
  parent : (a'.inodes dir).iIno = (a.inodes dir).iIno ∧ (a'.inodes dir).iOp = (a.inodes dir).iOp ∧
    (a'.inodes dir).iFop = (a.inodes dir).iFop
  elsewhere : Elsewhere a.disk a'.disk [(a.inodes dir).iIno]

theorem FsInv.dir_lt (inv : FsInv a) {dir : Nat} (hdir : (a.inodes dir).iOp = some .dir) :
    dir < a.inodeCount := by
  by_contra hge
  rw [(inv.vfs.spare dir (Nat.not_lt.mp hge)).1] at hdir
  cases hdir

/-- The VFS inode of the new number is set up, after a change to that of the directory. -/
theorem creation_of_stored {k : Kind} {type : UInt8} {cred : Cred} {dir mode n : Nat}
    {now : Timespec} {m' : Machine Store} {i p : VfsInode} (inv : FsInv a)
    (hdir : (a.inodes dir).iOp = some .dir)
    (h : NewlyStored (Machine.later (Machine.withInode a)) dir type n m')
    (hfile : k.operations = .file → type = hodoTypeReg)
    (hkind : k.operations = .dir → type = hodoTypeDir) (hino : p.iIno = (m'.inodes dir).iIno)
    (hop : p.iOp = (m'.inodes dir).iOp) (hfop : p.iFop = (m'.inodes dir).iFop) :
    Creation a dir { m' with
      inodes :=
        update (update m'.inodes dir p) a.inodeCount (VfsInode.setUp i k cred mode n now) } := by
  have hne : dir ≠ a.inodeCount := Nat.ne_of_lt (inv.dir_lt hdir)
  have hold : ∀ r, r ≠ a.inodeCount → m'.inodes r = a.inodes r := by
    intro r hr
    rw [h.inodes.inodes, later_inodes, withInode_inodes, update_other _ _ hr]
  have hcount : m'.inodeCount = a.inodeCount + 1 := by
    rw [h.inodes.inodeCount, later_inodeCount, withInode_inodeCount]
  refine ⟨⟨h.inv.toDiskInv, ?_⟩, hcount, ?_, fun r hr hrd => ?_, ?_, ?_⟩
  · apply VfsInv.update_backed
    · exact h.inv.vfs.update_tables hino hop hfop
    · exact backed_setUp h.lt (fun hdir => hkind hdir ▸ h.there) fun hreg => hfile hreg ▸ h.there
    · rw [hcount]
      exact Nat.lt_succ_self _
  · simp only [update_same]
    exact h.fresh
  · simp only [update_other _ _ hr, update_other _ _ hrd]
    exact hold r hr
  · simp only [update_other _ _ hne, update_same, hino, hop, hfop, hold dir hne]
    exact ⟨trivial, trivial, trivial⟩
  · have hparent : (Machine.later (Machine.withInode a)).inodes dir = a.inodes dir := by
      rw [later_inodes, withInode_inodes, update_other _ _ hne]
    exact hparent ▸ h.elsewhere

theorem wp_hodoCreate {cred : Cred} {dir : Nat} {name : List UInt8} {mode : Nat} (inv : FsInv a)
    (hdir : (a.inodes dir).iOp = some .dir) (hname : name.length ≤ 16) :
    wp (plain D clock) (hodoCreate cred dir name mode) (fun _ a' => Creation a dir a') a := by
  simp only [hodoCreate, wp_bind, wp_allocInode, wp_currentTime, wp_setInode, wp_pure]
  apply wp_mono _ (wp_storeNewInode_inv inv.withInode (inv.dir_withInode hdir) hname)
  intro n m' stored
  exact creation_of_stored inv hdir stored (fun _ => rfl) (fun h => by cases h) rfl rfl rfl

theorem wp_hodoMkdirBody {cred : Cred} {dir : Nat} {name : List UInt8} {mode : Nat} (inv : FsInv a)
    (hdir : (a.inodes dir).iOp = some .dir) (hname : name.length ≤ 16) :
    wp (plain D clock) (hodoMkdirBody cred dir name mode) (fun _ a' => Creation a dir a') a := by
  simp only [hodoMkdirBody, wp_bind, wp_allocInode, wp_currentTime, wp_setInode, wp_pure]
  apply wp_mono _ (wp_storeNewInode_inv inv.withInode (inv.dir_withInode hdir) hname)
  intro n m' stored
  have creation : Creation a dir { m' with
      inodes := update (update m'.inodes dir (m'.inodes dir)) a.inodeCount
        (VfsInode.setUp { m'.inodes a.inodeCount with iSize := 2 } directory cred mode n
          (clock (Machine.withInode a).tick)) } :=
    creation_of_stored inv hdir stored (fun h => by cases h) (fun _ => rfl) rfl rfl rfl
  rw [update_self] at creation
  exact creation

theorem FsInv.fileInode (inv : FsInv a) {ref : Nat} (h : (a.inodes ref).iFop = some .file) :
    ∃ b, a.disk.content ((a.inodes ref).iIno % 2 ^ 32) = some b ∧ isDat b = false ∧
      fileType b = hodoTypeReg := by
  obtain ⟨hlt, hinode⟩ := (inv.vfs.backed ref).file h
  rw [Nat.mod_eq_of_lt hlt]
  exact hinode

theorem VfsInv.onlySize {c : Nat → Option Block} {m m' : Machine Store} {ref : Nat}
    (h : VfsInv c m.inodes m.inodeCount) (hsize : OnlySize m m' ref) :
    VfsInv c m'.inodes m'.inodeCount := by
  obtain ⟨size, hinodes, hcount⟩ := hsize
  rw [hinodes, hcount]
  exact h.update_tables rfl rfl rfl

theorem FsInv.written {a' : Machine Store} {n ref : Nat} {b b' : Block} (inv : FsInv a)
    (hn : a.disk.content n = some b) (htype : fileType b = hodoTypeReg)
    (h : FileWritten a.disk a'.disk n b b') (hsize : OnlySize a a' ref) : FsInv a' where
  toDiskInv := inv.toDiskInv.fileWritten h fun hdir =>
    absurd (htype.symm.trans hdir) (by decide)
  vfs := (inv.vfs.onlySize hsize).mono fun _ _ => FileWritten.inodeAt h inv.forest hn

theorem FsInv.dirChanged {a' : Machine Store} {n : Nat} (inv : FsInv a) (h : DirChanged a a' n) :
    FsInv a' := by
  refine ⟨h.inv, ?_⟩
  rw [h.inodes.inodes, h.inodes.inodeCount]
  exact inv.vfs.mono h.keeps

theorem wp_removeEntry_changed {dir : Nat} {name : Name} (inv : FsInv a)
    (hdir : (a.inodes dir).iOp = some .dir) :
    wp (plain D clock) (removeEntry ((a.inodes dir).iIno % 2 ^ 32) name)
      (fun _ a' => DirChanged a a' (a.inodes dir).iIno) a := by
  obtain ⟨b, hb, hdat, _, hnoIndex⟩ := inv.dirInode (inv.vfs.backed dir) hdir
  apply wp_mono _ (wp_removeEntry inv.valid inv.forest hb hdat hnoIndex)
  intro r a' hr
  have changed := inv.toDiskInv.removed hb hdat hnoIndex hr
  rwa [Nat.mod_eq_of_lt ((inv.vfs.backed dir).dir hdir).1] at changed

/-- Every call keeps the invariant. -/
theorem wp_call (inv : FsInv a) {c : FsCall} (h : Dispatched a.inodes c) :
    wp (plain D clock) c.program (fun _ a' => FsInv a') a := by
  cases c with
  | create cred dir name mode =>
    simp only [FsCall.program, wp_bind, wp_pure]
    exact wp_mono (fun _ _ creation => creation.inv) (wp_hodoCreate inv h.1 h.2)
  | mkdir cred dir name mode =>
    simp only [FsCall.program, wp_bind, wp_pure]
    exact wp_mono (fun _ _ creation => creation.inv) (wp_hodoMkdirBody inv h.1 h.2)
  | write iocb iter =>
    obtain ⟨b, hb, hdat, htype⟩ := inv.fileInode h
    simp only [FsCall.program, wp_bind, wp_pure]
    apply wp_mono _ (wp_hodoSubFileWriteIter rfl inv.valid inv.forest hb hdat)
    rintro r a' ⟨⟨b', hwritten⟩, hsize⟩
    exact inv.written hb htype hwritten hsize
  | remove dir name =>
    simp only [FsCall.program, wp_bind, wp_getInode, wp_pure]
    exact wp_mono (fun _ _ => inv.dirChanged) (wp_removeEntry_changed inv h)

theorem valid_mountedStore (stack : Block) (uid gid : Nat) :
    Valid (mountedStore stack uid gid) := by
  have hcontent : ∀ {n b}, (mountedStore stack uid gid).content n = some b →
      n = 16 ∧ rootInode stack 16 uid gid = b := by
    intro n b hb
    simp only [mountedStore, update] at hb
    split at hb
    case isTrue hn => exact ⟨hn, Option.some.inj hb⟩
    case isFalse => cases hb
  refine ⟨rfl, by simp [mountedStore], fun hb => ?_, fun hb => ?_⟩
  · obtain ⟨rfl, _⟩ := hcontent hb
    exact ⟨Nat.le_refl 16, Nat.lt_succ_self 16⟩
  · obtain ⟨rfl, rfl⟩ := hcontent hb
    rw [ownNumber, rootInode, isDat_putInodeFields]
    exact (iIno_putInodeFields stack _).trans (Nat.mod_eq_of_lt (show 16 < 2 ^ 32 by decide))

theorem mounted_inodes_other {σ : Type} (disk : σ) (groups : Nat) (now : Timespec) {r : Nat}
    (hr : r ≠ rootRef) : (mounted disk groups now).inodes r = newInode := by
  simp only [mounted, update_other _ _ hr]

theorem fsInv_mounted (uid gid groups : Nat) (now : Timespec) :
    FsInv (mounted (mountedStore zeros uid gid) groups now) := by
  have hroot : isDat (rootInode zeros 16 uid gid) = false := isDat_putInodeFields _ _
  have hptr : ∀ i, inodePtr (rootInode zeros 16 uid gid) i = 0 := fun i =>
    inodePtr_putInodeFields (by simp) i
  have hcontent : ∀ {n b}, (mountedStore zeros uid gid).content n = some b →
      rootInode zeros 16 uid gid = b := by
    intro n b hb
    simp only [mountedStore, update] at hb
    split at hb
    · exact Option.some.inj hb
    · cases hb
  have hnone : ∀ {a i p k}, ¬ PointsTo (mountedStore zeros uid gid).content a i p k := by
    rintro a i p k ⟨b, hb, hslot⟩
    obtain rfl := hcontent hb
    exact hslot.ne_zero ((hslot.of_inode hroot).2.1.symm.trans (hptr i))
  refine ⟨⟨valid_mountedStore zeros uid gid, ⟨fun hb hdat => ?_, fun hp => absurd hp hnone,
    fun hp => absurd hp hnone⟩, fun hb _ _ => ?_⟩, fun r => ?_, fun r hr => ?_⟩
  · obtain rfl := hcontent hb
    rw [hroot] at hdat
    cases hdat
  · obtain rfl := hcontent hb
    exact fun k _ _ => hptr k
  · by_cases hr : r = rootRef
    · rw [hr]
      refine ⟨fun _ => ⟨show (16 : Nat) < 2 ^ 32 by decide, rootInode zeros 16 uid gid, rfl, hroot,
        fileType_putInodeFields _ _⟩, fun h => ?_⟩
      cases h
    · rw [mounted_inodes_other _ _ _ hr]
      exact backed_newInode _
  · have hne : r ≠ rootRef := by
      rintro rfl
      exact absurd hr (Nat.not_le.mpr Nat.zero_lt_one)
    rw [mounted_inodes_other _ _ _ hne]
    exact ⟨rfl, rfl⟩

/-- The machine over the log after the first mount. -/
def firstMounted (uid gid groups : Nat) (now : Timespec) : Machine Volume :=
  mounted (firstMount standardGeometry zeros uid gid) groups now

/-- The call is one the VFS makes, and numbers and room do not run out on the way. -/
def Admitted (clock : Nat → Timespec) (m : Machine Volume) (c : FsCall) : Prop :=
  Dispatched m.inodes c ∧ Guarded (machine volumeDisk (zeroFilled clock)) Fits c.program m

instance (clock : Nat → Timespec) (m : Machine Volume) (c : FsCall) :
    Decidable (Admitted clock m c) :=
  inferInstanceAs (Decidable (Dispatched m.inodes c ∧
    Guarded (machine volumeDisk (zeroFilled clock)) Fits c.program m))

/-- Every run over the log ends, and follows a machine over the plain map. -/
theorem fs_run (clock : Nat → Timespec) (uid gid groups : Nat) (now : Timespec) {cs : List FsCall}
    (calls : EachCall (fsStep volumeDisk (zeroFilled clock)) (Admitted clock) cs
      (firstMounted uid gid groups now)) :
    ∃ as m, run (fsStep volumeDisk (zeroFilled clock)) cs (firstMounted uid gid groups now) =
      some (as, m) ∧ ∃ a, Agrees m a ∧ FsInv a := by
  refine run_total (Admitted clock) (fun m => ∃ a, Agrees m a ∧ FsInv a) ?_
    ⟨_, agrees_mounted zeros uid gid groups now, fsInv_mounted uid gid groups now⟩ calls
  rintro m c ⟨a, agrees, inv⟩ ⟨dispatched, fits⟩
  rw [agrees.inodes] at dispatched
  obtain ⟨r, m', a', hexec, agrees', inv'⟩ := program_runs agrees fits (wp_call inv dispatched)
  exact ⟨r, m', by rw [fsStep, hexec], a', agrees', inv'⟩

end FsRuns
