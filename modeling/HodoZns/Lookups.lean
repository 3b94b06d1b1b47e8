import HodoZns.TreeRuns
import HodoZns.FileReads

/-!
# Lookups and attributes

`hodo_sub_lookup` sets up a new VFS inode from the stored one; `hodo_sub_setattr`
changes the VFS inode alone. Both kinds of inode are set up with operation tables
of their kind when they are made, and with a mixture of both when they are
looked up.
-/

namespace Lookups

open ByteBlock Layout BlockLog ZoneLog CallRuns LogStore Programs Kernel StoreMachine VolumeMachine
  FileBlocks
open Directories Operations Ownership FsRuns SystemRuns FileReads

def iMode (b : Block) : Nat := getLE b 40 2
def iUid (b : Block) : Nat := getLE b 44 4
def iGid (b : Block) : Nat := getLE b 48 4

/-- One of `i_atime`, `i_mtime`, `i_ctime`, at offsets 56, 72 and 88. -/
def timeAt (b : Block) (off : Nat) : Timespec := ⟨getLE b off 8, getLE b (off + 8) 8⟩

/-- The inode of a dentry that is looked up, as it is set up from the stored inode. -/
def VfsInode.lookedUp (i : VfsInode) (target : Block) : VfsInode :=
  { i with
    iIno := iIno target
    iOp := some .dir
    iFop := some .file
    iMode := iMode target
    iUid := iUid target
    iGid := iGid target
    iCtime := timeAt target 88
    iMtime := timeAt target 72
    iAtime := timeAt target 56 }

/-- The inode that `d_add` gives to the dentry; without one the name is reported absent. -/
def hodoSubLookup (dir : Nat) (name : List UInt8) : Program (Option Nat) := do
  let now ← currentTime
  setInode dir fun i => i.setTimes now
  let starting ← startingNumber
  let parent ← getInode dir
  let stack ← auto
  let parentInode ← hodoRead ((if dir = rootRef then starting else parent.iIno) % 2 ^ 32) stack
  let number ← findInodeNumber parentInode (nameArg name)
  if number = nothingFound then pure none
  else do
    let target ← hodoRead (number % 2 ^ 32) zeros
    let inode ← allocInode
    setInode inode fun i => VfsInode.lookedUp i target
    pure (some inode)

/-- `hodo_sub_lookup` up to the search; the inode of the directory. -/
def lookupParent (dir : Nat) : Program Block := do
  let now ← currentTime
  setInode dir fun i => i.setTimes now
  let starting ← startingNumber
  let parent ← getInode dir
  let stack ← auto
  hodoRead ((if dir = rootRef then starting else parent.iIno) % 2 ^ 32) stack

theorem hodoSubLookup_eq (dir : Nat) (name : List UInt8) : hodoSubLookup dir name = (do
    let parentInode ← lookupParent dir
    let number ← findInodeNumber parentInode (nameArg name)
    if number = nothingFound then pure none
    else do
      let target ← hodoRead (number % 2 ^ 32) zeros
      let inode ← allocInode
      setInode inode fun i => VfsInode.lookedUp i target
      pure (some inode)) := by
  simp only [hodoSubLookup, lookupParent, bind_assoc]

theorem passive_lookupParent (dir : Nat) : (lookupParent dir).Only Passive := by
  refine only_bind (only_cmd trivial) fun _ => only_bind (only_cmd trivial) fun _ => ?_
  refine only_bind (only_cmd trivial) fun _ => only_bind (only_cmd trivial) fun _ => ?_
  exact only_bind (only_cmd trivial) fun stack => passive_hodoRead _ stack

theorem wp_lookupParent {D : Disk Store} [LikeStore D] {E : Env} {a : Machine Store} {dir : Nat}
    {b : Block} (valid : Valid a.disk) (root : (a.inodes rootRef).iIno = a.disk.base)
    (hmod : (a.inodes dir).iIno % 2 ^ 32 = (a.inodes dir).iIno)
    (hb : a.disk.content (a.inodes dir).iIno = some b) :
    wp (machine D E) (lookupParent dir) (fun r a' => r = b ∧ a' = Machine.later
      (Machine.updateInode (Machine.later a) dir fun i => i.setTimes (E.clock a.tick))) a := by
  have hino : ((Machine.updateInode (Machine.later a) dir
      fun i => i.setTimes (E.clock a.tick)).inodes dir).iIno = (a.inodes dir).iIno := by
    rw [updateInode_inodes, update_same]
    rfl
  have hnumber : (if dir = rootRef then (Machine.updateInode (Machine.later a) dir
      fun i => i.setTimes (E.clock a.tick)).disk.base else (a.inodes dir).iIno) % 2 ^ 32 =
      (a.inodes dir).iIno := by
    split
    case isTrue hr =>
      rw [← hmod, hr, root]
      rfl
    case isFalse => exact hmod
  simp only [lookupParent, wp_bind, wp_currentTime_clock, wp_setInode, wp_startingNumber,
    wp_getInode,
    wp_auto_stack, hino, hnumber]
  apply (wp_hodoRead_some (m := Machine.later (Machine.updateInode (Machine.later a) dir
    fun i => i.setTimes (E.clock a.tick))) valid hb _ _).mpr
  exact ⟨rfl, rfl⟩

/-- The attributes that `ia_valid` selects. `inGroup` is of the caller: in the group of the file,
or allowed to do as if he were. -/
structure Iattr where
  inGroup : Bool
  mode : Option Nat
  uid : Option Nat
  gid : Option Nat
  size : Option Int
  atime : Option Timespec
  mtime : Option Timespec
  ctime : Option Timespec

/-- `mode & ~S_ISGID`. -/
def withoutSgid (mode : Nat) : Nat := mode &&& 0o175777

def setattrCopy (attr : Iattr) (i : VfsInode) : VfsInode :=
  { i with
    iMode :=
      match attr.mode with
      | some mode => if attr.inGroup then mode else withoutSgid mode
      | none => i.iMode
    iUid := attr.uid.getD i.iUid
    iGid := attr.gid.getD i.iGid
    iAtime := attr.atime.getD i.iAtime
    iMtime := attr.mtime.getD i.iMtime
    iCtime := attr.ctime.getD i.iCtime }

/-- `prepared` is what `setattr_prepare` returned, which is not minded on the root. -/
def hodoSubSetattr (prepared : Int) (inode : Nat) (attr : Iattr) : Program Int :=
  if prepared ≠ 0 ∧ inode ≠ rootRef then pure prepared
  else do
    match attr.size with
    | some size => setInode inode fun i => { i with iSize := size }
    | none => pure ()
    setInode inode (setattrCopy attr)
    pure 0

/-- A command after which the two operation tables of each inode are of one kind still. -/
def Matching : Cmd → Prop
  | .setInode _ f => ∀ i, i.iOp = i.iFop → (f i).iOp = (f i).iFop
  | _ => True

variable {σ : Type} {D : Disk σ} {E : Env}

theorem matching_of_quiet {c : Cmd} (hc : Quiet c) : Matching c := by
  cases c with
  | setInode ref f => exact hc.elim
  | _ => trivial

theorem quiet_hodoRead (n : Nat) (buf : Block) : (hodoRead n buf).Only Quiet :=
  only_bind (only_cmd trivial) fun _ => only_pure _ _

theorem quiet_hodoWrite (buf : Block) (n : Nat) : (hodoWrite buf n).Only Quiet :=
  only_bind (only_cmd trivial) fun _ => only_pure _ _

theorem quiet_kmallocUnchecked : kmallocUnchecked.Only Quiet := by
  apply only_bind (only_cmd trivial)
  intro b
  cases b with
  | none => exact .crash
  | some b => exact only_pure _ _

theorem quiet_addDirentFrom (dir : Nat) (sub inode : Block) (blocks i : Nat) (temp : Block) :
    (addDirentFrom dir sub inode blocks i temp).Only Quiet := by
  induction blocks generalizing i temp with
  | zero => exact only_pure _ _
  | succ blocks ih =>
    rw [addDirentFrom]
    refine only_ite ?_ ?_
    · refine only_bind (quiet_hodoRead _ _) fun temp => ?_
      cases freeOffset temp with
      | none => exact ih (i + 1) temp
      | some j =>
        exact only_bind (quiet_hodoWrite _ _) fun _ => only_bind (quiet_hodoWrite _ _) fun _ =>
          only_pure _ _
    · exact only_bind (only_cmd trivial) fun stack => only_bind (quiet_hodoWrite _ _) fun _ =>
        only_bind (quiet_hodoWrite _ _) fun _ => only_pure _ _

theorem quiet_storeNewInode (k : Kind) (cred : Cred) (dir : Nat) (name : List UInt8) (mode : Nat)
    (now : Timespec) : (storeNewInode k cred dir name mode now).Only Quiet := by
  refine only_bind (only_cmd trivial) fun stack => only_bind (only_cmd trivial) fun n => ?_
  refine only_bind (quiet_hodoWrite _ _) fun _ => only_bind (only_cmd trivial) fun parent => ?_
  refine only_bind ?_ fun _ => only_pure _ _
  exact only_bind (quiet_hodoRead _ _) fun inode => only_bind quiet_kmallocUnchecked fun temp =>
    quiet_addDirentFrom _ _ _ 10 0 temp

theorem quiet_collect (temp : Block) : (collect temp).Only Quiet := only_cmd trivial

/-- The calls that make an inode or change its attributes. -/
inductive AttrCall where
  | create (cred : Cred) (dir : Nat) (name : List UInt8) (mode : Nat)
  | mkdir (cred : Cred) (dir : Nat) (name : List UInt8) (mode : Nat)
  | setattr (prepared : Int) (inode : Nat) (attr : Iattr)

def AttrCall.program : AttrCall → Program (Int × Nat)
  | .create cred dir name mode => hodoCreate cred dir name mode
  | .mkdir cred dir name mode => hodoMkdir cred dir name mode
  | .setattr prepared inode attr => do
    let ret ← hodoSubSetattr prepared inode attr
    pure (ret, inode)

def attrStep {σ : Type} (D : Disk σ) (E : Env) (m : Machine σ) (c : AttrCall) :
    Option ((Int × Nat) × Machine σ) :=
  match exec (machine D E) c.program m with
  | .done r => some r
  | _ => none

theorem attrStep_eq_some {c : AttrCall} {m m' : Machine σ} {r : Int × Nat}
    (h : attrStep D E m c = some (r, m')) : exec (machine D E) c.program m = .done (r, m') := by
  rw [attrStep] at h
  split at h
  case h_1 hexec => rw [hexec, Option.some.inj h]
  case h_2 => cases h

/-- The operation tables of each VFS inode are both those of files, both those of
directories, or not set. -/
def OfOneKind (m : Machine σ) : Prop := ∀ r, (m.inodes r).iOp = (m.inodes r).iFop

theorem ofOneKind_of_matching {m m' : Machine σ} {c : Cmd} {r : c.Reply} (hc : Matching c)
    (h : OfOneKind m) (hstep : machine D E c m = .done (r, m')) : OfOneKind m' := by
  cases c with
  | newInode =>
    obtain ⟨_, rfl⟩ := Prod.mk.inj (Outcome.done.inj hstep)
    intro r
    by_cases hr : r = m.inodeCount
    · simp only [hr, update_same, newInode]
    · simp only [update_other _ _ hr]
      exact h r
  | setInode ref f =>
    obtain ⟨_, rfl⟩ := Prod.mk.inj (Outcome.done.inj hstep)
    intro r
    by_cases hr : r = ref
    · simp only [hr, update_same]
      exact hc _ (h ref)
    · simp only [update_other _ _ hr]
      exact h r
  | startingNumber | next | write buf n | read n buf | erase n | gc temp | kmalloc | auto | now
  | inode ref =>
    obtain ⟨hinodes, _⟩ := inodes_of_quiet (by trivial) hstep
    intro r
    rw [hinodes]
    exact h r

theorem matching_program (c : AttrCall) : c.program.Only Matching := by
  have setUp : ∀ (k : Kind) (cred : Cred) (mode n : Nat) (now : Timespec) (i : VfsInode),
      (VfsInode.setUp i k cred mode n now).iOp = (VfsInode.setUp i k cred mode n now).iFop :=
    fun _ _ _ _ _ _ => rfl
  have stored : ∀ k cred dir name mode now,
    (storeNewInode k cred dir name mode now).Only Matching :=
    fun _ _ _ _ _ _ => (quiet_storeNewInode _ _ _ _ _ _).mono fun _ => matching_of_quiet
  cases c with
  | create cred dir name mode =>
    refine only_bind (only_cmd trivial) fun inode => only_bind (only_cmd trivial) fun now => ?_
    refine only_bind (stored _ _ _ _ _ _) fun n => only_bind (only_cmd fun i hi => hi) fun _ => ?_
    exact only_bind (only_cmd fun i _ => setUp _ _ _ _ _ i) fun _ => only_pure _ _
  | mkdir cred dir name mode =>
    refine only_bind ?_ fun r => only_bind ?_ fun temp => ?_
    · refine only_bind (only_cmd trivial) fun inode => only_bind (only_cmd trivial) fun now => ?_
      refine only_bind (stored _ _ _ _ _ _) fun n => ?_
      exact only_bind (only_cmd fun i _ => setUp _ _ _ _ _ _) fun _ => only_pure _ _
    · exact quiet_kmallocUnchecked.mono fun _ => matching_of_quiet
    · exact only_bind ((quiet_collect temp).mono fun _ => matching_of_quiet) fun _ => only_pure _ _
  | setattr prepared inode attr =>
    refine only_bind (only_ite (only_pure _ _) ?_) fun _ => only_pure _ _
    cases attr.size with
    | none => exact only_bind (only_cmd fun i hi => hi) fun _ => only_pure _ _
    | some size =>
      exact only_bind (only_cmd fun i hi => hi) fun _ =>
        only_bind (only_cmd fun i hi => hi) fun _ =>
        only_pure _ _

theorem ofOneKind_mounted (uid gid groups : Nat) (now : Timespec) :
    OfOneKind (firstMounted uid gid groups now) := by
  intro r
  by_cases hr : r = rootRef
  · rw [hr]
    rfl
  · simp only [firstMounted, mounted, update_other _ _ hr, newInode]

/-- Calls and what follows them keep the tables of one kind. -/
theorem ofOneKind_run {cs : List AttrCall} {m m' : Machine σ} {as : List (Int × Nat)}
    (h : OfOneKind m) (hrun : run (attrStep D E) cs m = some (as, m')) : OfOneKind m' :=
  run_keeps OfOneKind (fun _ c _ _ hm hstep => exec_keeps
    (fun _ _ _ _ hc hm hstep => ofOneKind_of_matching hc hm hstep) (matching_program c) hm
    (attrStep_eq_some hstep)) h hrun

/-- An inode of a directory with the operations of files on it, or the other way round. -/
theorem lookup_operations {m m' : Machine σ} {dir ref : Nat} {name : List UInt8}
    (he : exec (machine D E) (hodoSubLookup dir name) m = .done (some ref, m')) :
    (m'.inodes ref).iOp = some .dir ∧ (m'.inodes ref).iFop = some .file := by
  rw [hodoSubLookup] at he
  iterate 7 obtain ⟨_, _, _, he⟩ := exec_bind_eq_done he
  split at he
  case isTrue => cases he
  case isFalse =>
    obtain ⟨target, m₁, _, he⟩ := exec_bind_eq_done he
    obtain ⟨inode, m₂, _, he⟩ := exec_bind_eq_done he
    obtain ⟨_, m₃, hset, he⟩ := exec_bind_eq_done he
    obtain ⟨hr, rfl⟩ := Prod.mk.inj (Outcome.done.inj he)
    obtain rfl := Option.some.inj hr
    rw [setInode, Cmd.give, exec_cmd] at hset
    obtain ⟨_, rfl⟩ := Prod.mk.inj (Outcome.done.inj hset)
    simp only [update_same]
    exact ⟨rfl, rfl⟩

/-- What the VFS has of an inode. -/
structure SameInode (i i' : VfsInode) : Prop where
  iIno : i.iIno = i'.iIno
  iMode : i.iMode = i'.iMode
  iUid : i.iUid = i'.iUid
  iGid : i.iGid = i'.iGid
  iOp : i.iOp = i'.iOp
  iFop : i.iFop = i'.iFop

/-- The lookup gives the dentry an inode like the one under `ref`. -/
def Rebuilds (D : Disk σ) (E : Env) (m : Machine σ) (dir : Nat) (name : List UInt8) (ref : Nat) :
    Prop :=
  ∃ r m', exec (machine D E) (hodoSubLookup dir name) m = .done (some r, m') ∧
    SameInode (m'.inodes r) (m.inodes ref)

theorem not_rebuilds {m : Machine σ} (h : OfOneKind m) (dir : Nat) (name : List UInt8) (ref : Nat) :
    ¬ Rebuilds D E m dir name ref := by
  rintro ⟨r, m', he, same⟩
  obtain ⟨hop, hfop⟩ := lookup_operations he
  have hkind := h ref
  rw [← same.iOp, ← same.iFop, hop, hfop] at hkind
  cases hkind

/-- Whatever was made and changed since the first mount, and whatever memory holds, no
lookup sets up an inode like one that the calls made. -/
theorem lookup_never_rebuilds (E : Env) (uid gid groups : Nat) (now : Timespec)
    (cs : List AttrCall) (as : List (Int × Nat)) (m : Machine Volume)
    (hrun : run (attrStep volumeDisk E) cs (firstMounted uid gid groups now) = some (as, m))
    (dir : Nat) (name : List UInt8) (ref : Nat) : ¬ Rebuilds volumeDisk E m dir name ref :=
  not_rebuilds (ofOneKind_run (ofOneKind_mounted uid gid groups now) hrun) dir name ref

/-- A file `a` whose mode is changed. -/
def changedFile : List AttrCall :=
  [.create ⟨0, 0⟩ rootRef [97] 0o644,
    .setattr 0 1 ⟨true, some 0o100600, none, none, none, none, none, none⟩]

theorem changedFile_not_rebuilt : ∃ as m,
    run (attrStep volumeDisk (zeroFilled fun _ => ⟨0, 0⟩)) changedFile
      (firstMounted 0 0 0 ⟨0, 0⟩) = some (as, m) ∧
    ¬ Rebuilds volumeDisk (zeroFilled fun _ => ⟨0, 0⟩) m rootRef [97] 1 := by
  have hrun : ∃ r, run (attrStep volumeDisk (zeroFilled fun _ => ⟨0, 0⟩)) changedFile
      (firstMounted 0 0 0 ⟨0, 0⟩) = some r ∧ True := by
    decide +kernel
  obtain ⟨⟨as, m⟩, hrun, _⟩ := hrun
  exact ⟨as, m, hrun, lookup_never_rebuilds _ 0 0 0 ⟨0, 0⟩ changedFile as m hrun rootRef [97] 1⟩

/-- The lookup of that file finds its number, but the old mode, and gives it the operations
of directories. -/
theorem changedFile_lookedUp : ∃ x,
    run (attrStep volumeDisk (zeroFilled fun _ => ⟨0, 0⟩)) changedFile
      (firstMounted 0 0 0 ⟨0, 0⟩) = some x ∧
    ((x.2.inodes 1).iOp = some .file ∧ (x.2.inodes 1).iMode = 0o100600) ∧
    (∀ q, exec (machine volumeDisk (zeroFilled fun _ => ⟨0, 0⟩)) (hodoSubLookup rootRef [97]) x.2 =
      .done q → q.1 = some 2 ∧ (q.2.inodes 2).iIno = (x.2.inodes 1).iIno ∧
        (q.2.inodes 2).iOp = some .dir ∧ (q.2.inodes 2).iMode = 0o100644) ∧
    ¬ Rebuilds volumeDisk (zeroFilled fun _ => ⟨0, 0⟩) x.2 rootRef [97] 1 := by
  have found : ∃ x,
      run (attrStep volumeDisk (zeroFilled fun _ => ⟨0, 0⟩)) changedFile
        (firstMounted 0 0 0 ⟨0, 0⟩) = some x ∧
      ((x.2.inodes 1).iOp = some .file ∧ (x.2.inodes 1).iMode = 0o100600) ∧
      ∀ q, exec (machine volumeDisk (zeroFilled fun _ => ⟨0, 0⟩)) (hodoSubLookup rootRef [97]) x.2 =
        .done q → q.1 = some 2 ∧ (q.2.inodes 2).iIno = (x.2.inodes 1).iIno ∧
          (q.2.inodes 2).iOp = some .dir ∧ (q.2.inodes 2).iMode = 0o100644 := by
    decide +kernel
  obtain ⟨x, hrun, made, looked⟩ := found
  exact ⟨x, hrun, made, looked,
    not_rebuilds (ofOneKind_run (ofOneKind_mounted 0 0 0 ⟨0, 0⟩) hrun) rootRef [97] 1⟩

end Lookups
