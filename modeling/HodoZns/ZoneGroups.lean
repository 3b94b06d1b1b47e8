import HodoZns.Listings
import HodoZns.Lookups
import HodoZns.Numbering

/-!
# What belongs to zonefs

The zone groups `seq` and `cnv` and their files are left to the operations of
zonefs. Some operations tell them by the name of a dentry, some by the name of its
parent, some by either, and some by the number of the inode. They agree since the
lookup that comes before a creation finds no free place for the name of a zone group.
-/

namespace ZoneGroups

open ByteBlock Layout BlockLog ZoneLog NumberAllocator Programs Kernel VolumeMachine FileBlocks
open Directories Operations IndexWalks FsRuns SystemRuns DirectoryRuns Lookups Listings Numbering

/-- The argument `zonefs` is the call of the function that zonefs has for the operation. -/
def hodoSetattr (zonefs : Program Int) (prepared : Int) (dentry : Dentry) (attr : Iattr) :
    Program Int :=
  if isZoneGroup dentry.name || isZoneGroup dentry.parentName then zonefs
  else hodoSubSetattr prepared dentry.inode attr

def hodoLookup (zonefs : Program (Except Int (Option Nat))) (dir : Nat) (dentry : Dentry) :
    Program (Except Int (Option Nat)) :=
  if isZoneGroup dentry.name || isZoneGroup dentry.parentName then zonefs
  else do
    let found ← hodoSubLookup dir dentry.name
    pure (.ok found)

def hodoFileOpen (zonefs : Program Int) (dentry : Dentry) : Program Int :=
  if isZoneGroup dentry.parentName then zonefs else pure 0

def hodoFileRelease (zonefs : Program Int) (dentry : Dentry) : Program Int :=
  if isZoneGroup dentry.parentName then zonefs else pure 0

/-- The number is compared as an unsigned int. -/
def hodoFileFsync (zonefs : Program Int) (inode : Nat) : Program Int := do
  let file ← getInode inode
  let starting ← startingNumber
  if file.iIno % 2 ^ 32 < starting then zonefs else pure 0

def hodoReaddir (zonefs : Program DirContext) (parent : Nat) (dentry : Dentry) (ctx : DirContext) :
    Program DirContext :=
  if isZoneGroup dentry.name then zonefs else hodoSubReaddir dentry.inode parent ctx

def eNoent : Int := -2
def eNametoolong : Int := -36

def zonefsNameMax : Nat := 16

def isDigit (c : UInt8) : Bool := decide (chr '0' ≤ c ∧ c ≤ chr '9')

def digit (c : UInt8) : Nat := c.toNat - (chr '0').toNat

/-- The loop of `zonefs_fname_to_fno`, which begins with the last character. -/
def fnoLoop : (fno shift : Nat) → List UInt8 → Except Int Nat
  | fno, _, [] => .ok fno
  | fno, shift, c :: rest =>
    if isDigit c then fnoLoop (fno + digit c * shift) (shift * 10) rest else .error eNoent

def zonefsFnameToFno (fname : List UInt8) : Except Int Nat :=
  let c := fname.getD 0 0
  if isDigit c = false then .error eNoent
  else if 1 < fname.length ∧ c = chr '0' then .error eNoent
  else if fname.length = 1 then .ok (digit c)
  else fnoLoop 0 1 fname.reverse

/-- The zones of the files of the two zone groups, in order. -/
structure ZoneTable where
  cnv : List (Fin numberZones)
  seq : List (Fin numberZones)

/-- The inode of a zone file has the number of its zone. `zgroup` is the `i_private` of the
directory, which nothing sets in a directory of a user. -/
def zonefsGetFileInode (zgroup : Option (List (Fin numberZones))) (name : List UInt8) :
    Program (Except Int (Option Nat)) :=
  match zonefsFnameToFno name with
  | .error e => pure (.error e)
  | .ok fno =>
    match zgroup with
    | none => .crash
    | some zones =>
      match zones[fno]? with
      | none => pure (.error eNoent)
      | some zone => do
        let inode ← allocInode
        setInode inode fun i => { i with iIno := zone, iOp := some .file, iFop := some .file }
        pure (.ok (some inode))

def zonefsGetZgroupInode (ztype : Nat) : Program (Except Int (Option Nat)) := do
  let inode ← allocInode
  setInode inode fun i =>
    { i with iIno := numberZones + ztype + 1, iOp := some .dir, iFop := some .dir }
  pure (.ok (some inode))

/-- A zone group without files is not there. -/
def zonefsGetDirInode (table : ZoneTable) (name : List UInt8) : Program (Except Int (Option Nat)) :=
  if name.length ≠ 3 then pure (.error eNoent)
  else if table.cnv ≠ [] ∧ name = [chr 'c', chr 'n', chr 'v'] then zonefsGetZgroupInode 0
  else if table.seq ≠ [] ∧ name = [chr 's', chr 'e', chr 'q'] then zonefsGetZgroupInode 1
  else pure (.error eNoent)

def zonefsLookup (table : ZoneTable) (dir : Nat) (zgroup : Option (List (Fin numberZones)))
    (name : List UInt8) : Program (Except Int (Option Nat)) :=
  if name.length > zonefsNameMax then pure (.error eNametoolong)
  else if dir = rootRef then zonefsGetDirInode table name
  else zonefsGetFileInode zgroup name

/-- A dentry, and what it is the dentry of; a zone group comes with the zones of its files. -/
structure Object where
  dentry : Dentry
  isDir : Bool
  ofZonefs : Bool
  zones : List (Fin numberZones)

def rootObject : Object := ⟨⟨[chr '/'], [chr '/'], rootRef⟩, true, false, []⟩

def Object.zgroup (o : Object) : Option (List (Fin numberZones)) :=
  if o.ofZonefs then some o.zones else none

/-- The lookup of a name in a directory. -/
def lookupIn (table : ZoneTable) (o : Object) (name : List UInt8) :
    Program (Except Int (Option Nat)) :=
  hodoLookup (zonefsLookup table o.dentry.inode o.zgroup name) o.dentry.inode
    ⟨name, o.dentry.name, 0⟩

/-- What zonefs has under the name, a zone group in the root or a file in a zone group. -/
def Object.entry (table : ZoneTable) (o : Object) (name : List UInt8) (ref : Nat) : Object where
  dentry := ⟨name, o.dentry.name, ref⟩
  isDir := decide (o.dentry.inode = rootRef)
  ofZonefs := true
  zones :=
    if o.dentry.inode ≠ rootRef then []
    else if name = [chr 'c', chr 'n', chr 'v'] then table.cnv
    else table.seq

/-- The objects the VFS has dentries of, and the names that a lookup found free, when users make
files and directories with names of any kind, at any depth. A file or directory is made where
the lookup of its name found nothing. -/
inductive Built (E : Env) (table : ZoneTable) :
    Machine Volume → List Object → List (Object × List UInt8) → Prop
  | mounted (uid gid groups : Nat) (now : Timespec) :
      Built E table (firstMounted uid gid groups now) [rootObject] []
  | absent {m m' : Machine Volume} {os : List Object} {free : List (Object × List UInt8)}
      {o : Object} {name : List UInt8} : Built E table m os free → o ∈ os → o.isDir = true →
      exec (machine volumeDisk E) (lookupIn table o name) m = .done (.ok none, m') →
      Built E table m' os ((o, name) :: free)
  | zonefs {m m' : Machine Volume} {os : List Object} {free : List (Object × List UInt8)}
      {o : Object} {name : List UInt8} {ref : Nat} : Built E table m os free → o ∈ os →
      o.isDir = true → (isZoneGroup name || isZoneGroup o.dentry.name) = true →
      exec (machine volumeDisk E) (lookupIn table o name) m = .done (.ok (some ref), m') →
      Built E table m' (o.entry table name ref :: os) free
  /-- A dentry that was dropped, when its name is found under the number that it had. -/
  | again {m m' : Machine Volume} {os : List Object} {free : List (Object × List UInt8)}
      {o p : Object} {ref : Nat} : Built E table m os free → o ∈ os → o.isDir = true → p ∈ os →
      p.ofZonefs = false → p.dentry.parentName = o.dentry.name →
      exec (machine volumeDisk E) (lookupIn table o p.dentry.name) m = .done (.ok (some ref), m') →
      (m'.inodes ref).iIno = (m.inodes p.dentry.inode).iIno →
      Built E table m' ({ p with dentry := { p.dentry with inode := ref } } :: os) free
  | create {m m' : Machine Volume} {os : List Object} {before after : List (Object × List UInt8)}
      {o : Object} {cred : Cred} {name : List UInt8} {mode : Nat} {r : Int × Nat} :
      Built E table m os (before ++ (o, name) :: after) →
      exec (machine volumeDisk E) (hodoCreate cred o.dentry.inode name mode) m = .done (r, m') →
      Built E table m' (⟨⟨name, o.dentry.name, r.2⟩, false, false, []⟩ :: os) (before ++ after)
  | mkdir {m m' : Machine Volume} {os : List Object} {before after : List (Object × List UInt8)}
      {o : Object} {cred : Cred} {name : List UInt8} {mode : Nat} {r : Int × Nat} :
      Built E table m os (before ++ (o, name) :: after) →
      exec (machine volumeDisk E) (hodoMkdir cred o.dentry.inode name mode) m = .done (r, m') →
      Built E table m' (⟨⟨name, o.dentry.name, r.2⟩, true, false, []⟩ :: os) (before ++ after)

/-- In this state the operation does what the function of zonefs does. -/
def TakesZonefs {α : Type} (E : Env) (m : Machine Volume) (f : Program α → Program α) : Prop :=
  ∀ zonefs, exec (machine volumeDisk E) (f zonefs) m = exec (machine volumeDisk E) zonefs m

/-- A command that is none to the log. -/
def Offline : Cmd → Prop
  | .next | .write _ _ | .read _ _ | .erase _ | .gc _ => False
  | _ => True

/-- The operation ends without a look at the log. -/
def Refuses {α : Type} (p : Program α) : Prop := p.Only Offline

/-- What the operations on a file take it for. -/
structure FileAgree (E : Env) (m : Machine Volume) (d : Dentry) (ofZonefs : Prop) : Prop where
  looked : ∀ dir, TakesZonefs E m (fun zonefs => hodoLookup zonefs dir d) ↔ ofZonefs
  changed : ∀ prepared attr,
    TakesZonefs E m (fun zonefs => hodoSetattr zonefs prepared d attr) ↔ ofZonefs
  opened : TakesZonefs E m (fun zonefs => hodoFileOpen zonefs d) ↔ ofZonefs
  released : TakesZonefs E m (fun zonefs => hodoFileRelease zonefs d) ↔ ofZonefs
  unlinked : ∀ dir, Refuses (hodoUnlink dir d) ↔ ofZonefs
  synced : TakesZonefs E m (fun zonefs => hodoFileFsync zonefs d.inode) ↔ ofZonefs
  read : ∀ iocb iter, iocb.inode = d.inode →
    (TakesZonefs E m (fun zonefs => hodoFileReadIter (fun _ _ => zonefs) iocb iter) ↔ ofZonefs)
  written : ∀ iocb iter, iocb.inode = d.inode →
    (TakesZonefs E m (fun zonefs => hodoFileWriteIter (fun _ _ => zonefs) iocb iter) ↔ ofZonefs)

/-- What the operations on a directory take it for. -/
structure DirAgree (E : Env) (m : Machine Volume) (d : Dentry) (ofZonefs : Prop) : Prop where
  looked : ∀ dir, TakesZonefs E m (fun zonefs => hodoLookup zonefs dir d) ↔ ofZonefs
  changed : ∀ prepared attr,
    TakesZonefs E m (fun zonefs => hodoSetattr zonefs prepared d attr) ↔ ofZonefs
  listed : ∀ parent ctx, TakesZonefs E m (fun zonefs => hodoReaddir zonefs parent d ctx) ↔ ofZonefs
  removed : ∀ dir, Refuses (hodoRmdir dir d) ↔ ofZonefs

/-- All operations on the object agree, and are right. -/
def Agree (E : Env) (m : Machine Volume) (o : Object) : Prop :=
  if o.isDir then DirAgree E m o.dentry (o.ofZonefs = true)
  else FileAgree E m o.dentry (o.ofZonefs = true)

section Operations

variable {α : Type} {E : Env} {m : Machine Volume} {d : Dentry}

theorem takes_iff {f : Program α → Program α} {P : Prop} (x : α)
    (taken : P → ∀ zonefs,
      exec (machine volumeDisk E) (f zonefs) m = exec (machine volumeDisk E) zonefs m)
    (other : ¬ P → ∀ zonefs zonefs',
      exec (machine volumeDisk E) (f zonefs) m = exec (machine volumeDisk E) (f zonefs') m) :
    TakesZonefs E m f ↔ P := by
  refine ⟨fun h => ?_, taken⟩
  by_contra hp
  -- two functions of zonefs that do not do the same
  have hsame := other hp .crash (pure x)
  rw [h, h] at hsame
  cases hsame

/-- An operation that asks for names alone. -/
theorem takes_ite_iff {c : Prop} [Decidable c] (x : α) (p : Program α) :
    TakesZonefs E m (fun zonefs => if c then zonefs else p) ↔ c :=
  takes_iff x (fun h zonefs => by rw [if_pos h]) fun h zonefs zonefs' => by rw [if_neg h, if_neg h]

theorem looked_iff (dir : Nat) : TakesZonefs E m (fun zonefs => hodoLookup zonefs dir d) ↔
    isZoneGroup d.name = true ∨ isZoneGroup d.parentName = true :=
  (takes_ite_iff (.ok none) _).trans Bool.or_eq_true_iff

theorem changed_iff (prepared : Int) (attr : Iattr) :
    TakesZonefs E m (fun zonefs => hodoSetattr zonefs prepared d attr) ↔
      isZoneGroup d.name = true ∨ isZoneGroup d.parentName = true :=
  (takes_ite_iff 0 _).trans Bool.or_eq_true_iff

theorem refuses_unlink_iff (dir : Nat) :
    Refuses (hodoUnlink dir d) ↔ isZoneGroup d.parentName = true := by
  constructor
  · intro h
    by_contra hzone
    rw [hodoUnlink, if_neg hzone] at h
    have h := (h.after.2 ⟨0, 0⟩).after.2 ()
    have h := ((h.after.2 0).after.2 newInode).after.2 newInode
    exact h.after.1
  · intro hzone
    rw [hodoUnlink, if_pos hzone]
    exact only_bind (only_cmd trivial) fun _ => only_bind (only_cmd trivial) fun _ => only_pure _ _

theorem refuses_rmdir_iff (dir : Nat) : Refuses (hodoRmdir dir d) ↔ isZoneGroup d.name = true := by
  constructor
  · intro h
    by_contra hzone
    rw [hodoRmdir, if_neg hzone] at h
    have h := ((h.after.2 0).after.2 newInode).after.2 zeros
    exact (Prog.Only.after (f := fun r => _) h).1
  · intro hzone
    rw [hodoRmdir, if_pos hzone]
    exact only_pure _ _

/-- An operation that asks for the number of the inode. -/
theorem takes_number_iff {c : Nat → Nat → Prop} [∀ n s, Decidable (c n s)] {ref : Nat} (x : α)
    {p : Nat → Program α} :
    TakesZonefs E m (fun zonefs => do
      let i ← getInode ref
      let starting ← startingNumber
      if c i.iIno starting then zonefs else p i.iIno) ↔
      c (m.inodes ref).iIno m.disk.info.startingLogicalNumber := by
  have hexec : ∀ zonefs, exec (machine volumeDisk E) (do
      let i ← getInode ref
      let starting ← startingNumber
      if c i.iIno starting then zonefs else p i.iIno) m =
      exec (machine volumeDisk E)
        (if c (m.inodes ref).iIno m.disk.info.startingLogicalNumber then zonefs
          else p (m.inodes ref).iIno) m := fun _ => rfl
  refine takes_iff x (fun h zonefs => ?_) fun h zonefs zonefs' => ?_
  · rw [hexec, if_pos h]
  · rw [hexec, hexec, if_neg h, if_neg h]

end Operations

section Numbers

variable {E : Env} {m m' : Machine Volume}

/-- One inode was set up, with the number `n`. -/
structure SetUp (m m' : Machine Volume) (n : Nat) : Prop where
  numbered : Numbered m'.disk
  count : m'.inodeCount = m.inodeCount + 1
  number : (m'.inodes m.inodeCount).iIno = n
  same : ∀ r, r < m.inodeCount → (m'.inodes r).iIno = (m.inodes r).iIno

/-- A program that does not touch the inodes. -/
theorem inodes_exec {α : Type} {p : Program α} {r : α} (hp : p.Only Quiet)
    (he : exec (machine volumeDisk E) p m = .done (r, m')) :
    m'.inodes = m.inodes ∧ m'.inodeCount = m.inodeCount := by
  refine exec_keeps (I := fun m' : Machine Volume =>
    m'.inodes = m.inodes ∧ m'.inodeCount = m.inodeCount) ?_ hp ⟨rfl, rfl⟩ he
  rintro m₁ c r m₂ hc ⟨hinodes, hcount⟩ hstep
  obtain ⟨hinodes', hcount'⟩ := inodes_of_quiet hc hstep
  exact ⟨hinodes'.trans hinodes, hcount'.trans hcount⟩

theorem storeNewInode_number {k : Kind} {cred : Cred} {dir : Nat} {name : List UInt8} {mode n : Nat}
    {now : Timespec} (h : Numbered m.disk)
    (he : exec (machine volumeDisk E) (storeNewInode k cred dir name mode now) m = .done (n, m')) :
    16 ≤ n ∧ n < 2 ^ 32 := by
  rw [storeNewInode] at he
  obtain ⟨stack, m₁, hauto, he⟩ := exec_bind_eq_done he
  obtain ⟨n', m₂, hnext, he⟩ := exec_bind_eq_done he
  iterate 3 obtain ⟨_, _, _, he⟩ := exec_bind_eq_done he
  obtain ⟨rfl, _⟩ := Prod.mk.inj (Outcome.done.inj he)
  have h₁ := numbered_exec h hauto
  obtain ⟨rfl, _⟩ := Prod.mk.inj (Outcome.done.inj hnext)
  exact h₁.number

/-- The inodes have the numbers that they had, and no one was set up. -/
structure Unmoved (m m' : Machine Volume) : Prop where
  numbered : Numbered m'.disk
  count : m'.inodeCount = m.inodeCount
  same : ∀ r, (m'.inodes r).iIno = (m.inodes r).iIno

theorem setUp_of_alloc {n ref : Nat} {k : InodeOperations} (h : Numbered m.disk)
    (he : exec (machine volumeDisk E) (do
      let inode ← allocInode
      setInode inode fun i => { i with iIno := n, iOp := some k, iFop := some k }
      pure (.ok (some inode) : Except Int (Option Nat))) m = .done (.ok (some ref), m')) :
    ref = m.inodeCount ∧ SetUp m m' n := by
  have numbered := numbered_exec h he
  obtain ⟨heq, rfl⟩ := Prod.mk.inj (Outcome.done.inj he)
  obtain rfl := Option.some.inj (Except.ok.inj heq)
  refine ⟨rfl, numbered, rfl, ?_, fun r hr => ?_⟩
  · simp only [update_same]
  · simp only [update_other _ _ (Nat.ne_of_lt hr)]

theorem zonefsGetFileInode_found {zgroup : Option (List (Fin numberZones))} {name : List UInt8}
    {ref : Nat} (h : Numbered m.disk)
    (he : exec (machine volumeDisk E) (zonefsGetFileInode zgroup name) m =
      .done (.ok (some ref), m')) :
    ref = m.inodeCount ∧ zgroup ≠ none ∧ ∃ n, n < numberZones ∧ SetUp m m' n := by
  rw [zonefsGetFileInode] at he
  cases hfno : zonefsFnameToFno name with
  | error e =>
    rw [hfno] at he
    cases he
  | ok fno =>
    cases zgroup with
    | none =>
      rw [hfno] at he
      cases he
    | some zones =>
      cases hzone : zones[fno]? with
      | none =>
        simp only [hfno, hzone] at he
        cases he
      | some zone =>
        simp only [hfno, hzone] at he
        obtain ⟨href, setUp⟩ := setUp_of_alloc h he
        exact ⟨href, Option.some_ne_none zones, zone, zone.isLt, setUp⟩

theorem zonefsGetDirInode_found {table : ZoneTable} {name : List UInt8} {ref : Nat}
    (h : Numbered m.disk)
    (he : exec (machine volumeDisk E) (zonefsGetDirInode table name) m =
      .done (.ok (some ref), m')) :
    ref = m.inodeCount ∧ isZoneGroup name = true ∧ ∃ n, SetUp m m' n := by
  rw [zonefsGetDirInode] at he
  split at he
  · cases he
  · split at he
    case isTrue hcnv =>
      obtain ⟨href, setUp⟩ := setUp_of_alloc h he
      refine ⟨href, ?_, _, setUp⟩
      rw [hcnv.2]
      decide
    case isFalse =>
      split at he
      case isTrue hseq =>
        obtain ⟨href, setUp⟩ := setUp_of_alloc h he
        refine ⟨href, ?_, _, setUp⟩
        rw [hseq.2]
        decide
      case isFalse => cases he

theorem lookupParent_unmoved {dir : Nat} {b : Block} (h : Numbered m.disk)
    (he : exec (machine volumeDisk E) (lookupParent dir) m = .done (b, m')) : Unmoved m m' := by
  have numbered := numbered_exec h he
  rw [lookupParent] at he
  obtain ⟨now, m₁, hnow, he⟩ := exec_bind_eq_done he
  obtain ⟨_, m₂, hset, he⟩ := exec_bind_eq_done he
  obtain ⟨rfl, rfl⟩ := Prod.mk.inj (Outcome.done.inj hnow)
  obtain ⟨_, rfl⟩ := Prod.mk.inj (Outcome.done.inj hset)
  have rest : (do
      let starting ← startingNumber
      let parent ← getInode dir
      let stack ← auto
      hodoRead ((if dir = rootRef then starting else parent.iIno) % 2 ^ 32) stack :
      Program Block).Only Quiet :=
    only_bind (only_cmd trivial) fun _ => only_bind (only_cmd trivial) fun _ =>
      only_bind (only_cmd trivial) fun stack => quiet_hodoRead _ stack
  obtain ⟨hinodes, hcount⟩ := inodes_exec rest he
  refine ⟨numbered, hcount, fun r => ?_⟩
  rw [hinodes]
  by_cases hr : r = dir
  · subst hr
    simp only [update_same]
    rfl
  · simp only [update_other _ _ hr]

theorem quiet_findInodeNumber (b : Block) (name : Name) : (findInodeNumber b name).Only Quiet := by
  refine only_bind (only_cmd trivial) fun heap => ?_
  cases heap with
  | none => exact only_pure _ _
  | some buf =>
    refine only_bind (only_walkDirectory (fun _ _ => trivial) trivial (fun _ _ => only_pure _ _)
      _ _ _) fun r => ?_
    cases r with
    | inl r => exact only_pure _ _
    | inr r => exact only_pure _ _

/-- An inode is set up for the name that was found. -/
def Looked (m m' : Machine Volume) : Option Nat → Prop
  | none => Unmoved m m'
  | some ref => ref = m.inodeCount ∧ SetUp m m' (m'.inodes ref).iIno

/-- A lookup in the directories of users leaves the numbers alone, and sets up one inode at most. -/
theorem hodoSubLookup_numbers {dir : Nat} {name : List UInt8} {found : Option Nat}
    (h : Numbered m.disk)
    (he : exec (machine volumeDisk E) (hodoSubLookup dir name) m = .done (found, m')) :
    Looked m m' found := by
  have numbered := numbered_exec h he
  rw [hodoSubLookup_eq] at he
  obtain ⟨parentInode, m₁, hparent, he⟩ := exec_bind_eq_done he
  obtain ⟨number, m₂, hnumber, he⟩ := exec_bind_eq_done he
  have unmoved := lookupParent_unmoved h hparent
  obtain ⟨hinodes₂, hcount₂⟩ := inodes_exec (quiet_findInodeNumber _ _) hnumber
  split at he
  case isTrue =>
    obtain ⟨rfl, rfl⟩ := Prod.mk.inj (Outcome.done.inj he)
    refine ⟨numbered, hcount₂.trans unmoved.count, fun r => ?_⟩
    rw [hinodes₂]
    exact unmoved.same r
  case isFalse =>
    obtain ⟨target, m₃, hread, he⟩ := exec_bind_eq_done he
    obtain ⟨hinodes₃, hcount₃⟩ := inodes_exec (quiet_hodoRead _ _) hread
    obtain ⟨rfl, rfl⟩ := Prod.mk.inj (Outcome.done.inj he)
    have hcount : m₃.inodeCount = m.inodeCount := hcount₃.trans (hcount₂.trans unmoved.count)
    refine ⟨hcount, numbered, ?_, ?_, fun r hr => ?_⟩
    · rw [← hcount]
    · rw [hcount]
    · have hne : r ≠ m₃.inodeCount := by omega
      simp only [update_other _ _ hne, hinodes₃, hinodes₂, unmoved.same]

theorem hodoCreate_setUp {cred : Cred} {dir : Nat} {name : List UInt8} {mode : Nat} {r : Int × Nat}
    (h : Numbered m.disk)
    (he : exec (machine volumeDisk E) (hodoCreate cred dir name mode) m = .done (r, m')) :
    r.2 = m.inodeCount ∧ ∃ n, 16 ≤ n ∧ n < 2 ^ 32 ∧ SetUp m m' n := by
  have numbered := numbered_exec h he
  rw [hodoCreate] at he
  obtain ⟨inode, m₁, hnew, he₁⟩ := exec_bind_eq_done he
  obtain ⟨now, m₂, hnow, he₂⟩ := exec_bind_eq_done he₁
  obtain ⟨n, m₃, hstore, he₃⟩ := exec_bind_eq_done he₂
  obtain ⟨rfl, rfl⟩ := Prod.mk.inj (Outcome.done.inj hnew)
  obtain ⟨rfl, rfl⟩ := Prod.mk.inj (Outcome.done.inj hnow)
  obtain ⟨hlo, hhi⟩ := storeNewInode_number (numbered_exec (numbered_exec h hnew) hnow) hstore
  obtain ⟨hinodes, hcount⟩ := inodes_exec (quiet_storeNewInode _ _ _ _ _ _) hstore
  obtain ⟨rfl, rfl⟩ := Prod.mk.inj (Outcome.done.inj he₃)
  refine ⟨rfl, n, hlo, hhi, numbered, hcount, ?_, fun r hr => ?_⟩
  · simp only [update_same]
    rfl
  · have hne : r ≠ m.inodeCount := Nat.ne_of_lt hr
    by_cases hd : r = dir
    · subst hd
      simp only [update_other _ _ hne, update_same, hinodes]
    · simp only [update_other _ _ hne, update_other _ _ hd, hinodes]

theorem hodoMkdir_setUp {cred : Cred} {dir : Nat} {name : List UInt8} {mode : Nat} {r : Int × Nat}
    (h : Numbered m.disk)
    (he : exec (machine volumeDisk E) (hodoMkdir cred dir name mode) m = .done (r, m')) :
    r.2 = m.inodeCount ∧ ∃ n, 16 ≤ n ∧ n < 2 ^ 32 ∧ SetUp m m' n := by
  have numbered := numbered_exec h he
  rw [hodoMkdir] at he
  obtain ⟨r₁, m₄, hbody, he⟩ := exec_bind_eq_done he
  obtain ⟨temp, m₅, hmalloc, he₅⟩ := exec_bind_eq_done he
  obtain ⟨_, m₆, hgc, he₆⟩ := exec_bind_eq_done he₅
  obtain ⟨rfl, rfl⟩ := Prod.mk.inj (Outcome.done.inj he₆)
  obtain ⟨hinodes₅, hcount₅⟩ := inodes_exec quiet_kmallocUnchecked hmalloc
  obtain ⟨hinodes₆, hcount₆⟩ := inodes_exec (quiet_collect temp) hgc
  rw [hodoMkdirBody] at hbody
  obtain ⟨inode, m₁, hnew, he₁⟩ := exec_bind_eq_done hbody
  obtain ⟨now, m₂, hnow, he₂⟩ := exec_bind_eq_done he₁
  obtain ⟨n, m₃, hstore, he₃⟩ := exec_bind_eq_done he₂
  obtain ⟨rfl, rfl⟩ := Prod.mk.inj (Outcome.done.inj hnew)
  obtain ⟨rfl, rfl⟩ := Prod.mk.inj (Outcome.done.inj hnow)
  obtain ⟨hlo, hhi⟩ := storeNewInode_number (numbered_exec (numbered_exec h hnew) hnow) hstore
  obtain ⟨hinodes, hcount⟩ := inodes_exec (quiet_storeNewInode _ _ _ _ _ _) hstore
  obtain ⟨rfl, rfl⟩ := Prod.mk.inj (Outcome.done.inj he₃)
  refine ⟨rfl, n, hlo, hhi, numbered, ?_, ?_, fun r hr => ?_⟩
  · rw [hcount₆, hcount₅]
    exact hcount
  · simp only [hinodes₆, hinodes₅, update_same]
    rfl
  · have hne : r ≠ m.inodeCount := Nat.ne_of_lt hr
    simp only [hinodes₆, hinodes₅, update_other _ _ hne, hinodes]

theorem zonefsLookup_not_free {table : ZoneTable} {dir : Nat}
    {zgroup : Option (List (Fin numberZones))} {name : List UInt8} :
    exec (machine volumeDisk E) (zonefsLookup table dir zgroup name) m ≠ .done (.ok none, m') := by
  intro he
  simp only [zonefsLookup, zonefsGetDirInode, zonefsGetFileInode] at he
  repeat' split at he
  all_goals cases he

section LookupIn

variable {table : ZoneTable} {o : Object} {name : List UInt8}

theorem lookupIn_of_zonefs (hzone : (isZoneGroup name || isZoneGroup o.dentry.name) = true) :
    lookupIn table o name = zonefsLookup table o.dentry.inode o.zgroup name := by
  rw [lookupIn, hodoLookup]
  exact if_pos hzone

theorem lookupIn_of_user (hname : isZoneGroup name = false)
    (hparent : isZoneGroup o.dentry.name = false) :
    lookupIn table o name = (do
      let found ← hodoSubLookup o.dentry.inode name
      pure (.ok found)) := by
  rw [lookupIn, hodoLookup]
  exact if_neg (by simp only [hname, hparent]; decide)

/-- The lookup of a name of a zone group finds no free place for it. -/
theorem lookupIn_free (he : exec (machine volumeDisk E) (lookupIn table o name) m =
      .done (.ok none, m')) : isZoneGroup name = false ∧ isZoneGroup o.dentry.name = false := by
  rw [← Bool.or_eq_false_iff, ← Bool.not_eq_true]
  intro hzone
  rw [lookupIn_of_zonefs hzone] at he
  exact zonefsLookup_not_free he

theorem lookupIn_numbers {found : Option Nat} (h : Numbered m.disk)
    (hname : isZoneGroup name = false)
    (hparent : isZoneGroup o.dentry.name = false)
    (he : exec (machine volumeDisk E) (lookupIn table o name) m = .done (.ok found, m')) :
    Looked m m' found := by
  rw [lookupIn_of_user hname hparent] at he
  obtain ⟨found', m₁, hsub, he⟩ := exec_bind_eq_done he
  obtain ⟨heq, rfl⟩ := Prod.mk.inj (Outcome.done.inj he)
  obtain rfl := Except.ok.inj heq
  exact hodoSubLookup_numbers h hsub

/-- In the root zonefs has the zone groups, and elsewhere the files of a zone group. -/
theorem lookupIn_zonefs_found {ref : Nat} (h : Numbered m.disk)
    (hzone : (isZoneGroup name || isZoneGroup o.dentry.name) = true)
    (he : exec (machine volumeDisk E) (lookupIn table o name) m = .done (.ok (some ref), m')) :
    ref = m.inodeCount ∧ ∃ n, SetUp m m' n ∧
      if o.dentry.inode = rootRef then isZoneGroup name = true
      else o.ofZonefs = true ∧ n < numberZones := by
  rw [lookupIn_of_zonefs hzone, zonefsLookup] at he
  split at he
  · cases he
  · split at he
    case isTrue hroot =>
      obtain ⟨href, hname, n, setUp⟩ := zonefsGetDirInode_found h he
      refine ⟨href, n, setUp, ?_⟩
      rwa [if_pos hroot]
    case isFalse hroot =>
      obtain ⟨href, hgroup, n, hlt, setUp⟩ := zonefsGetFileInode_found h he
      refine ⟨href, n, setUp, ?_⟩
      rw [if_neg hroot]
      refine ⟨?_, hlt⟩
      rw [← Bool.not_eq_false]
      intro hno
      exact hgroup (if_neg (by rw [hno]; decide))

end LookupIn

end Numbers

/-- The number of a file tells whose it is, names of zone groups are around what belongs
to zonefs and nowhere else, and the parents of other objects are among them. -/
structure Sorted (m : Machine Volume) (os : List Object) (free : List (Object × List UInt8)) :
    Prop where
  numbered : Numbered m.disk
  used : ∀ o ∈ os, o.dentry.inode < m.inodeCount
  file : ∀ o ∈ os, o.isDir = false →
    if o.ofZonefs then (m.inodes o.dentry.inode).iIno < 16
    else 16 ≤ (m.inodes o.dentry.inode).iIno ∧ (m.inodes o.dentry.inode).iIno < 2 ^ 32
  group : ∀ o ∈ os, o.ofZonefs = true →
    isZoneGroup (if o.isDir then o.dentry.name else o.dentry.parentName) = true
  names : ∀ o ∈ os, o.ofZonefs = false → isZoneGroup o.dentry.name = false
  parent : ∀ o ∈ os, o.ofZonefs = false →
    ∃ p ∈ os, p.ofZonefs = false ∧ p.dentry.name = o.dentry.parentName
  absent : ∀ x ∈ free, x.1 ∈ os ∧ x.1.ofZonefs = false ∧ isZoneGroup x.2 = false

section Sorting

variable {E : Env} {table : ZoneTable} {m m' : Machine Volume} {os : List Object}
  {free free' : List (Object × List UInt8)} {o : Object} {name : List UInt8}

theorem Sorted.subset (h : Sorted m os free) (hsub : free' ⊆ free) : Sorted m os free' :=
  { h with absent := fun x hx => h.absent x (hsub hx) }

theorem Sorted.unmoved (h : Sorted m os free) (unmoved : Unmoved m m') : Sorted m' os free where
  numbered := unmoved.numbered
  used := by
    rw [unmoved.count]
    exact h.used
  file := by
    simp only [unmoved.same]
    exact h.file
  group := h.group
  names := h.names
  parent := h.parent
  absent := h.absent

/-- An object for the inode that was set up. -/
theorem Sorted.cons (h : Sorted m os free) {n : Nat} (setUp : SetUp m m' n)
    (hinode : o.dentry.inode = m.inodeCount)
    (file : o.isDir = false → if o.ofZonefs then n < 16 else 16 ≤ n ∧ n < 2 ^ 32)
    (group : o.ofZonefs = true →
      isZoneGroup (if o.isDir then o.dentry.name else o.dentry.parentName) = true)
    (user : o.ofZonefs = false → isZoneGroup o.dentry.name = false ∧
      ∃ p ∈ os, p.ofZonefs = false ∧ p.dentry.name = o.dentry.parentName) :
    Sorted m' (o :: os) free where
  numbered := setUp.numbered
  used := by
    intro o' ho'
    rw [setUp.count]
    rcases List.mem_cons.mp ho' with rfl | hold
    · omega
    · exact Nat.lt_succ_of_lt (h.used o' hold)
  file := by
    intro o' ho' hdir
    rcases List.mem_cons.mp ho' with rfl | hold
    · rw [hinode, setUp.number]
      exact file hdir
    · rw [setUp.same _ (h.used o' hold)]
      exact h.file o' hold hdir
  group := by
    intro o' ho' hzone
    rcases List.mem_cons.mp ho' with rfl | hold
    · exact group hzone
    · exact h.group o' hold hzone
  names := by
    intro o' ho' hzone
    rcases List.mem_cons.mp ho' with rfl | hold
    · exact (user hzone).1
    · exact h.names o' hold hzone
  parent := by
    intro o' ho' hzone
    rcases List.mem_cons.mp ho' with rfl | hold
    · obtain ⟨p, hp, hpzone, hname⟩ := (user hzone).2
      exact ⟨p, List.mem_cons_of_mem _ hp, hpzone, hname⟩
    · obtain ⟨p, hp, hpzone, hname⟩ := h.parent o' hold hzone
      exact ⟨p, List.mem_cons_of_mem _ hp, hpzone, hname⟩
  absent := by
    intro x hx
    obtain ⟨hmem, huser⟩ := h.absent x hx
    exact ⟨List.mem_cons_of_mem _ hmem, huser⟩

/-- A directory whose name is none of a zone group is a user's. -/
theorem Sorted.ofUser (h : Sorted m os free) (ho : o ∈ os) (hdir : o.isDir = true)
    (hname : isZoneGroup o.dentry.name = false) : o.ofZonefs = false := by
  rw [← Bool.not_eq_true]
  intro hzone
  have hgroup := h.group o ho hzone
  rw [hdir, if_pos rfl, hname] at hgroup
  cases hgroup

theorem sorted_mounted (uid gid groups : Nat) (now : Timespec) :
    Sorted (firstMounted uid gid groups now) [rootObject] [] where
  numbered := numbered_mounted uid gid groups now
  used := by
    rintro o ho
    rw [List.mem_singleton.mp ho]
    exact Nat.one_pos
  file := by
    rintro o ho hdir
    rw [List.mem_singleton.mp ho] at hdir
    cases hdir
  group := by
    rintro o ho hzone
    rw [List.mem_singleton.mp ho] at hzone
    cases hzone
  names := by
    rintro o ho _
    rw [List.mem_singleton.mp ho]
    decide
  parent := by
    rintro o ho _
    exact ⟨rootObject, List.mem_singleton_self _, rfl, by rw [List.mem_singleton.mp ho]; rfl⟩
  absent := by
    rintro x hx
    cases hx

theorem Sorted.lookupAbsent (h : Sorted m os free) (ho : o ∈ os) (hdir : o.isDir = true)
    (he : exec (machine volumeDisk E) (lookupIn table o name) m = .done (.ok none, m')) :
    Sorted m' os ((o, name) :: free) := by
  obtain ⟨hname, hparent⟩ := lookupIn_free he
  have unmoved : Unmoved m m' := lookupIn_numbers h.numbered hname hparent he
  refine { h.unmoved unmoved with absent := fun x hx => ?_ }
  rcases List.mem_cons.mp hx with rfl | hx
  · exact ⟨ho, h.ofUser ho hdir hparent, hname⟩
  · exact h.absent x hx

theorem Sorted.lookupZonefs (h : Sorted m os free) (ho : o ∈ os) (hdir : o.isDir = true)
    (hzone : (isZoneGroup name || isZoneGroup o.dentry.name) = true) {ref : Nat}
    (he : exec (machine volumeDisk E) (lookupIn table o name) m = .done (.ok (some ref), m')) :
    Sorted m' (o.entry table name ref :: os) free := by
  obtain ⟨href, n, setUp, found⟩ := lookupIn_zonefs_found h.numbered hzone he
  refine h.cons setUp href (fun hfile => ?_) (fun _ => ?_) fun hno => nomatch hno
  · have hroot : ¬ o.dentry.inode = rootRef := of_decide_eq_false hfile
    rw [if_neg hroot] at found
    exact found.2
  · by_cases hroot : o.dentry.inode = rootRef
    · rw [if_pos hroot] at found
      rw [show (o.entry table name ref).isDir = true from decide_eq_true hroot]
      exact found
    · rw [if_neg hroot] at found
      rw [show (o.entry table name ref).isDir = false from decide_eq_false hroot]
      have hgroup := h.group o ho found.1
      rwa [hdir] at hgroup

theorem Sorted.lookupAgain (h : Sorted m os free) {p : Object} (hp : p ∈ os)
    (huser : p.ofZonefs = false) (hname : p.dentry.parentName = o.dentry.name) {ref : Nat}
    (he : exec (machine volumeDisk E) (lookupIn table o p.dentry.name) m =
      .done (.ok (some ref), m'))
    (hnumber : (m'.inodes ref).iIno = (m.inodes p.dentry.inode).iIno) :
    Sorted m' ({ p with dentry := { p.dentry with inode := ref } } :: os) free := by
  obtain ⟨q, hq, hquser, hqname⟩ := h.parent p hp huser
  have hparent : isZoneGroup o.dentry.name = false := by
    rw [← hname, ← hqname]
    exact h.names q hq hquser
  obtain ⟨href, setUp⟩ := lookupIn_numbers h.numbered (h.names p hp huser) hparent he
  refine h.cons setUp href (fun hfile => ?_) (h.group p hp) fun _ =>
    ⟨h.names p hp huser, q, hq, hquser, hqname⟩
  rw [hnumber]
  exact h.file p hp hfile

theorem Built.sorted (h : Built E table m os free) : Sorted m os free := by
  induction h with
  | mounted uid gid groups now => exact sorted_mounted uid gid groups now
  | absent _ ho hdir he ih => exact ih.lookupAbsent ho hdir he
  | zonefs _ ho hdir hzone he ih => exact ih.lookupZonefs ho hdir hzone he
  | again _ _ _ hp huser hname he hnumber ih => exact ih.lookupAgain hp huser hname he hnumber
  | create _ he ih =>
    obtain ⟨ho, huser, hname⟩ := ih.absent _ (List.mem_append_right _ List.mem_cons_self)
    obtain ⟨href, n, hlo, hhi, setUp⟩ := hodoCreate_setUp ih.numbered he
    refine (ih.subset ?_).cons setUp href (fun _ => ⟨hlo, hhi⟩) (fun hzone => nomatch hzone)
      fun _ => ⟨hname, _, ho, huser, rfl⟩
    exact ((List.sublist_cons_self _ _).append_left _).subset
  | mkdir _ he ih =>
    obtain ⟨ho, huser, hname⟩ := ih.absent _ (List.mem_append_right _ List.mem_cons_self)
    obtain ⟨href, n, hlo, hhi, setUp⟩ := hodoMkdir_setUp ih.numbered he
    refine (ih.subset ?_).cons setUp href (fun hdir => nomatch hdir) (fun hzone => nomatch hzone)
      fun _ => ⟨hname, _, ho, huser, rfl⟩
    exact ((List.sublist_cons_self _ _).append_left _).subset

end Sorting

section Agreement

variable {E : Env} {table : ZoneTable} {m : Machine Volume} {os : List Object}
  {free : List (Object × List UInt8)} {o : Object}

theorem hodoFileReadIter_takes {d : Dentry} {iocb : Kiocb} {iter : IovSink}
    (hinode : iocb.inode = d.inode) :
    TakesZonefs E m (fun zonefs => hodoFileReadIter (fun _ _ => zonefs) iocb iter) ↔
      (m.inodes d.inode).iIno % 2 ^ 32 < m.disk.info.startingLogicalNumber := by
  rw [← hinode]
  exact takes_number_iff (c := fun n s => n % 2 ^ 32 < s) ((0 : Int), iocb, iter)
    (p := fun n => do
      let inode ← hodoRead (n % 2 ^ 32) zeros
      readFile inode iocb iter)

theorem hodoFileWriteIter_takes {d : Dentry} {iocb : Kiocb} {iter : IovIter}
    (hinode : iocb.inode = d.inode) :
    TakesZonefs E m (fun zonefs => hodoFileWriteIter (fun _ _ => zonefs) iocb iter) ↔
      (m.inodes d.inode).iIno < m.disk.info.startingLogicalNumber := by
  rw [← hinode]
  exact takes_number_iff (c := fun n s => n < s) ((0 : Int), iocb, iter)
    (p := fun _ => hodoSubFileWriteIter iocb iter)

/-- The answers on a file of which names and number tell the same. -/
theorem fileAgree_of {d : Dentry} {P : Prop}
    (either : isZoneGroup d.name = true ∨ isZoneGroup d.parentName = true ↔ P)
    (parent : isZoneGroup d.parentName = true ↔ P)
    (number : (m.inodes d.inode).iIno < m.disk.info.startingLogicalNumber ↔ P)
    (hlt : (m.inodes d.inode).iIno < 2 ^ 32) : FileAgree E m d P where
  looked dir := (looked_iff dir).trans either
  changed prepared attr := (changed_iff prepared attr).trans either
  opened := (takes_ite_iff 0 _).trans parent
  released := (takes_ite_iff 0 _).trans parent
  unlinked dir := (refuses_unlink_iff dir).trans parent
  synced := by
    refine (takes_number_iff (c := fun n s => n % 2 ^ 32 < s) (0 : Int)
      (p := fun _ => pure 0)).trans ?_
    rw [Nat.mod_eq_of_lt hlt]
    exact number
  read iocb iter hinode := by
    rw [hodoFileReadIter_takes hinode, Nat.mod_eq_of_lt hlt]
    exact number
  written iocb iter hinode := (hodoFileWriteIter_takes hinode).trans number

theorem dirAgree_of {d : Dentry} {P : Prop}
    (either : isZoneGroup d.name = true ∨ isZoneGroup d.parentName = true ↔ P)
    (name : isZoneGroup d.name = true ↔ P) : DirAgree E m d P where
  looked dir := (looked_iff dir).trans either
  changed prepared attr := (changed_iff prepared attr).trans either
  listed _ ctx := (takes_ite_iff ctx _).trans name
  removed dir := (refuses_rmdir_iff dir).trans name

theorem agree_of_zonefs (h : Sorted m os free) (ho : o ∈ os) (hzone : o.ofZonefs = true) :
    Agree E m o := by
  have hgroup := h.group o ho hzone
  rw [Agree, hzone]
  cases hdir : o.isDir with
  | true =>
    rw [hdir] at hgroup
    exact dirAgree_of (iff_of_true (Or.inl hgroup) rfl) (iff_of_true hgroup rfl)
  | false =>
    have hfile := h.file o ho hdir
    rw [hzone, if_pos rfl] at hfile
    rw [hdir] at hgroup
    refine fileAgree_of (iff_of_true (Or.inr hgroup) rfl) (iff_of_true hgroup rfl)
      (iff_of_true ?_ rfl) (by omega)
    rw [h.numbered.starting]
    exact hfile

theorem agree_of_user (h : Sorted m os free) (ho : o ∈ os)
    (hzone : o.ofZonefs = false) : Agree E m o := by
  have hname : ¬ isZoneGroup o.dentry.name = true := by
    rw [h.names o ho hzone]
    exact Bool.false_ne_true
  have hparent : ¬ isZoneGroup o.dentry.parentName = true := by
    obtain ⟨p, hp, hpzone, heq⟩ := h.parent o ho hzone
    rw [← heq, h.names p hp hpzone]
    exact Bool.false_ne_true
  have heither : ¬ (isZoneGroup o.dentry.name = true ∨ isZoneGroup o.dentry.parentName = true) :=
    fun hor => hor.elim hname hparent
  rw [Agree, hzone]
  cases hdir : o.isDir with
  | true =>
    exact dirAgree_of (iff_of_false heither Bool.false_ne_true)
      (iff_of_false hname Bool.false_ne_true)
  | false =>
    have hfile := h.file o ho hdir
    rw [hzone, if_neg Bool.false_ne_true] at hfile
    refine fileAgree_of (iff_of_false heither Bool.false_ne_true)
      (iff_of_false hparent Bool.false_ne_true) (iff_of_false ?_ Bool.false_ne_true) hfile.2
    rw [h.numbered.starting]
    omega

/-- In every tree that can be built the operations agree on each object. -/
theorem operations_agree (h : Built E table m os free) : ∀ o ∈ os, Agree E m o := by
  intro o ho
  cases hzone : o.ofZonefs with
  | true => exact agree_of_zonefs h.sorted ho hzone
  | false => exact agree_of_user h.sorted ho hzone

end Agreement

def twoFiles : ZoneTable := ⟨[], [⟨1, by decide⟩, ⟨2, by decide⟩]⟩

def directory (ref : Nat) : Object := ⟨⟨[chr 'd'], [chr '/'], ref⟩, true, false, []⟩

/-- A file `a` in a directory `d`. -/
theorem nested_file_built : ∃ m r, Built (zeroFilled fun _ => ⟨0, 0⟩) twoFiles m
    [⟨⟨[97], [chr 'd'], r⟩, false, false, []⟩, directory 1, rootObject] [] := by
  have hcalls : ∃ x₁, exec (machine volumeDisk (zeroFilled fun _ => ⟨0, 0⟩))
      (lookupIn twoFiles rootObject [chr 'd']) (firstMounted 0 0 0 ⟨0, 0⟩) = .done x₁ ∧
      x₁.1 = .ok none ∧
      ∃ x₂, exec (machine volumeDisk (zeroFilled fun _ => ⟨0, 0⟩))
        (hodoMkdir ⟨0, 0⟩ rootRef [chr 'd'] 0o755) x₁.2 = .done x₂ ∧ x₂.1.2 = 1 ∧
      ∃ x₃, exec (machine volumeDisk (zeroFilled fun _ => ⟨0, 0⟩))
        (lookupIn twoFiles (directory 1) [97]) x₂.2 = .done x₃ ∧ x₃.1 = .ok none ∧
      ∃ x₄, exec (machine volumeDisk (zeroFilled fun _ => ⟨0, 0⟩))
        (hodoCreate ⟨0, 0⟩ 1 [97] 0o644) x₃.2 = .done x₄ ∧ True := by
    decide +kernel
  obtain ⟨⟨_, m₁⟩, h₁, rfl, ⟨⟨r₂, d⟩, m₂⟩, h₂, hd, ⟨_, m₃⟩, h₃, rfl, ⟨r₄, m₄⟩, h₄, _⟩ := hcalls
  obtain rfl : d = 1 := hd
  have free₁ : Built (zeroFilled fun _ => ⟨0, 0⟩) twoFiles m₁ [rootObject]
      ([] ++ [(rootObject, [chr 'd'])]) :=
    .absent (.mounted 0 0 0 ⟨0, 0⟩) (List.mem_singleton_self rootObject) rfl h₁
  have dir : Built (zeroFilled fun _ => ⟨0, 0⟩) twoFiles m₂ [directory 1, rootObject] ([] ++ []) :=
    .mkdir free₁ h₂
  have free₂ : Built (zeroFilled fun _ => ⟨0, 0⟩) twoFiles m₃ [directory 1, rootObject]
      ([] ++ [(directory 1, [97])]) :=
    .absent dir List.mem_cons_self rfl h₃
  exact ⟨m₄, r₄.2, .create free₂ h₄⟩

/-- Beside that file, where the name `seq` is refused, the zone group `seq` with its file `0`. -/
theorem ordinary_names_agree : ∃ m os,
    Built (zeroFilled fun _ => ⟨0, 0⟩) twoFiles m os [] ∧ os.length = 5 ∧ directory 1 ∈ os ∧
    exec (machine volumeDisk (zeroFilled fun _ => ⟨0, 0⟩))
      (lookupIn twoFiles (directory 1) [chr 's', chr 'e', chr 'q']) m = .done (.error eNoent, m) ∧
    ∀ o ∈ os, Agree (zeroFilled fun _ => ⟨0, 0⟩) m o := by
  obtain ⟨m, r, file⟩ := nested_file_built
  have hroot : rootObject ∈ [⟨⟨[97], [chr 'd'], r⟩, false, false, []⟩, directory 1, rootObject] :=
    List.mem_cons_of_mem _ (List.mem_cons_of_mem _ List.mem_cons_self)
  have hseq : (isZoneGroup [chr 's', chr 'e', chr 'q'] || isZoneGroup rootObject.dentry.name) =
    true := by decide
  have hgroup : ∃ ref m', exec (machine volumeDisk (zeroFilled fun _ => ⟨0, 0⟩))
      (lookupIn twoFiles rootObject [chr 's', chr 'e', chr 'q']) m = .done (.ok (some ref), m') :=
    ⟨_, _, rfl⟩
  obtain ⟨ref, m₁, hgroup⟩ := hgroup
  have group := file.zonefs hroot rfl hseq hgroup
  have hne : ref ≠ rootRef := by
    rw [(lookupIn_zonefs_found file.sorted.numbered hseq hgroup).1]
    exact Nat.ne_of_gt (file.sorted.used _ hroot)
  have hzone : ∃ zoneRef m', exec (machine volumeDisk (zeroFilled fun _ => ⟨0, 0⟩))
      (lookupIn twoFiles (rootObject.entry twoFiles [chr 's', chr 'e', chr 'q'] ref) [chr '0']) m₁ =
        .done (.ok (some zoneRef), m') := by
    have hdir :
      (rootObject.entry twoFiles [chr 's', chr 'e', chr 'q'] ref).dentry.inode ≠ rootRef :=
      hne
    rw [lookupIn_of_zonefs rfl, zonefsLookup, if_neg (by decide), if_neg hdir]
    exact ⟨_, _, rfl⟩
  obtain ⟨zoneRef, m₂, hzone⟩ := hzone
  have zone := group.zonefs List.mem_cons_self rfl rfl hzone
  refine ⟨_, _, zone, rfl, ?_, rfl, operations_agree zone⟩
  exact List.mem_cons_of_mem _ (List.mem_cons_of_mem _ (List.mem_cons_of_mem _ List.mem_cons_self))

end ZoneGroups
