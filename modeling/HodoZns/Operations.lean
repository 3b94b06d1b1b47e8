import HodoZns.Directories

/-!
# Inode operations

Creating and deleting files and directories. A directory is given by a
reference to its VFS inode; the dentry cache itself is left out, apart from the
inode that a new dentry comes to refer to.
-/

namespace Operations

open ByteBlock Layout BlockLog ZoneLog Programs Kernel FileBlocks Directories

structure Dentry where
  name : List UInt8
  parentName : List UInt8
  inode : Nat

/-- `current_fsuid()` and `current_fsgid()`. -/
structure Cred where
  uid : Nat
  gid : Nat

/-- The reference of `d_inode(sb->s_root)`. -/
def rootRef : Nat := 0

/-- The kernel after the mount: the root inode as `zonefs_fill_super` sets it up
at the time `now`, on a device with `groups` zone groups. -/
def mounted {σ : Type} (disk : σ) (groups : Nat) (now : Timespec) : Machine σ where
  disk := disk
  inodes := update (fun _ => newInode) rootRef
    ({ newInode with
        iIno := numberZones
        iMode := sIfDir ||| 0o555
        iOp := some .dir
        iFop := some .dir
        iSize := 2 + groups
        iNlink := 2 + UInt32.ofNat groups }.setTimes now)
  inodeCount := 1
  tick := 0

/-- A name as the directory functions take it, padded with zeros. -/
def nameArg (name : List UInt8) : Name := ofBytes fun i => name.getD i 0

def isZoneGroup (name : List UInt8) : Bool :=
  name == [chr 's', chr 'e', chr 'q'] || name == [chr 'c', chr 'n', chr 'v']

/-- What `hodo_create` and `hodo_mkdir` put into a new inode. -/
structure Kind where
  fileLen : Nat
  type : Nat
  modeBits : Nat
  operations : InodeOperations

def regularFile : Kind := ⟨0, 0, sIfReg, .file⟩
def directory : Kind := ⟨2, 1, sIfDir, .dir⟩

def storedInode (stack : Block) (k : Kind) (cred : Cred) (name : List UInt8) (mode n : Nat)
    (now : Timespec) : Block :=
  putTimes (putInodeFields stack
    { fileLen := k.fileLen, name := name, type := k.type, iIno := n, iMode := k.modeBits ||| mode,
      iUid := cred.uid, iGid := cred.gid }) now now now

def VfsInode.setUp (i : VfsInode) (k : Kind) (cred : Cred) (mode n : Nat) (now : Timespec) :
    VfsInode :=
  { i with
    iIno := n
    iOp := some k.operations
    iFop := some k.operations
    iMode := k.modeBits ||| mode
    iUid := cred.uid
    iGid := cred.gid }.setTimes now

/-- The stored inode and its entry in the directory; whether the directory took
the entry is not looked at. -/
def storeNewInode (k : Kind) (cred : Cred) (dir : Nat) (name : List UInt8) (mode : Nat)
    (now : Timespec) : Program Nat := do
  let stack ← auto
  let n ← nextLogicalNumber
  let hinode := storedInode stack k cred name mode n now
  let _ ← hodoWrite hinode n
  let parent ← getInode dir
  let _ ← addDirent parent.iIno hinode
  pure n

/-- The second component refers to the inode that `d_add` gives to the dentry. -/
def hodoCreate (cred : Cred) (dir : Nat) (name : List UInt8) (mode : Nat) :
    Program (Int × Nat) := do
  let inode ← allocInode
  let now ← currentTime
  let n ← storeNewInode regularFile cred dir name mode now
  setInode dir fun i => { i with iSize := i.iSize + 1 }
  setInode inode fun i => VfsInode.setUp i regularFile cred mode n now
  pure (0, inode)

/-- `hodo_mkdir` up to the call of `GC`. -/
def hodoMkdirBody (cred : Cred) (dir : Nat) (name : List UInt8) (mode : Nat) :
    Program (Int × Nat) := do
  let inode ← allocInode
  let now ← currentTime
  let n ← storeNewInode directory cred dir name mode now
  setInode inode fun i => VfsInode.setUp { i with iSize := 2 } directory cred mode n now
  pure (0, inode)

def hodoMkdir (cred : Cred) (dir : Nat) (name : List UInt8) (mode : Nat) :
    Program (Int × Nat) := do
  let r ← hodoMkdirBody cred dir name mode
  let temp ← kmallocUnchecked
  collect temp
  pure r

/-- The stored inode of a directory is read and an entry removed. -/
def removeEntry (number : Nat) (name : Name) : Program (Int × Nat) := do
  let stack ← auto
  let parent ← hodoRead number stack
  removeDirent parent name number

def hodoUnlink (dir : Nat) (dentry : Dentry) : Program Int := do
  let now ← currentTime
  setInode dir fun i => i.setTimes now
  if isZoneGroup dentry.parentName then pure 0
  else do
    let starting ← startingNumber
    let parent ← getInode dir
    let target ← getInode dentry.inode
    let parentNumber := (if dir = rootRef then starting else parent.iIno) % 2 ^ 32
    let targetNumber := target.iIno % 2 ^ 32
    eraseTableEntry targetNumber
    let stack ← auto
    let inode ← hodoRead targetNumber stack
    let _ ← hodoWrite (putNlink inode 0) targetNumber
    let _ ← removeEntry parentNumber (nameArg dentry.name)
    setInode dir fun i => { i with iSize := i.iSize - 1 }
    pure 0

def hodoRmdir (dir : Nat) (dentry : Dentry) : Program Int := do
  if isZoneGroup dentry.name then pure 0
  else do
    let starting ← startingNumber
    let target ← getInode dentry.inode
    let number := (if dentry.inode = rootRef then starting else target.iIno) % 2 ^ 32
    let stack ← auto
    let inode ← hodoRead number stack
    let empty ← checkDirectoryEmpty inode
    if empty then do
      setInode dir fun i => { i with iNlink := i.iNlink - 1 }
      hodoUnlink dir dentry
    else pure eNotEmpty

end Operations
