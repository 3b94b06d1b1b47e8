import HodoZns.Programs
import HodoZns.LogStore

/-!
# The kernel around the translation layer

The file-system functions of `hodo.c` and `trans.c` are programs over the calls
of the block log and over the few kernel services they use: allocation, the
clock, and the inodes of the VFS. What uninitialised memory holds and what
`current_time` answers is the environment of a machine.
-/

namespace Kernel

open ByteBlock Layout BlockLog ZoneLog Collector LogCalls LogStore Programs

def eIo : Int := -5
def eNoMem : Int := -12
def eFault : Int := -14
def eNotEmpty : Int := -39

/-- A C integer stored into an unsigned 64-bit variable. -/
def u64 (x : Int) : Nat := (x % 2 ^ 64).toNat

theorem u64_ofNat {n : Nat} (h : n < 2 ^ 64) : u64 n = n := by
  rw [u64]
  omega

inductive InodeOperations where
  | file
  | dir
  deriving DecidableEq

structure VfsInode where
  iIno : Nat
  iSize : Int
  iMode : Nat
  iUid : Nat
  iGid : Nat
  iNlink : UInt32
  iOp : Option InodeOperations
  iFop : Option InodeOperations
  iAtime : Timespec
  iMtime : Timespec
  iCtime : Timespec

/-- What `new_inode` returns. -/
def newInode : VfsInode where
  iIno := 0
  iSize := 0
  iMode := 0
  iUid := 0
  iGid := 0
  iNlink := 1
  iOp := none
  iFop := none
  iAtime := ⟨0, 0⟩
  iMtime := ⟨0, 0⟩
  iCtime := ⟨0, 0⟩

/-- `inode_set_ctime_to_ts`, `inode_set_atime_to_ts` and `inode_set_mtime_to_ts`. -/
def VfsInode.setTimes (i : VfsInode) (now : Timespec) : VfsInode :=
  { i with iAtime := now, iMtime := now, iCtime := now }

inductive Cmd where
  | startingNumber
  | next
  | write (buf : Block) (n : Nat)
  | read (n : Nat) (buf : Block)
  | erase (n : Nat)
  | gc (temp : Block)
  | kmalloc
  | auto
  | now
  | newInode
  | inode (ref : Nat)
  | setInode (ref : Nat) (f : VfsInode → VfsInode)

abbrev Cmd.Reply : Cmd → Type
  | .startingNumber => Nat
  | .next => Nat
  | .write _ _ => Int × Nat × Block
  | .read _ _ => Int × Block
  | .erase _ => Unit
  | .gc _ => Unit
  | .kmalloc => Option Block
  | .auto => Block
  | .now => Timespec
  | .newInode => Nat
  | .inode _ => VfsInode
  | .setInode _ _ => Unit

abbrev Program (α : Type) := Prog Cmd Cmd.Reply α

def Cmd.give (c : Cmd) : Program c.Reply := Prog.cmd c

/-- `hodo_write_struct` of a whole block; the number is the one written under. -/
def hodoWrite (buf : Block) (n : Nat) : Program (Int × Nat) := do
  let (ret, n, _) ← (Cmd.write buf n).give
  pure (ret, n)

/-- `hodo_read_struct` of a whole block; no caller looks at the return value. -/
def hodoRead (n : Nat) (buf : Block) : Program Block := do
  let (_, buf) ← (Cmd.read n buf).give
  pure buf

def startingNumber : Program Nat := Cmd.startingNumber.give
def nextLogicalNumber : Program Nat := Cmd.next.give
def eraseTableEntry (n : Nat) : Program Unit := (Cmd.erase n).give
def collect (temp : Block) : Program Unit := (Cmd.gc temp).give
def kmalloc : Program (Option Block) := Cmd.kmalloc.give
def auto : Program Block := Cmd.auto.give
def currentTime : Program Timespec := Cmd.now.give
def allocInode : Program Nat := Cmd.newInode.give
def getInode (ref : Nat) : Program VfsInode := (Cmd.inode ref).give
def setInode (ref : Nat) (f : VfsInode → VfsInode) : Program Unit := (Cmd.setInode ref f).give

/-- `kmalloc` whose result is used without a check. -/
def kmallocUnchecked : Program Block := do
  match ← kmalloc with
  | some b => pure b
  | none => .crash

/-- The `t`-th answers of the kernel services. -/
structure Env where
  heap : Nat → Option Block
  stack : Nat → Block
  clock : Nat → Timespec

/-- A kernel built with `INIT_STACK_ALL_ZERO` and `INIT_ON_ALLOC`, and enough memory. -/
def zeroFilled (clock : Nat → Timespec) : Env where
  heap := fun _ => some zeros
  stack := fun _ => zeros
  clock := clock

structure Machine (σ : Type) where
  disk : σ
  inodes : Nat → VfsInode
  inodeCount : Nat
  tick : Nat

variable {σ : Type}

/-- How a translation layer with states `σ` answers. -/
structure Disk (σ : Type) where
  startingNumber : σ → Nat
  next : σ → Outcome (Nat × σ)
  write : Block → Nat → σ → Outcome ((Int × Nat × Block) × σ)
  read : Nat → Block → σ → Outcome ((Int × Block) × σ)
  erase : Nat → σ → Outcome σ
  gc : Block → σ → Outcome σ

def Machine.setDisk (m : Machine σ) (s : σ) : Machine σ := { m with disk := s }

@[simp] theorem Machine.setDisk_self (m : Machine σ) : m.setDisk m.disk = m := rfl

def machine (D : Disk σ) (E : Env) : Handler Cmd Cmd.Reply (Machine σ)
  | .startingNumber, m => .done (D.startingNumber m.disk, m)
  | .next, m => (D.next m.disk).map fun r => (r.1, m.setDisk r.2)
  | .write buf n, m => (D.write buf n m.disk).map fun r => (r.1, m.setDisk r.2)
  | .read n buf, m => (D.read n buf m.disk).map fun r => (r.1, m.setDisk r.2)
  | .erase n, m => (D.erase n m.disk).map fun s => ((), m.setDisk s)
  | .gc temp, m => (D.gc temp m.disk).map fun s => ((), m.setDisk s)
  | .kmalloc, m => .done (E.heap m.tick, { m with tick := m.tick + 1 })
  | .auto, m => .done (E.stack m.tick, { m with tick := m.tick + 1 })
  | .now, m => .done (E.clock m.tick, { m with tick := m.tick + 1 })
  | .newInode, m =>
    .done (m.inodeCount,
      { m with
        inodes := update m.inodes m.inodeCount newInode
        inodeCount := m.inodeCount + 1 })
  | .inode ref, m => .done (m.inodes ref, m)
  | .setInode ref f, m => .done ((), { m with inodes := update m.inodes ref (f (m.inodes ref)) })

/-- What a program does after a store outside the tables is not said. -/
def unlessStrayed {α : Type} (m : MappingInfo) (r : α) : Outcome α :=
  if m.strayStores = 0 then .done r else .stuck

/-- The block log, on a device whose transfers succeed. -/
def volumeDisk : Disk Volume where
  startingNumber := fun v => v.info.startingLogicalNumber
  next := fun v =>
    .done ((hodoGetNextLogicalNumber v.info).1,
      { v with info := (hodoGetNextLogicalNumber v.info).2 })
  write := fun buf n v =>
    let r := hodoWriteStruct standardGeometry ioOk v (some buf) hodoDatablockSize n
    unlessStrayed r.volume.info ((r.ret, r.number, r.buf.getD buf), r.volume)
  read := fun n buf v =>
    match hodoReadStruct standardGeometry ioOk v n (some buf) hodoDatablockSize with
    | some r => .done ((r.1, r.2.getD buf), v)
    | none => .stuck
  erase := fun n v =>
    let m := hodoEraseTableEntry v.info n
    unlessStrayed m { v with info := m }
  gc := fun temp v =>
    match GC standardGeometry temp v with
    | some v' => unlessStrayed v'.info v'
    | none => .stuck

/-- The plain map. What it does not promise anything about is stuck, as is a read of a
number without a block. -/
def storeDisk : Disk Store where
  startingNumber := fun s => s.base
  next := fun s => if s.full then .noRoom else .done s.next
  write := fun buf n s =>
    if n = 0 ∧ s.full then .noRoom
    else
      match s.put buf n with
      | some (n, b, s) => .done ((4096, n, b), s)
      | none => .stuck
  read := fun n _ s =>
    match s.content n with
    | some b => .done ((4096, b), s)
    | none => .stuck
  erase := fun _ _ => .stuck
  gc := fun _ _ => .stuck

end Kernel
