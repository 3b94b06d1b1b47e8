import Mathlib.Tactic.Common
import Mathlib.Algebra.Order.Ring.Int
import Mathlib.Algebra.Order.Ring.Nat

/-!
# Zones and their files in zonefs

Each zone of the device is a file: a `zonefs_zone` with an inode. The device is
asked for zone management and for zone reports, and its answers are checked. It
is a parameter here; it may answer anything, and keeps a state of its own.
-/

namespace ZonefsZones

def eIo : Int := -5
def eInval : Int := -22

/-- `n << SECTOR_SHIFT`, stored into a `loff_t`. -/
def sectorBytes (n : Nat) : Int := (BitVec.ofNat 64 (n * 512)).toInt

/-- `a - b` of two `sector_t`. -/
def sectorSub (a b : Nat) : Nat := (BitVec.ofNat 64 a - BitVec.ofNat 64 b).toNat

theorem sectorBytes_of_lt {n : Nat} (h : n * 512 < 2 ^ 63) : sectorBytes n = n * 512 := by
  have hmod : n * 512 % 2 ^ 64 = n * 512 := Nat.mod_eq_of_lt (by omega)
  rw [sectorBytes, BitVec.toInt_eq_toNat_of_lt (by rw [BitVec.toNat_ofNat, hmod]; omega),
    BitVec.toNat_ofNat, hmod]
  omega

theorem sectorSub_of_le {a b : Nat} (hb : b ≤ a) (ha : a < 2 ^ 64) : sectorSub a b = a - b := by
  rw [sectorSub, BitVec.toNat_sub, BitVec.toNat_ofNat, BitVec.toNat_ofNat]
  omega

inductive ReqOp where
  | zoneOpen
  | zoneClose
  | zoneReset
  | zoneFinish
  deriving DecidableEq

inductive ZoneType where
  | conventional
  | seqwriteReq
  | seqwritePref
  | other
  deriving DecidableEq

inductive ZoneCond where
  | notWp
  | empty
  | impOpen
  | expOpen
  | closed
  | readonly
  | full
  | offline
  deriving DecidableEq

/-- `struct blk_zone`, in sectors. -/
structure BlkZone where
  start : Nat
  len : Nat
  wp : Nat
  type : ZoneType
  cond : ZoneCond
  capacity : Nat
  deriving DecidableEq

/-- What `iomap_dio_rw` comes to. It may fail before there is a request; at the end of the
request `end_io` is told the size and the error, and `ret` is returned if it has none; or the
end is still to come. -/
inductive DioResult where
  | refused (ret : Int)
  | completed (size error ret : Int)
  | queued
  deriving DecidableEq

/-- The other calls, of which only the return value is of interest. -/
inductive IoRequest where
  | bufferedRead (pos count : Int)
  | bufferedWrite (pos : Int) (data : List UInt8)
  | writeSync
  | writeAndWait
  | flush

/-- Offsets on the device are in bytes; a report is about the one zone at the sector. -/
structure BlockDevice (δ : Type) where
  zoneMgmt : ReqOp → (sector nrSectors : Nat) → δ → Int × δ
  reportZone : (sector : Nat) → δ → Option BlkZone × δ
  dioWrite : (offset : Int) → List UInt8 → δ → DioResult × δ
  dioRead : (offset count : Int) → δ → (DioResult × List UInt8) × δ
  request : IoRequest → δ → Int × δ

/-- `struct zonefs_zone`, with a field for each bit of `z_flags`. -/
structure ZonefsZone where
  zoneInitMode : Bool
  zoneOpen : Bool
  zoneActive : Bool
  zoneOffline : Bool
  zoneReadonly : Bool
  zoneCnv : Bool
  zSector : Nat
  zSize : Int
  zCapacity : Int
  zWpoffset : Int
  zMode : BitVec 16
  zUid : Nat
  zGid : Nat
  deriving DecidableEq

/-- The inode of a zone file; `immutable` and `swapfile` are bits of `i_flags`. -/
structure ZonefsInode where
  iSize : Int
  iMode : BitVec 16
  iUid : Nat
  iGid : Nat
  immutable : Bool
  swapfile : Bool
  iWrRefcnt : Nat
  deriving DecidableEq

/-- `struct zonefs_sb_info`, with a field for each bit of `s_mount_opts`, and what is used of
the super block of the VFS. -/
structure SbInfo where
  errorsRo : Bool
  errorsZro : Bool
  errorsZol : Bool
  errorsRepair : Bool
  explicitOpen : Bool
  sBlocks : Int
  sUsedBlocks : Int
  maxWroSeqFiles : Nat
  wroSeqFiles : Int
  maxActiveSeqFiles : Nat
  activeSeqFiles : Int
  blocksizeBits : Nat
  rdonly : Bool
  deriving DecidableEq

def ZonefsZone.isBad (z : ZonefsZone) : Bool := z.zoneReadonly || z.zoneOffline

/-- What an operation on a zone file works on: `inode`, and what is found from there. -/
structure FileState (δ : Type) where
  sbi : SbInfo
  z : ZonefsZone
  inode : ZonefsInode
  dev : δ

/-- The end of `zonefs_account_active`, for a zone that is not active. -/
def accountInactive (sbi : SbInfo) (z : ZonefsZone) : SbInfo × ZonefsZone :=
  if z.zoneActive then
    ({ sbi with activeSeqFiles := sbi.activeSeqFiles - 1 }, { z with zoneActive := false })
  else (sbi, z)

def zonefsAccountActive (sbi : SbInfo) (z : ZonefsZone) : SbInfo × ZonefsZone :=
  if z.zoneCnv then (sbi, z)
  else if z.zoneOffline || z.zoneReadonly then accountInactive sbi z
  else if z.zoneOpen || (0 < z.zWpoffset && z.zWpoffset < z.zCapacity) then
    if z.zoneActive then (sbi, z)
    else ({ sbi with activeSeqFiles := sbi.activeSeqFiles + 1 }, { z with zoneActive := true })
  else accountInactive sbi z

section

variable {δ : Type}

def zonefsInodeAccountActive (s : FileState δ) : FileState δ :=
  let (sbi, z) := zonefsAccountActive s.sbi s.z
  { s with sbi := sbi, z := z }

/-- A zone that has not been written is reset instead of closed. -/
def zonefsZoneMgmt (D : BlockDevice δ) (z : ZonefsZone) (op : ReqOp) (dev : δ) : Int × δ :=
  let op := if op = .zoneClose ∧ z.zWpoffset = 0 then .zoneReset else op
  D.zoneMgmt op z.zSector (z.zSize / 512).toNat dev

def zonefsInodeZoneMgmt (D : BlockDevice δ) (op : ReqOp) (s : FileState δ) : Int × FileState δ :=
  let (ret, dev) := zonefsZoneMgmt D s.z op s.dev
  (ret, { s with dev := dev })

def zonefsISizeWrite (isize : Int) (s : FileState δ) : FileState δ :=
  let s := { s with inode := { s.inode with iSize := isize } }
  if isize ≥ s.z.zCapacity then
    { s with
      sbi := if s.z.zoneActive then { s.sbi with activeSeqFiles := s.sbi.activeSeqFiles - 1 }
        else s.sbi
      z := { s.z with zoneOpen := false, zoneActive := false } }
  else s

def updateUsedBlocks (sbi : SbInfo) (oldIsize newIsize : Int) : Int :=
  if newIsize < oldIsize then
    let nrBlocks := (oldIsize - newIsize) / 2 ^ sbi.blocksizeBits
    if sbi.sUsedBlocks > nrBlocks then sbi.sUsedBlocks - nrBlocks else 0
  else
    let used := sbi.sUsedBlocks + (newIsize - oldIsize) / 2 ^ sbi.blocksizeBits
    if used > sbi.sBlocks then sbi.sBlocks else used

def zonefsUpdateStats (newIsize : Int) (s : FileState δ) : FileState δ :=
  if newIsize = s.inode.iSize then s
  else
    { s with
      sbi := { s.sbi with sUsedBlocks := updateUsedBlocks s.sbi s.inode.iSize newIsize } }

/-- The amount of written data in the zone, and the zone with what its condition says. -/
def zonefsCheckZoneCondition (z : ZonefsZone) (zone : BlkZone) : Int × ZonefsZone :=
  match zone.cond with
  | .offline => (0, { z with zoneOffline := true })
  | .readonly =>
    (if z.zoneCnv then z.zCapacity else z.zWpoffset, { z with zoneReadonly := true })
  | .full => (z.zCapacity, z)
  | _ => (if z.zoneCnv then z.zCapacity else sectorBytes (sectorSub zone.wp zone.start), z)

def zonefsInodeUpdateMode (z : ZonefsZone) (inode : ZonefsInode) : ZonefsZone × ZonefsInode :=
  let inode :=
    if z.zoneOffline then
      { inode with immutable := true, iMode := inode.iMode &&& ~~~0o777#16 }
    else if z.zoneReadonly then
      { inode with
        immutable := true
        iMode := inode.iMode &&& ~~~(if z.zoneInitMode then 0o777#16 else 0o222#16) }
    else inode
  ({ z with zoneInitMode := false, zMode := inode.iMode }, inode)

/-- How `zonefs_handle_io_error` takes the zone condition and the `errors=` option: the size
that the file is to have, and the flags and modes. -/
def errorPolicy (dataSize : Int) (s : FileState δ) : Int × FileState δ :=
  if s.z.zoneOffline || s.sbi.errorsZol then
    let (z, inode) := zonefsInodeUpdateMode { s.z with zoneOffline := true } s.inode
    (0, { s with z := z, inode := inode })
  else if s.z.zoneReadonly || s.sbi.errorsZro then
    let (z, inode) := zonefsInodeUpdateMode { s.z with zoneReadonly := true } s.inode
    (s.inode.iSize, { s with z := z, inode := inode })
  else if s.sbi.errorsRo && dataSize > s.inode.iSize then (s.inode.iSize, s)
  else (dataSize, s)

/-- A bad zone is not to be closed any more, and `errors=remount-ro` makes the file system
read-only. -/
def errorFlags (s : FileState δ) : FileState δ :=
  { s with
    z := { s.z with zoneOpen := s.z.zoneOpen && !(s.sbi.explicitOpen && s.z.isBad) }
    sbi := { s.sbi with rdonly := s.sbi.rdonly || s.sbi.errorsRo } }

/-- The file gets the size, and the zone the write pointer. -/
def setDataSize (dataSize : Int) (s : FileState δ) : FileState δ :=
  let s := zonefsISizeWrite dataSize (zonefsUpdateStats dataSize s)
  zonefsInodeAccountActive { s with z := { s.z with zWpoffset := dataSize } }

def zonefsHandleIoError (zone : BlkZone) (write : Bool) (s : FileState δ) : FileState δ :=
  let (dataSize, z) := zonefsCheckZoneCondition s.z zone
  let s := { s with z := z }
  if !z.isBad && !write && s.inode.iSize == dataSize then s
  else
    let (dataSize, s) := errorPolicy dataSize s
    setDataSize dataSize (errorFlags s)

/-- The report that is made up for a conventional zone. -/
def fakeReport (z : ZonefsZone) : BlkZone :=
  let len := (z.zSize / 512).toNat
  ⟨z.zSector, len, z.zSector + len, .conventional, .notWp, len⟩

/-- `__zonefs_io_error`, and `zonefs_io_error`, which takes the mutex around it. -/
def zonefsIoError (D : BlockDevice δ) (write : Bool) (s : FileState δ) : FileState δ :=
  if s.z.zoneCnv then zonefsHandleIoError (fakeReport s.z) write s
  else
    match D.reportZone s.z.zSector s.dev with
    | (none, dev) => { s with dev := dev, sbi := { s.sbi with rdonly := true } }
    | (some zone, dev) => zonefsHandleIoError zone write { s with dev := dev }

end

end ZonefsZones
