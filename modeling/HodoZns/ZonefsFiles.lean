import HodoZns.ZonefsZones

/-!
# Operations on zone files

`file.c`: the mapping of a file to its zone, truncation, writing, reading, and the
count of those who have a file open for writing.
-/

namespace ZonefsFiles

open ZonefsZones

def ePerm : Int := -1
def eAgain : Int := -11
def eBusy : Int := -16
def eTxtBsy : Int := -26
def eFBig : Int := -27
def eRofs : Int := -30
def eNotBlk : Int := -15
def eOpNotSupp : Int := -95
def eIocbQueued : Int := -529

/-- `MAX_NON_LFS`. -/
def maxNonLfs : Int := 2 ^ 31 - 1

/-- A request, with what of its file and its task is looked at: `lockBusy` is whether
`inode_trylock` fails, `fsizeLimit` is `rlimit(RLIMIT_FSIZE)` if it is not `RLIM_INFINITY`. -/
structure ZoneKiocb where
  kiPos : Int
  direct : Bool
  nowait : Bool
  append : Bool
  sync : Bool
  largefile : Bool
  fsizeLimit : Option Int
  lockBusy : Bool

def SbInfo.blocksize (sbi : SbInfo) : Int := 2 ^ sbi.blocksizeBits

/-- `(a | b) & (s_blocksize - 1)` is not 0. -/
def unaligned (sbi : SbInfo) (a b : Int) : Bool :=
  a % SbInfo.blocksize sbi ≠ 0 || b % SbInfo.blocksize sbi ≠ 0

def alignDown (sbi : SbInfo) (pos : Int) : Int :=
  pos / SbInfo.blocksize sbi * SbInfo.blocksize sbi

section

variable {δ : Type}

inductive IomapType where
  | hole
  | mapped
  | unwritten
  deriving DecidableEq

/-- `addr` is `IOMAP_NULL_ADDR` for a hole. -/
structure Iomap where
  type : IomapType
  addr : Option Int
  offset : Int
  length : Int

def zonefsReadIomapBegin (offset length : Int) (s : FileState δ) : Iomap :=
  let start := alignDown s.sbi offset
  if start ≥ s.inode.iSize then ⟨.hole, none, start, length⟩
  else ⟨.mapped, some (sectorBytes s.z.zSector + start), start, s.inode.iSize - start⟩

def zonefsWriteIomapBegin (direct : Bool) (offset length : Int) (s : FileState δ) :
    Except Int Iomap :=
  if offset + length > s.z.zCapacity then .error eIo
  else if !s.z.zoneCnv && !direct then .error eIo
  else
    let start := alignDown s.sbi offset
    let addr := sectorBytes s.z.zSector + start
    if start ≥ s.inode.iSize then .ok ⟨.unwritten, some addr, start, s.z.zCapacity - start⟩
    else .ok ⟨.mapped, some addr, start, s.inode.iSize - start⟩

/-- Where on the device the file position is. -/
def Iomap.at (iomap : Iomap) (pos : Int) : Int := iomap.addr.getD 0 + (pos - iomap.offset)

/-- An open zone that is reset is opened again, and one that is finished is not open. -/
def truncateOpenZone (D : BlockDevice δ) (isize : Int) (s : FileState δ) : Int × FileState δ :=
  if s.z.zoneOpen then
    if isize = 0 then zonefsInodeZoneMgmt D .zoneOpen s
    else (0, { s with z := { s.z with zoneOpen := false } })
  else (0, s)

def truncateSetsize (isize : Int) (s : FileState δ) : FileState δ :=
  let s := zonefsUpdateStats isize s
  zonefsInodeAccountActive
    { s with
      inode := { s.inode with iSize := isize }
      z := { s.z with zWpoffset := isize } }

def truncateOp (z : ZonefsZone) (isize : Int) : Option ReqOp :=
  if isize = 0 then some .zoneReset
  else if isize = z.zCapacity then some .zoneFinish
  else none

def zonefsFileTruncate (D : BlockDevice δ) (isize : Int) (s : FileState δ) : Int × FileState δ :=
  if s.z.zoneCnv then (ePerm, s)
  else
    match truncateOp s.z isize with
    | none => (ePerm, s)
    | some op =>
      if isize = s.inode.iSize then (0, s)
      else
        let (ret, s) := zonefsInodeZoneMgmt D op s
        if ret ≠ 0 then (ret, s)
        else
          let (ret, s) := truncateOpenZone D isize s
          (ret, truncateSetsize isize s)

def zonefsFileFsync (D : BlockDevice δ) (s : FileState δ) : Int × FileState δ :=
  if s.inode.immutable then (ePerm, s)
  else
    let (ret, s) :=
      if s.z.zoneCnv then
        let (ret, dev) := D.request .writeAndWait s.dev
        (ret, { s with dev := dev })
      else (0, s)
    let (ret, s) :=
      if ret = 0 then
        let (ret, dev) := D.request .flush s.dev
        (ret, { s with dev := dev })
      else (ret, s)
    (ret, if ret ≠ 0 then zonefsIoError D true s else s)

/-- A request that is not synchronous handles its error here. -/
def zonefsFileWriteDioEndIo (D : BlockDevice δ) (iocb : ZoneKiocb) (size error : Int)
    (s : FileState δ) : Int × FileState δ :=
  if error ≠ 0 then (error, if iocb.sync then s else zonefsIoError D true s)
  else if size ≠ 0 ∧ s.z.zoneCnv = false ∧ s.inode.iSize < iocb.kiPos + size then
    (0, zonefsISizeWrite (iocb.kiPos + size) (zonefsUpdateStats (iocb.kiPos + size) s))
  else (0, s)

def zonefsWriteCheckLimits (iocb : ZoneKiocb) (z : ZonefsZone) (pos count : Int) : Int :=
  let maxSize := if iocb.largefile then z.zCapacity else min maxNonLfs z.zCapacity
  match iocb.fsizeLimit with
  | none => if pos ≥ maxSize then eFBig else min count (maxSize - pos)
  | some limit =>
    if pos ≥ limit then eFBig
    else if pos ≥ maxSize then eFBig
    else min (min count (limit - pos)) (maxSize - pos)

/-- The return value, the request with its position, and what is to be written. -/
def zonefsWriteChecks (iocb : ZoneKiocb) (data : List UInt8) (s : FileState δ) :
    Int × ZoneKiocb × List UInt8 :=
  if s.inode.swapfile then (eTxtBsy, iocb, data)
  else if data.length = 0 then (0, iocb, data)
  else if iocb.nowait && !iocb.direct then (eInval, iocb, data)
  else if iocb.append && s.z.zoneCnv then (eInval, iocb, data)
  else
    let iocb := if iocb.append then { iocb with kiPos := s.z.zWpoffset } else iocb
    let count := zonefsWriteCheckLimits iocb s.z iocb.kiPos data.length
    if count < 0 then (count, iocb, data)
    else ((data.take count.toNat).length, iocb, data.take count.toNat)

/-- The end of `iomap_dio_rw`, at which `end_io` is called. -/
def dioWriteEnded (D : BlockDevice δ) (iocb : ZoneKiocb) (size error ret : Int)
    (s : FileState δ) : Int × FileState δ :=
  let (e, s) := zonefsFileWriteDioEndIo D iocb size error s
  (if e ≠ 0 then e else ret, s)

def dioWriteDone (D : BlockDevice δ) (iocb : ZoneKiocb) (s : FileState δ) :
    DioResult → Int × FileState δ
  | .refused ret => (ret, s)
  | .completed size error ret => dioWriteEnded D iocb size error ret s
  | .queued => (eIocbQueued, s)

/-- `iomap_dio_rw` with `zonefs_write_iomap_ops` and `zonefs_write_dio_ops`. -/
def iomapDioWrite (D : BlockDevice δ) (iocb : ZoneKiocb) (data : List UInt8) (s : FileState δ) :
    Int × FileState δ :=
  match zonefsWriteIomapBegin true iocb.kiPos data.length s with
  | .error e => dioWriteEnded D iocb 0 e 0 s
  | .ok iomap =>
    let (result, dev) := D.dioWrite (iomap.at iocb.kiPos) data s.dev
    dioWriteDone D iocb { s with dev := dev } result

/-- The write pointer is moved before the request, as if it was to succeed. -/
def advanceWp (count : Int) (s : FileState δ) : FileState δ :=
  zonefsInodeAccountActive { s with z := { s.z with zWpoffset := s.z.zWpoffset + count } }

/-- `iomap_dio_rw` returns `-ENOTBLK` if a page could not be invalidated. -/
def makeSense (ret : Int) : Int := if ret = eNotBlk then eBusy else ret

/-- A request that came to its end too early is a failed one. -/
def checkCount (count ret : Int) : Int := if ret > 0 ∧ ret ≠ count then eIo else ret

def recoverWrite (D : BlockDevice δ) (ret : Int) (s : FileState δ) : FileState δ :=
  if ret < 0 ∧ ret ≠ eIocbQueued then zonefsIoError D true s else s

/-- The request, and error recovery in a sequential zone. -/
def submitDioWrite (D : BlockDevice δ) (iocb : ZoneKiocb) (data : List UInt8) (s : FileState δ) :
    Int × FileState δ :=
  let (ret, s) := iomapDioWrite D iocb data s
  let ret := makeSense ret
  if s.z.zoneCnv then (ret, s)
  else
    let ret := checkCount data.length ret
    (ret, recoverWrite D ret s)

def zonefsFileDioWrite (D : BlockDevice δ) (iocb : ZoneKiocb) (data : List UInt8)
    (s : FileState δ) : Int × FileState δ :=
  if !s.z.zoneCnv && !iocb.sync && iocb.nowait then (eOpNotSupp, s)
  else if iocb.nowait && iocb.lockBusy then (eAgain, s)
  else
    let (count, iocb, data) := zonefsWriteChecks iocb data s
    if count ≤ 0 then (count, s)
    else if unaligned s.sbi iocb.kiPos count then (eInval, s)
    else if s.z.zoneCnv then submitDioWrite D iocb data s
    else if iocb.kiPos ≠ s.z.zWpoffset then (eInval, s)
    else submitDioWrite D iocb data (advanceWp count s)

def zonefsFileBufferedWrite (D : BlockDevice δ) (iocb : ZoneKiocb) (data : List UInt8)
    (s : FileState δ) : Int × FileState δ :=
  if !s.z.zoneCnv then (eIo, s)
  else if iocb.nowait && iocb.lockBusy then (eAgain, s)
  else
    let (ret, iocb, data) := zonefsWriteChecks iocb data s
    if ret ≤ 0 then (ret, s)
    else
      let (ret, dev) := D.request (.bufferedWrite iocb.kiPos data) s.dev
      let s := { s with dev := dev }
      let s := if ret = eIo then zonefsIoError D true s else s
      if ret > 0 then
        let (ret, dev) := D.request .writeSync s.dev
        (ret, { s with dev := dev })
      else (ret, s)

def zonefsFileWriteIter (D : BlockDevice δ) (iocb : ZoneKiocb) (data : List UInt8)
    (s : FileState δ) : Int × FileState δ :=
  if s.inode.immutable then (ePerm, s)
  else if s.sbi.rdonly then (eRofs, s)
  else if iocb.kiPos ≥ s.z.zCapacity then (eFBig, s)
  else if iocb.direct then
    let (ret, s) := zonefsFileDioWrite D iocb data s
    if ret ≠ eNotBlk then (ret, s) else zonefsFileBufferedWrite D iocb data s
  else zonefsFileBufferedWrite D iocb data s

def zonefsFileReadDioEndIo (D : BlockDevice δ) (error : Int) (s : FileState δ) :
    Int × FileState δ :=
  if error ≠ 0 then (error, zonefsIoError D false s) else (0, s)

def dioReadDone (D : BlockDevice δ) (s : FileState δ) :
    DioResult × List UInt8 → (Int × List UInt8) × FileState δ
  | (.refused ret, _) => ((ret, []), s)
  | (.completed _ error ret, data) =>
    let (e, s) := zonefsFileReadDioEndIo D error s
    (if e ≠ 0 then (e, []) else (ret, data), s)
  | (.queued, _) => ((eIocbQueued, []), s)

/-- `iomap_dio_rw` with `zonefs_read_iomap_ops` and `zonefs_read_dio_ops`; a hole is not
read from the device. -/
def iomapDioRead (D : BlockDevice δ) (pos count : Int) (s : FileState δ) :
    (Int × List UInt8) × FileState δ :=
  let iomap := zonefsReadIomapBegin pos count s
  if iomap.type = .hole then ((0, []), s)
  else
    let (result, dev) := D.dioRead (iomap.at pos) count s.dev
    dioReadDone D { s with dev := dev } result

def bufferedRead (D : BlockDevice δ) (pos count : Int) (s : FileState δ) : Int × FileState δ :=
  let (ret, dev) := D.request (.bufferedRead pos count) s.dev
  let s := { s with dev := dev }
  (ret, if ret = eIo then zonefsIoError D false s else s)

/-- Offline zones cannot be read. -/
def unreadable (inode : ZonefsInode) : Bool :=
  inode.immutable && inode.iMode &&& 0o777#16 == 0

/-- The return value, and the bytes that a direct read delivers. -/
def zonefsFileReadIter (D : BlockDevice δ) (iocb : ZoneKiocb) (count : Nat) (s : FileState δ) :
    (Int × List UInt8) × FileState δ :=
  if unreadable s.inode then ((ePerm, []), s)
  else if iocb.kiPos ≥ s.z.zCapacity then ((0, []), s)
  else if iocb.nowait && iocb.lockBusy then ((eAgain, []), s)
  else if iocb.kiPos ≥ s.inode.iSize then ((0, []), s)
  else
    let count := min (count : Int) (s.inode.iSize - iocb.kiPos)
    if iocb.direct then
      if unaligned s.sbi iocb.kiPos count then ((eInval, []), s)
      else iomapDioRead D iocb.kiPos count s
    else
      let (ret, s) := bufferedRead D iocb.kiPos count s
      ((ret, []), s)

def zonefsFileSpliceRead (D : BlockDevice δ) (pos : Int) (len : Nat) (s : FileState δ) :
    Int × FileState δ :=
  if unreadable s.inode then (ePerm, s)
  else if pos ≥ s.z.zCapacity then (0, s)
  else
    let len := max 0 (min (len : Int) (s.inode.iSize - pos))
    if len > 0 then bufferedRead D pos len s else (0, s)

def zonefsSeqFileNeedWro (fModeWrite : Bool) (z : ZonefsZone) : Bool := !z.zoneCnv && fModeWrite

def addWro (n : Int) (s : FileState δ) : FileState δ :=
  { s with sbi := { s.sbi with wroSeqFiles := s.sbi.wroSeqFiles + n } }

/-- The explicit open of a zone that is not full. -/
def openZone (D : BlockDevice δ) (s : FileState δ) : Int × FileState δ :=
  if s.inode.iSize < s.z.zCapacity then
    let (ret, s) := zonefsInodeZoneMgmt D .zoneOpen s
    if ret ≠ 0 then (ret, addWro (-1) s)
    else (0, zonefsInodeAccountActive { s with z := { s.z with zoneOpen := true } })
  else (0, s)

/-- What the first one to open the file for writing does. -/
def firstWriter (D : BlockDevice δ) (s : FileState δ) : Int × FileState δ :=
  let s := addWro 1 s
  if s.sbi.explicitOpen then
    if s.sbi.maxWroSeqFiles ≠ 0 ∧ s.sbi.wroSeqFiles > s.sbi.maxWroSeqFiles then
      (eBusy, addWro (-1) s)
    else openZone D s
  else (0, s)

def takeReference (s : FileState δ) : FileState δ :=
  { s with inode := { s.inode with iWrRefcnt := s.inode.iWrRefcnt + 1 } }

def dropReference (s : FileState δ) : FileState δ :=
  { s with inode := { s.inode with iWrRefcnt := s.inode.iWrRefcnt - 1 } }

def zonefsSeqFileWriteOpen (D : BlockDevice δ) (s : FileState δ) : Int × FileState δ :=
  let (ret, s) := if s.inode.iWrRefcnt = 0 then firstWriter D s else (0, s)
  (ret, if ret = 0 then takeReference s else s)

/-- `opened` is what `generic_file_open` returned. -/
def zonefsFileOpen (D : BlockDevice δ) (fModeWrite : Bool) (opened : Int) (s : FileState δ) :
    Int × FileState δ :=
  if opened ≠ 0 then (opened, s)
  else if zonefsSeqFileNeedWro fModeWrite s.z then zonefsSeqFileWriteOpen D s
  else (0, s)

/-- After a close that failed: a zone that is left open makes the file system read-only. -/
def closeFailed (D : BlockDevice δ) (s : FileState δ) : FileState δ :=
  let s := zonefsIoError D false s
  { s with sbi := { s.sbi with rdonly := s.sbi.rdonly || s.z.zoneOpen } }

/-- What the last one to close the file does; a close that fails is left counted. -/
def lastWriter (D : BlockDevice δ) (s : FileState δ) : FileState δ :=
  if s.z.zoneOpen then
    let (ret, s) := zonefsInodeZoneMgmt D .zoneClose s
    if ret ≠ 0 then closeFailed D s
    else addWro (-1) (zonefsInodeAccountActive { s with z := { s.z with zoneOpen := false } })
  else addWro (-1) s

def zonefsSeqFileWriteClose (D : BlockDevice δ) (s : FileState δ) : FileState δ :=
  let s := dropReference s
  if s.inode.iWrRefcnt = 0 then lastWriter D s else s

def zonefsFileRelease (D : BlockDevice δ) (fModeWrite : Bool) (s : FileState δ) :
    Int × FileState δ :=
  (0, if zonefsSeqFileNeedWro fModeWrite s.z then zonefsSeqFileWriteClose D s else s)

/-- The attributes that are to be set; `inGroup` says whether a new mode may keep `S_ISGID`. -/
structure ZoneIattr where
  inGroup : Bool
  mode : Option (BitVec 16)
  uid : Option Nat
  gid : Option Nat
  size : Option Int

def sIsgid : BitVec 16 := 0o2000#16

/-- The mode that `setattr_copy` puts down. -/
def ZoneIattr.newMode (attr : ZoneIattr) (old : BitVec 16) : BitVec 16 :=
  match attr.mode with
  | some mode => if attr.inGroup then mode else mode &&& ~~~sIsgid
  | none => old

/-- The rest of `setattr_copy`, and the copy of the attributes in the zone. -/
def setAttributes (mode : BitVec 16) (uid gid : Nat) (s : FileState δ) : FileState δ :=
  { s with
    inode := { s.inode with iMode := mode, iUid := uid, iGid := gid }
    z := { s.z with zMode := mode, zUid := uid, zGid := gid } }

def setattrSize (D : BlockDevice δ) (size : Option Int) (s : FileState δ) : Int × FileState δ :=
  match size with
  | some size => zonefsFileTruncate D size s
  | none => (0, s)

/-- `prepared` is what `setattr_prepare` returned, `transferred` what `dquot_transfer` would
return if the owner changes. -/
def zonefsInodeSetattr (D : BlockDevice δ) (prepared transferred : Int) (attr : ZoneIattr)
    (s : FileState δ) : Int × FileState δ :=
  if s.inode.immutable then (ePerm, s)
  else if prepared ≠ 0 then (prepared, s)
  else if (attr.uid.getD s.inode.iUid ≠ s.inode.iUid ∨ attr.gid.getD s.inode.iGid ≠ s.inode.iGid) ∧
      transferred ≠ 0 then (transferred, s)
  else
    let (ret, s) := setattrSize D attr.size s
    if ret ≠ 0 then (ret, s)
    else
      (0, setAttributes (attr.newMode s.inode.iMode) (attr.uid.getD s.inode.iUid)
        (attr.gid.getD s.inode.iGid) s)

/-- The inode that `zonefs_get_file_inode` sets up when it is not in the cache. -/
def zonefsGetFileInode (z : ZonefsZone) : ZonefsZone × ZonefsInode :=
  zonefsInodeUpdateMode z
    { iSize := z.zWpoffset
      iMode := z.zMode
      iUid := z.zUid
      iGid := z.zGid
      immutable := false
      swapfile := false
      iWrRefcnt := 0 }

end

end ZonefsFiles
