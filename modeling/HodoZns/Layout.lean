import HodoZns.ByteBlock
import HodoZns.BitmapWords

/-!
# Constants, on-disk structures and mapping information

The structures of `hodo.h`. A `hodo_inode` and a `hodo_datablock` both fill one
4096-byte block and the code casts one to the other, so a block stays a row of
bytes and the structure fields are little-endian integers at their C offsets.
Arrays of the in-memory `hodo_mapping_info` are functions of the index.
-/

namespace Layout

open ByteBlock BitmapWords

def hodoDatablockSize : Nat := 4096
def hodoDataStart : Nat := 8
def hodoDataSize : Nat := hodoDatablockSize - hodoDataStart
def hodoMaxNameLen : Nat := 16
def blockPtrSz : Nat := 4
def hodoDirentSize : Nat := 40

def numberZones : Nat := 16
def zoneSize : Nat := 256 * 2 ^ 20
def numberMappingTableEntry : Nat := numberZones * zoneSize / hodoDatablockSize
def blocksPerZone : Nat := zoneSize / hodoDatablockSize

@[simp] theorem hodoDatablockSize_eq : hodoDatablockSize = 4096 := by decide
@[simp] theorem hodoDataStart_eq : hodoDataStart = 8 := by decide
@[simp] theorem hodoDataSize_eq : hodoDataSize = 4088 := by decide
@[simp] theorem hodoMaxNameLen_eq : hodoMaxNameLen = 16 := by decide
@[simp] theorem blockPtrSz_eq : blockPtrSz = 4 := by decide
@[simp] theorem hodoDirentSize_eq : hodoDirentSize = 40 := by decide
@[simp] theorem numberZones_eq : numberZones = 16 := by decide
@[simp] theorem zoneSize_eq : zoneSize = 268435456 := by decide
@[simp] theorem numberMappingTableEntry_eq : numberMappingTableEntry = 1048576 := by decide
@[simp] theorem blocksPerZone_eq : blocksPerZone = 65536 := by decide

attribute [irreducible] zoneSize numberMappingTableEntry blocksPerZone

/-- One block of `HODO_DATABLOCK_SIZE` bytes. -/
abbrev Block := Bytes 4096

def chr (c : Char) : UInt8 := UInt8.ofNat c.toNat

/-- The test by which both the writer and the collector tell a data block. -/
def isDat (b : Block) : Bool :=
  byteAt b 0 == chr 'D' && byteAt b 1 == chr 'A' && byteAt b 2 == chr 'T'

def putMagic (b : Block) (c0 c1 c2 c3 : UInt8) : Block :=
  copyIn b 0 4 fun i => if i = 0 then c0 else if i = 1 then c1 else if i = 2 then c2 else c3

def level (b : Block) : UInt8 := byteAt b 3

def logicalBlockNumber (b : Block) : Nat := getLE b 4 4

def putLogicalBlockNumber (b : Block) (n : Nat) : Block := putLE b 4 4 n

/-- Pointer `i` of an index block. -/
def blockPtr (b : Block) (i : Nat) : Nat := getLE b (hodoDataStart + i * blockPtrSz) blockPtrSz

def putBlockPtr (b : Block) (i p : Nat) : Block :=
  putLE b (hodoDataStart + i * blockPtrSz) blockPtrSz p

def fileLen (b : Block) : Nat := getLE b 8 8
def nameLen (b : Block) : Nat := (byteAt b 16).toNat
def nameByte (b : Block) (i : Nat) : UInt8 := byteAt b (17 + i)
def fileType (b : Block) : UInt8 := byteAt b 33
def iIno (b : Block) : Nat := getLE b 36 4
def iNlink (b : Block) : Nat := getLE b 52 4
def direct (b : Block) (i : Nat) : Nat := getLE b (104 + 4 * i) 4
def singleIndirect (b : Block) : Nat := getLE b 144 4
def doubleIndirect (b : Block) : Nat := getLE b 148 4
def tripleIndirect (b : Block) : Nat := getLE b 152 4

def putFileLen (b : Block) (v : Nat) : Block := putLE b 8 8 v
def putNlink (b : Block) (v : Nat) : Block := putLE b 52 4 v
def putDirect (b : Block) (i p : Nat) : Block := putLE b (104 + 4 * i) 4 p
def putSingleIndirect (b : Block) (p : Nat) : Block := putLE b 144 4 p
def putDoubleIndirect (b : Block) (p : Nat) : Block := putLE b 148 4 p
def putTripleIndirect (b : Block) (p : Nat) : Block := putLE b 152 4 p

structure Timespec where
  sec : Nat
  nsec : Nat

/-- One of `i_atime`, `i_mtime`, `i_ctime`, at offsets 56, 72 and 88. -/
def putTime (b : Block) (off : Nat) (t : Timespec) : Block :=
  putLE (putLE b off 8 t.sec) (off + 8) 8 t.nsec

def putTimes (b : Block) (a m c : Timespec) : Block :=
  putTime (putTime (putTime b 56 a) 72 m) 88 c

/-- The logical number a block carries, read the way the collector reads it. -/
def ownNumber (b : Block) : Nat := if isDat b then logicalBlockNumber b else iIno b

/-- What the creating functions store into a `hodo_inode` variable. -/
structure InodeFields where
  fileLen : Nat
  name : List UInt8
  type : Nat
  iIno : Nat
  iMode : Nat
  iUid : Nat
  iGid : Nat

/-- `name_len` is one byte wide, and it is `name_len` bytes that are copied into
the field at offset 17, whatever their number. -/
def putInodeFields (b : Block) (f : InodeFields) : Block :=
  let b := putMagic b (chr 'I') (chr 'N') (chr 'O') (chr 'D')
  let b := putLE b 8 8 f.fileLen
  let b := putLE b 16 1 f.name.length
  let b := copyIn b 17 (f.name.length % 256) fun i => f.name.getD i 0
  let b := putLE b 33 1 f.type
  let b := putLE b 36 4 f.iIno
  let b := putLE b 40 2 f.iMode
  let b := putLE b 44 4 f.iUid
  let b := putLE b 48 4 f.iGid
  putLE b 52 4 1

/-- What is stored into a `uint16_t`. -/
def u16 (n : Nat) : Nat := n % 2 ^ 16

theorem u16_of_lt {n : Nat} (h : n < 65536) : u16 n = n :=
  Nat.mod_eq_of_lt h

/-- Both fields are `uint16_t`, so that what is counted up comes back to 0. -/
structure BlockPos where
  zoneId : Nat
  blockIndex : Nat
  deriving DecidableEq

/-- `strayStores` is no field of the C structure: it counts the stores that have gone
outside `mapping_table` or `GC_bitmap`, after which nothing is known of the memory. -/
structure MappingInfo where
  mappingTable : Nat → BlockPos
  startingLogicalNumber : Nat
  wp : BlockPos
  logicalEntryBitmap : Nat → Word
  gcBitmap : Nat → Nat → Word
  swapWp : BlockPos
  strayStores : Nat

/-- `mapping_info` as the loader leaves it. -/
def zeroMappingInfo : MappingInfo where
  mappingTable := fun _ => ⟨0, 0⟩
  startingLogicalNumber := 0
  wp := ⟨0, 0⟩
  logicalEntryBitmap := fun _ => 0
  gcBitmap := fun _ _ => 0
  swapWp := ⟨0, 0⟩
  strayStores := 0

/-- What the mount learns from the device. -/
structure Geometry where
  hodoNrZones : Nat
  hodoZoneSize : Nat

def standardGeometry : Geometry := ⟨numberZones, zoneSize⟩

@[simp] theorem standardGeometry_nrZones : standardGeometry.hodoNrZones = 16 := by decide
@[simp] theorem standardGeometry_zoneSize : standardGeometry.hodoZoneSize = 268435456 := zoneSize_eq

def update {α : Type*} (f : Nat → α) (i : Nat) (a : α) : Nat → α :=
  fun j => if j = i then a else f j

@[simp] theorem update_same {α : Type*} (f : Nat → α) (i : Nat) (a : α) : update f i a i = a := by
  simp [update]

@[simp] theorem update_other {α : Type*} (f : Nat → α) {i j : Nat} (a : α) (h : j ≠ i) :
    update f i a j = f j := by
  simp [update, h]

theorem update_self {α : Type*} (f : Nat → α) (i : Nat) : update f i (f i) = f := by
  funext j
  by_cases h : j = i
  · rw [h, update_same]
  · rw [update_other _ _ h]

end Layout
