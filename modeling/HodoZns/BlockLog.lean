import HodoZns.FuelLoop
import HodoZns.Layout

/-!
# The block log over zone files

`trans.c` keeps its log in the files of zonefs, one for each zone: it opens a file for
each block that it reads or writes, and truncates it to reset the zone. What it does is
written down here once, over whatever answers these requests. `GC` compacts the data
zones from zone 1 on. Live blocks are copied one by one into the swap zone; when it holds
`BLOCKS_PER_ZONE - 1` of them, the zone of the write pointer is reset and filled from the
swap zone, which is then reset too. The swap-out loop reads one block past the end of the
swap zone, so the last block of a full batch is written twice.
-/

namespace BlockLog

open ByteBlock BitmapWords Layout FuelLoop

def eNoEnt : Int := -2
def eInval : Int := -22
def eFBig : Int := -27

def hodoSetLogicalBitmap (m : MappingInfo) (i j : Nat) : MappingInfo :=
  { m with logicalEntryBitmap := modifyWord m.logicalEntryBitmap i fun w => setBit w j }

/-- Both indices are C `int`s. The word behind the bitmap is `invalid_count`, which
nothing reads; a negative index goes with a number outside the table. -/
def hodoUnsetLogicalBitmap (m : MappingInfo) (i j : Int) : MappingInfo :=
  if 0 ≤ i ∧ 0 ≤ j then
    { m with
      logicalEntryBitmap :=
        modifyWord m.logicalEntryBitmap i.toNat fun w => clearBit w j.toNat }
  else m

/-- The number as its callers store it, in an unsigned int: -1 is `2^32 - 1`. -/
def hodoGetNextLogicalNumber (m : MappingInfo) : Nat × MappingInfo :=
  match firstBit m.logicalEntryBitmap false (numberMappingTableEntry / 32) with
  | some (i, j) =>
    ((m.startingLogicalNumber + (i * 32 + j)) % 2 ^ 32, hodoSetLogicalBitmap m i j)
  | none => (2 ^ 32 - 1, m)

/-- The rows of `GC_bitmap` are those of the zones 0 to `NUMBER_ZONES - 1`. -/
def hodoSetGCBitmap (m : MappingInfo) (pos : BlockPos) : MappingInfo :=
  { m with
    gcBitmap := update m.gcBitmap pos.zoneId
      (modifyWord (m.gcBitmap pos.zoneId) (pos.blockIndex / 32)
        fun w => setBit w (pos.blockIndex % 32))
    strayStores := m.strayStores + if numberZones ≤ pos.zoneId then 1 else 0 }

def hodoUnsetGCBitmap (m : MappingInfo) (pos : BlockPos) : MappingInfo :=
  { m with
    gcBitmap := update m.gcBitmap pos.zoneId
      (modifyWord (m.gcBitmap pos.zoneId) (pos.blockIndex / 32)
        fun w => clearBit w (pos.blockIndex % 32))
    strayStores := m.strayStores + if numberZones ≤ pos.zoneId then 1 else 0 }

def hodoGetNextGCValid (m : MappingInfo) : BlockPos :=
  let found := firstFrom (fun i =>
    (firstBit (m.gcBitmap i) true (blocksPerZone / 32)).map
      fun (j, k) => (⟨i, j * 32 + k⟩ : BlockPos))
    (numberZones - 2 - m.wp.zoneId) m.wp.zoneId
  found.getD ⟨0, 0⟩

/-- `n - starting_logical_number` in unsigned arithmetic. -/
def tableIndex (m : MappingInfo) (n : Nat) : Nat :=
  (n + (2 ^ 32 - m.startingLogicalNumber % 2 ^ 32)) % 2 ^ 32

/-- Numbers that `mapping_table` has an entry for. -/
def InTable (m : MappingInfo) (n : Nat) : Prop :=
  n < 2 ^ 32 ∧ tableIndex m n < numberMappingTableEntry

instance (m : MappingInfo) (n : Nat) : Decidable (InTable m n) :=
  inferInstanceAs (Decidable (n < 2 ^ 32 ∧ tableIndex m n < numberMappingTableEntry))

/-- What is read of a number that is not `InTable` is no entry; `hodo_read_struct` has no
result then, and in the other functions a store to the same index follows. -/
def tableEntry (m : MappingInfo) (n : Nat) : BlockPos := m.mappingTable (tableIndex m n)

def setTableEntry (m : MappingInfo) (n : Nat) (pos : BlockPos) : MappingInfo :=
  { m with
    mappingTable := update m.mappingTable (tableIndex m n) pos
    strayStores := m.strayStores + if numberMappingTableEntry ≤ tableIndex m n then 1 else 0 }

/-- An unsigned int passed as an `int`. -/
def toInt32 (n : Nat) : Int := if n % 2 ^ 32 < 2 ^ 31 then n % 2 ^ 32 else n % 2 ^ 32 - 2 ^ 32

def hodoEraseTableEntry (m : MappingInfo) (n : Nat) : MappingInfo :=
  let m := setTableEntry m n { tableEntry m n with zoneId := 0 }
  hodoUnsetLogicalBitmap m ((toInt32 n).tdiv 32) ((toInt32 n).tmod 32)

/-- The number under which a data block is written goes into its header. -/
def stamp (b : Block) (n : Nat) : Block := if isDat b then putLogicalBlockNumber b n else b

/-- Bitmaps and table before the transfer; the first part is the number written under. -/
def recordWrite (m : MappingInfo) (n : Nat) : Nat × MappingInfo :=
  let wp := m.wp
  let m := hodoSetGCBitmap m wp
  let (n, m) :=
    if n = 0 then hodoGetNextLogicalNumber m else (n, hodoUnsetGCBitmap m (tableEntry m n))
  (n, setTableEntry m n wp)

def nextWp (G : Geometry) (wp : BlockPos) (len : Nat) : BlockPos :=
  if wp.blockIndex * hodoDatablockSize + len = G.hodoZoneSize then ⟨u16 (wp.zoneId + 1), 0⟩
  else ⟨wp.zoneId, u16 (wp.blockIndex + 1)⟩

/-- The same for a block moved to the swap zone; its number is given. -/
def recordMove (m : MappingInfo) (n : Nat) : MappingInfo :=
  let swapWp := m.swapWp
  let m := hodoSetGCBitmap m swapWp
  let m := hodoUnsetGCBitmap m (tableEntry m n)
  setTableEntry m n swapWp

/-- The swap zone is never rolled over: after its last block the pointer stays. -/
def nextSwapWp (G : Geometry) (swapWp : BlockPos) (len : Nat) : BlockPos :=
  if swapWp.blockIndex * hodoDatablockSize + len = G.hodoZoneSize then swapWp
  else ⟨swapWp.zoneId, u16 (swapWp.blockIndex + 1)⟩

/-- `S_IFDIR` and `S_IFREG`. -/
def sIfDir : Nat := 0o040000
def sIfReg : Nat := 0o100000

def rootInode (stack : Block) (n uid gid : Nat) : Block :=
  putInodeFields stack
    { fileLen := 0, name := [chr '/'], type := 1, iIno := n, iMode := sIfDir,
      iUid := uid, iGid := gid }

/-- What is asked of the zone files. A write is `filp_open`, `write_iter` and `filp_close`,
and ends with an error if the file does not open; no file sees the number `n` that the
block is written under. A read goes into the buffer that is given. `truncate` is
`kern_path` and `zonefs_file_truncate` to 0, whose result no caller looks at. -/
structure ZoneFiles (σ : Type) where
  info : σ → MappingInfo
  setInfo : σ → MappingInfo → σ
  write : (zone offset len n : Nat) → Block → σ → Except Int Int × σ
  read : (zone offset len : Nat) → Block → σ → (Int × Block) × σ
  truncate : (zone : Nat) → σ → σ

structure WriteResult (σ : Type) where
  ret : Int
  number : Nat
  buf : Option Block
  volume : σ

/-- More turns than any loop of the collector takes. -/
def loopFuel : Nat := numberZones * blocksPerZone

namespace ZoneFiles

variable {σ : Type} (F : ZoneFiles σ)

def setWp (s : σ) (pos : BlockPos) : σ := F.setInfo s { F.info s with wp := pos }

def setSwapWp (s : σ) (pos : BlockPos) : σ := F.setInfo s { F.info s with swapWp := pos }

/-- The body shared by `hodo_read_struct` and `hodo_GC_read_struct`. -/
def readAt (s : σ) (pos : BlockPos) (outBuf : Option Block) (len : Nat) :
    (Int × Option Block) × σ :=
  match outBuf with
  | none => ((eInval, none), s)
  | some buf =>
    if len = 0 ∨ hodoDatablockSize < len then ((eInval, some buf), s)
    else
      let ((ret, buf), s) := F.read pos.zoneId (pos.blockIndex * hodoDatablockSize) len buf s
      ((ret, some buf), s)

/-- There is no result when the load is not from the table. -/
def hodoReadStruct (s : σ) (n : Nat) (outBuf : Option Block) (len : Nat) :
    Option ((Int × Option Block) × σ) :=
  if InTable (F.info s) n then some (F.readAt s (tableEntry (F.info s) n) outBuf len) else none

def hodoGCReadStruct (s : σ) (pos : BlockPos) (outBuf : Option Block) (len : Nat) :
    (Int × Option Block) × σ :=
  F.readAt s pos outBuf len

def hodoWriteStruct (G : Geometry) (s : σ) (buf : Option Block) (len n : Nat) : WriteResult σ :=
  match buf with
  | none => ⟨eInval, n, none, s⟩
  | some b =>
    if len = 0 ∨ hodoDatablockSize < len then ⟨eInval, n, some b, s⟩
    else
      let wp := (F.info s).wp
      let (n, m) := recordWrite (F.info s) n
      let b := stamp b n
      match F.write wp.zoneId (wp.blockIndex * hodoDatablockSize) len n b (F.setInfo s m) with
      | (.error e, s) => ⟨e, n, some b, s⟩
      | (.ok ret, s) => ⟨ret, n, some b, F.setWp s (nextWp G wp len)⟩

def hodoGCWriteStruct (G : Geometry) (s : σ) (buf : Option Block) (len n : Nat) : WriteResult σ :=
  match buf with
  | none => ⟨eInval, n, none, s⟩
  | some b =>
    if len = 0 ∨ hodoDatablockSize < len then ⟨eInval, n, some b, s⟩
    else
      let swapWp := (F.info s).swapWp
      let s := F.setInfo s (recordMove (F.info s) n)
      match F.write swapWp.zoneId (swapWp.blockIndex * hodoDatablockSize) len n b s with
      | (.error e, s) => ⟨e, n, some b, s⟩
      | (.ok ret, s) => ⟨ret, n, some b, F.setSwapWp s (nextSwapWp G swapWp len)⟩

/-- `hodo_init` after the mount point is known and the mapping information of an earlier
mount is read; `stack` is what the automatic `root_inode` happens to hold. -/
def hodoInit (G : Geometry) (s : σ) (stack : Block) (uid gid : Nat) : σ :=
  if (F.info s).wp.zoneId = 0 ∧ (F.info s).wp.blockIndex = 0 then
    let s := F.setSwapWp (F.setWp s ⟨1, 0⟩) ⟨G.hodoNrZones - 2, 0⟩
    let (n, m) := hodoGetNextLogicalNumber (F.info s)
    (F.hodoWriteStruct G (F.setInfo s m) (some (rootInode stack n uid gid)) hodoDatablockSize
      n).volume
  else s

def gcRead (s : σ) (pos : BlockPos) (temp : Block) : Block × σ :=
  let ((_, buf), s) := F.hodoGCReadStruct s pos (some temp) hodoDatablockSize
  (buf.getD temp, s)

/-- One turn of either swap-out loop: the block at `swap_out_ptr` goes to the log. -/
def swapOutOne (G : Geometry) (ptr : BlockPos) (temp : Block) (s : σ) : Block × σ :=
  let (temp, s) := F.gcRead s ptr temp
  let r := F.hodoWriteStruct G s (some temp) hodoDatablockSize (ownNumber temp)
  (r.buf.getD temp, r.volume)

/-- `while (1)`, left after the turn at `BLOCKS_PER_ZONE - 1`. -/
def swapOutFull (G : Geometry) (temp : Block) (s : σ) : Option (Block × σ) :=
  loop (fun ((ptr, temp, s) : BlockPos × Block × σ) =>
    let (temp, s) := F.swapOutOne G ptr temp s
    if ptr.blockIndex = blocksPerZone - 1 then .inr (temp, s)
    else .inl ({ ptr with blockIndex := ptr.blockIndex + 1 }, temp, s))
    loopFuel (⟨G.hodoNrZones - 2, 0⟩, temp, s)

/-- `while (swap_out_ptr.block_index < swap_wp.block_index)`. -/
def swapOutRest (G : Geometry) (temp : Block) (s : σ) : Option (Block × σ) :=
  loop (fun ((ptr, temp, s) : BlockPos × Block × σ) =>
    if ptr.blockIndex < (F.info s).swapWp.blockIndex then
      let (temp, s) := F.swapOutOne G ptr temp s
      .inl ({ ptr with blockIndex := ptr.blockIndex + 1 }, temp, s)
    else .inr (temp, s))
    loopFuel (⟨G.hodoNrZones - 2, 0⟩, temp, s)

/-- The swap zone is full. -/
def drainFull (G : Geometry) (temp : Block) (s : σ) : Option (Block × σ) :=
  (F.swapOutFull G temp (F.truncate (F.info s).wp.zoneId s)).map fun (temp, s) =>
    let s := F.truncate (F.info s).swapWp.zoneId s
    (temp, F.setSwapWp s { (F.info s).swapWp with blockIndex := 0 })

/-- What is left in the swap zone after the scan. -/
def drainRest (G : Geometry) (temp : Block) (s : σ) : Option (Block × σ) :=
  if (F.info s).swapWp.blockIndex ≠ 0 then
    (F.swapOutRest G temp (F.truncate (F.info s).wp.zoneId s)).map fun (temp, s) =>
      (temp, F.truncate (F.info s).swapWp.zoneId s)
  else some (temp, s)

/-- The block at `pos` goes to the swap zone. -/
def swapInOne (G : Geometry) (pos : BlockPos) (temp : Block) (s : σ) : Block × σ :=
  let (temp, s) := F.gcRead s pos temp
  let r := F.hodoGCWriteStruct G s (some temp) hodoDatablockSize (ownNumber temp)
  (r.buf.getD temp, r.volume)

/-- The rest of a turn of the main loop; an inner loop that does not end ends nothing. -/
def drainIfFull (G : Geometry) : Block × σ → (Block × σ) ⊕ Option (Block × σ) :=
  fun (temp, s) =>
    if blocksPerZone - 1 ≤ (F.info s).swapWp.blockIndex then
      match F.drainFull G temp s with
      | none => .inr none
      | some r => .inl r
    else .inl (temp, s)

/-- One turn of the main loop. -/
def collectTurn (G : Geometry) : Block × σ → (Block × σ) ⊕ Option (Block × σ) := fun (temp, s) =>
  let pos := hodoGetNextGCValid (F.info s)
  if pos.zoneId = 0 then .inr (some (temp, s))
  else F.drainIfFull G (F.swapInOne G pos temp s)

def collect (G : Geometry) (temp : Block) (s : σ) : Option (Block × σ) :=
  (loop (F.collectTurn G) loopFuel (temp, s)).join

/-- `for (i = start; i <= last; ++i)`, with the number of turns in front. -/
def resetZones : Nat → Nat → σ → σ
  | 0, _, s => s
  | turns + 1, i, s => resetZones turns (i + 1) (F.truncate i s)

def startGC (G : Geometry) (s : σ) : σ := F.setSwapWp (F.setWp s ⟨1, 0⟩) ⟨G.hodoNrZones - 2, 0⟩

/-- The zones behind the compacted log, up to the zone the log had reached. -/
def resetBehind (prevWp : BlockPos) (s : σ) : σ :=
  let wp := (F.info s).wp
  let start := if wp.blockIndex = 0 then wp.zoneId else wp.zoneId + 1
  F.resetZones (prevWp.zoneId + 1 - start) start s

/-- `kmem` is what the buffer from `kmalloc` holds. -/
def GC (G : Geometry) (kmem : Block) (s : σ) : Option σ :=
  (F.collect G kmem (F.startGC G s)).bind fun (temp, s') =>
    (F.drainRest G temp s').map fun (_, s'') => F.resetBehind (F.info s).wp s''

end ZoneFiles

end BlockLog
