import HodoZns.Kernel

/-!
# Reading and writing regular files

A file's blocks hang off its inode through ten direct pointers and three index
trees of depth one to three, with 1022 pointers to an index block. A write goes
block by block; each one rewrites the data block, the index blocks above it and
the inode.
-/

namespace FileBlocks

open ByteBlock Layout BlockLog ZoneLog Programs Kernel

/-- An I/O vector to be read from. `copy_from_iter` comes to a page that cannot
be read after `readable` bytes. -/
structure IovIter where
  bytes : List UInt8
  readable : Nat

def IovIter.count (iter : IovIter) : Nat := iter.bytes.length

/-- The bytes `copy_from_iter` delivers, and the iterator behind them. -/
def IovIter.copyFrom (iter : IovIter) (len : Nat) : List UInt8 × IovIter :=
  let copied := min len iter.readable
  (iter.bytes.take copied,
    ⟨iter.bytes.drop copied, iter.readable - (iter.bytes.take copied).length⟩)

/-- An I/O vector to be filled, with room for `room` more bytes. -/
structure IovSink where
  room : Nat
  delivered : List UInt8

/-- `copy_to_iter(b + off, len, iter)`. -/
def IovSink.copyTo (iter : IovSink) (b : Block) (off len : Nat) : IovSink :=
  let copied := min len iter.room
  ⟨iter.room - copied, iter.delivered ++ (List.range copied).map fun i => byteAt b (off + i)⟩

structure Kiocb where
  inode : Nat
  append : Bool
  kiPos : Int

/-- `HODO_DATA_SIZE / BLOCK_PTR_SZ`. -/
def numOfBlockPoses : Nat := hodoDataSize / blockPtrSz

@[simp] theorem numOfBlockPoses_eq : numOfBlockPoses = 1022 := by decide

/-- The first data block of each of the four regions, and the end of the last. -/
def singleStart : Nat := 10
def doubleStart : Nat := singleStart + numOfBlockPoses
def tripleStart : Nat := doubleStart + numOfBlockPoses * numOfBlockPoses
def blocksPerFile : Nat := tripleStart + numOfBlockPoses * numOfBlockPoses * numOfBlockPoses

@[simp] theorem singleStart_eq : singleStart = 10 := rfl
@[simp] theorem doubleStart_eq : doubleStart = 1032 := by decide
@[simp] theorem tripleStart_eq : tripleStart = 1045516 := by decide
@[simp] theorem blocksPerFile_eq : blocksPerFile = 1068508164 := by decide

attribute [irreducible] numOfBlockPoses singleStart doubleStart tripleStart blocksPerFile

def isDirectblock (b : Block) : Bool := level b == chr '0'

/-- An index block of the given level, as the index arithmetic tests it. -/
def isIndexBlock (b : Block) (digit : Char) : Bool := isDat b && level b == chr digit

/-- The pointer an index block is followed through to a data block. -/
def blockPosIndex (dataBlockIndex : Nat) (current : Block) : Except Int Nat :=
  if dataBlockIndex < singleStart then .error eIo
  else if dataBlockIndex < doubleStart then .ok (dataBlockIndex - singleStart)
  else if dataBlockIndex < tripleStart then
    let i := dataBlockIndex - doubleStart
    if isIndexBlock current '2' then .ok (i / numOfBlockPoses)
    else if isIndexBlock current '1' then .ok (i % numOfBlockPoses)
    else .error eIo
  else if dataBlockIndex < blocksPerFile then
    let i := dataBlockIndex - tripleStart
    if isIndexBlock current '3' then .ok (i / numOfBlockPoses / numOfBlockPoses)
    else if isIndexBlock current '2' then .ok (i / numOfBlockPoses % numOfBlockPoses)
    else if isIndexBlock current '1' then .ok (i % numOfBlockPoses)
    else .error eIo
  else .error eFBig

def dataBlockIndex (iocb : Kiocb) : Nat := u64 iocb.kiPos / hodoDataSize

/-- A pointer to follow and the buffer read for it; a missing block is made up
with the given level. -/
def readOrMake (p : Nat) (digit : UInt8) (buf : Block) : Program Block :=
  if p ≠ 0 then hodoRead p buf
  else pure (putMagic buf (chr 'D') (chr 'A') (chr 'T') digit)

/-- The last component is the number the block was written under. The source
takes its second branch also without an old block, but none of its callers
passes `NULL`; with nothing left over the two branches agree. -/
def writeOneBlockByDirectBlock (iocb : Kiocb) (iter : IovIter) (n : Nat) (current : Block) :
    Program (Int × IovIter × Nat) := do
  match ← kmalloc with
  | none => pure (eNoMem, iter, n)
  | some target =>
    let target := putMagic target (chr 'D') (chr 'A') (chr 'T') (chr '0')
    let len := iter.count
    let leftLen := u64 iocb.kiPos % hodoDataSize
    let target := copyIn target hodoDataStart leftLen fun i => byteAt current (hodoDataStart + i)
    let want := if hodoDataSize ≤ len + leftLen then hodoDataSize - leftLen else len
    let (copied, iter) := iter.copyFrom want
    let target :=
      copyIn target (hodoDataStart + leftLen) copied.length fun i => copied.getD i 0
    if copied.length ≠ want then pure (eFault, iter, n)
    else do
      let (_, n) ← hodoWrite target n
      pure ((want : Int), iter, n)

/-- `depth` bounds the recursion: a chain of index blocks that does not come
down to a data block overflows the stack. -/
def writeOneBlockByIndirectBlock :
    Nat → Kiocb → IovIter → Nat → Block → Program (Int × IovIter × Nat)
  | 0, _, _, _, _ => .crash
  | depth + 1, iocb, iter, n, current =>
    match blockPosIndex (dataBlockIndex iocb) current with
    | .error e => pure (e, iter, n)
    | .ok i => do
      let p := blockPtr current i
      match ← kmalloc with
      | none => pure (eNoMem, iter, n)
      | some target =>
        let target ← readOrMake p (level current - 1) target
        let (written, iter, q) ←
          if isDirectblock target then writeOneBlockByDirectBlock iocb iter p target
          else writeOneBlockByIndirectBlock depth iocb iter p target
        if 0 < written ∧ q ≠ 0 then do
          let (_, n) ← hodoWrite (putBlockPtr current i q) n
          pure (written, iter, n)
        else pure (written, iter, n)

/-- The calls the stack has room for; the index trees need three. -/
def callDepth : Nat := 16

/-- The pointer field of the inode that leads to a data block. -/
inductive Field where
  | direct (i : Nat)
  | singleIndirect
  | doubleIndirect
  | tripleIndirect

def fieldOf (index : Nat) : Option Field :=
  if index < singleStart then some (.direct index)
  else if index < doubleStart then some .singleIndirect
  else if index < tripleStart then some .doubleIndirect
  else if index < blocksPerFile then some .tripleIndirect
  else none

def Field.get (inode : Block) : Field → Nat
  | .direct i => Layout.direct inode i
  | .singleIndirect => Layout.singleIndirect inode
  | .doubleIndirect => Layout.doubleIndirect inode
  | .tripleIndirect => Layout.tripleIndirect inode

def Field.put (inode : Block) (p : Nat) : Field → Block
  | .direct i => putDirect inode i p
  | .singleIndirect => putSingleIndirect inode p
  | .doubleIndirect => putDoubleIndirect inode p
  | .tripleIndirect => putTripleIndirect inode p

/-- The level of the block the field points to. -/
def Field.digit : Field → UInt8
  | .direct _ => chr '0'
  | .singleIndirect => chr '1'
  | .doubleIndirect => chr '2'
  | .tripleIndirect => chr '3'

def Field.write (iocb : Kiocb) (iter : IovIter) (n : Nat) (current : Block) :
    Field → Program (Int × IovIter × Nat)
  | .direct _ => writeOneBlockByDirectBlock iocb iter n current
  | _ => writeOneBlockByIndirectBlock callDepth iocb iter n current

/-- With `IOCB_APPEND` the position is the end of the file. -/
def startPos (iocb : Kiocb) : Program Kiocb :=
  if iocb.append then do
    let target ← getInode iocb.inode
    pure { iocb with kiPos := target.iSize }
  else pure iocb

def writeOneBlock (iocb : Kiocb) (iter : IovIter) : Program (Int × Kiocb × IovIter) := do
  let target ← getInode iocb.inode
  let number := target.iIno % 2 ^ 32
  let stack ← auto
  let inode ← hodoRead number stack
  let iocb ← startPos iocb
  match ← kmalloc with
  | none => pure (eNoMem, iocb, iter)
  | some block =>
    match fieldOf (dataBlockIndex iocb) with
    | none => pure (eFBig, iocb, iter)
    | some field => do
      let block ← readOrMake (field.get inode) field.digit block
      let (written, iter, q) ← field.write iocb iter (field.get inode) block
      let _ ← hodoWrite (putFileLen (field.put inode q) (u64 (iocb.kiPos + written))) number
      let kiPos := iocb.kiPos + written
      setInode iocb.inode fun i => { i with iSize := kiPos }
      pure (written, { iocb with kiPos := kiPos }, iter)

/-- The loop of `hodo_sub_file_write_iter`. A turn that writes nothing would be
repeated for ever, so `len + 1` turns are all there can be. -/
def writeBlocks (len : Nat) : Nat → Nat → Kiocb → IovIter → Program (Int × Kiocb × IovIter)
  | 0, _, _, _ => .crash
  | turns + 1, total, iocb, iter =>
    if total < len then do
      let (written, iocb, iter) ← writeOneBlock iocb iter
      if written < 0 then pure (written, iocb, iter)
      else writeBlocks len turns (total + written.toNat) iocb iter
    else pure ((total : Int), iocb, iter)

def hodoSubFileWriteIter (iocb : Kiocb) (iter : IovIter) : Program (Int × Kiocb × IovIter) :=
  writeBlocks iter.count (iter.count + 1) 0 iocb iter

/-- Files of the zone groups are left to `zonefs_file_operations`. -/
def hodoFileWriteIter (zonefs : Kiocb → IovIter → Program (Int × Kiocb × IovIter))
    (iocb : Kiocb) (iter : IovIter) : Program (Int × Kiocb × IovIter) := do
  let target ← getInode iocb.inode
  let starting ← startingNumber
  if target.iIno < starting then zonefs iocb iter
  else hodoSubFileWriteIter iocb iter

/-- Pointers followed one after the other through a shared buffer. -/
def followPtrs : List Nat → Nat → Block → Program Nat
  | [], n, _ => pure n
  | i :: is, n, temp => do
    let temp ← hodoRead n temp
    followPtrs is (blockPtr temp i) temp

/-- The pointer an inode holds for a data block, and the indices below it. -/
def blockPath (inode : Block) (n : Nat) : Nat × List Nat :=
  if n < singleStart then (direct inode n, [])
  else if n < doubleStart then (singleIndirect inode, [n - singleStart])
  else if n < tripleStart then
    (doubleIndirect inode,
      [(n - doubleStart) / numOfBlockPoses, (n - doubleStart) % numOfBlockPoses])
  else
    (tripleIndirect inode,
      [(n - tripleStart) / (numOfBlockPoses * numOfBlockPoses),
        (n - tripleStart) % (numOfBlockPoses * numOfBlockPoses) / numOfBlockPoses,
        (n - tripleStart) % (numOfBlockPoses * numOfBlockPoses) % numOfBlockPoses])

/-- `direct[n]` with a negative `n` is outside the array. -/
def hodoReadNthBlock (inode : Block) (n : Int) (dst : Block) : Program Block :=
  if n < 0 then .crash
  else do
    let (p, path) := blockPath inode n.toNat
    let p ←
      if path = [] then pure p
      else do
        let temp ← kmallocUnchecked
        followPtrs path p temp
    hodoRead p dst

/-- The blocks between the first and the last, from `cur` on. -/
def readMiddle (inode : Block) :
    Nat → Int → Kiocb → IovSink → Block → Program (Kiocb × IovSink × Block)
  | 0, _, iocb, iter, temp => pure (iocb, iter, temp)
  | blocks + 1, cur, iocb, iter, temp => do
    let temp ← hodoReadNthBlock inode cur temp
    readMiddle inode blocks (cur + 1) { iocb with kiPos := iocb.kiPos + hodoDataSize }
      (iter.copyTo temp hodoDataStart hodoDataSize) temp

/-- What is read of a file once its inode is there. -/
def readFile (inode : Block) (iocb : Kiocb) (iter : IovSink) : Program (Int × Kiocb × IovSink) := do
  let rest := toInt32 (u64 (fileLen inode - u64 iocb.kiPos))
  let readLen := if iter.room < u64 rest then toInt32 iter.room else rest
  if fileLen inode ≤ u64 iocb.kiPos then pure (0, iocb, iter)
  else do
    let startBlock := toInt32 (u64 iocb.kiPos / hodoDataSize)
    let endBlock := toInt32 (u64 (iocb.kiPos + readLen) / hodoDataSize)
    let temp ← kmallocUnchecked
    let offset := u64 iocb.kiPos % hodoDataSize
    let bytesInStart := hodoDataSize - offset
    let bytesInEnd := u64 (iocb.kiPos + readLen) % hodoDataSize
    let temp ← hodoReadNthBlock inode startBlock temp
    if startBlock = endBlock then
      pure (readLen, { iocb with kiPos := iocb.kiPos + readLen },
        iter.copyTo temp (hodoDataStart + offset) (u64 readLen))
    else do
      let (iocb, iter, temp) ← readMiddle inode (endBlock - (startBlock + 1)).toNat (startBlock + 1)
        { iocb with kiPos := iocb.kiPos + bytesInStart }
        (iter.copyTo temp (hodoDataStart + offset) bytesInStart) temp
      if startBlock < endBlock then do
        let temp ← hodoReadNthBlock inode endBlock temp
        pure (readLen, { iocb with kiPos := iocb.kiPos + bytesInEnd },
          iter.copyTo temp hodoDataStart bytesInEnd)
      else pure (readLen, iocb, iter)

def hodoFileReadIter (zonefs : Kiocb → IovSink → Program (Int × Kiocb × IovSink))
    (iocb : Kiocb) (iter : IovSink) : Program (Int × Kiocb × IovSink) := do
  let target ← getInode iocb.inode
  let starting ← startingNumber
  let number := target.iIno % 2 ^ 32
  if number < starting then zonefs iocb iter
  else do
    let inode ← hodoRead number zeros
    readFile inode iocb iter

end FileBlocks
