import HodoZns.FileBlocks

/-!
# Directories

A directory's data blocks hold 40-byte directory entries. Five functions walk
over them: the lookup, the listing, the addition, the removal and the test for
emptiness.
-/

namespace Directories

open ByteBlock Layout BlockLog ZoneLog Programs Kernel FileBlocks

/-- A `hodo_dirent`: name at 0, `name_len` at 16, `i_ino` at 24, `file_type` at 32. -/
abbrev Dirent := Bytes 40

/-- The name argument of the directory functions, which compare 16 bytes. -/
abbrev Name := Bytes 16

def Dirent.nameLen (d : Dirent) : Nat := (byteAt d 16).toNat
def Dirent.iIno (d : Dirent) : Nat := getLE d 24 8
def Dirent.fileType (d : Dirent) : UInt8 := byteAt d 32

/-- `memcmp(dirent.name, target_name, HODO_MAX_NAME_LEN) == 0`. -/
def Dirent.hasName (d : Dirent) (name : Name) : Bool :=
  (List.range hodoMaxNameLen).all fun i => byteAt d i == byteAt name i

def hodoTypeReg : UInt8 := 0
def hodoTypeDir : UInt8 := 1

def isDirentValid (d : Dirent) : Bool :=
  byteAt d 0 != 0 && d.nameLen != 0 && d.iIno != 0 &&
    (d.fileType == hodoTypeDir || d.fileType == hodoTypeReg)

def direntAt (b : Block) (j : Nat) : Dirent := ofBytes fun i => byteAt b (j + i)

def putDirent (b : Block) (j : Nat) (d : Dirent) : Block := copyIn b j hodoDirentSize (byteAt d)

/-- What `add_dirent` stores into a `hodo_dirent` variable for a new inode. -/
def fillDirent (d : Dirent) (sub : Block) : Dirent :=
  let d := copyIn d 0 (nameLen sub) (nameByte sub)
  let d := putLE d 16 1 (nameLen sub)
  let d := putLE d 24 8 (iIno sub)
  putLE d 32 1 (fileType sub).toNat

/-- The values of a loop variable from `start` in steps below `stop`. -/
def offsets (start stop step : Nat) : List Nat :=
  (List.range ((stop - start + (step - 1)) / step)).map fun k => start + k * step

def direntOffsets : List Nat :=
  offsets hodoDataStart (hodoDatablockSize - hodoDirentSize) hodoDirentSize

/-- The pointers of an index block that the walkers see. -/
def ptrOffsets : List Nat := offsets hodoDataStart (hodoDatablockSize - blockPtrSz) blockPtrSz

variable {σ β : Type}

/-- The blocks of a list of pointers, read one after the other into a shared
buffer. A visit goes on or ends the walk; an unset pointer is passed over. -/
def walkBlocks (visit : Nat → Nat → Block → σ → Program (σ ⊕ β)) :
    List (Nat × Nat) → Block → σ → Program ((Block × σ) ⊕ β)
  | [], buf, s => pure (.inl (buf, s))
  | (i, p) :: rest, buf, s =>
    if p = 0 then walkBlocks visit rest buf s
    else do
      let buf ← hodoRead p buf
      match ← visit i p buf s with
      | .inl s => walkBlocks visit rest buf s
      | .inr r => pure (.inr r)

def directPtrs (inode : Block) : List (Nat × Nat) :=
  (List.range 10).map fun i => (i, direct inode i)

def indirectPtrs (inode : Block) : List (Nat × Nat) :=
  [(0, singleIndirect inode), (1, doubleIndirect inode), (2, tripleIndirect inode)]

def indexPtrs (b : Block) : List (Nat × Nat) := ptrOffsets.map fun j => (j, getLE b j blockPtrSz)

/-- The functions ending in `_from_indirect_block` that change nothing. Without
memory they give up with `failed`. -/
def walkIndexBlock (failed : σ → σ ⊕ β) (fromDirect : Block → σ → Program (σ ⊕ β)) :
    Nat → Block → σ → Program (σ ⊕ β)
  | 0, _, _ => .crash
  | depth + 1, b, s => do
    match ← kmalloc with
    | none => pure (failed s)
    | some temp =>
      let walked ← walkBlocks
        (fun _ _ temp s =>
          if isDirectblock temp then fromDirect temp s
          else walkIndexBlock failed fromDirect depth temp s)
        (indexPtrs b) temp s
      match walked with
      | .inl (_, s) => pure (.inl s)
      | .inr r => pure (.inr r)

/-- The whole walk: ten direct blocks, then three index blocks. -/
def walkDirectory (failed : σ → σ ⊕ β) (fromDirect : Block → σ → Program (σ ⊕ β))
    (inode buf : Block) (s : σ) : Program ((Block × σ) ⊕ β) := do
  match ← walkBlocks (fun _ _ b s => fromDirect b s) (directPtrs inode) buf s with
  | .inr r => pure (.inr r)
  | .inl (buf, s) =>
    walkBlocks (fun _ _ b s => walkIndexBlock failed fromDirect callDepth b s)
      (indirectPtrs inode) buf s

def nothingFound : Nat := 0

/-- The offset of the first entry with the name. -/
def findName (b : Block) (name : Name) : Option Nat :=
  direntOffsets.find? fun j => (direntAt b j).hasName name

def findInodeNumberFromDirectBlock (b : Block) (name : Name) : Nat :=
  match findName b name with
  | some j => (direntAt b j).iIno
  | none => nothingFound

def findInodeNumber (inode : Block) (name : Name) : Program Nat := do
  match ← kmalloc with
  | none => pure nothingFound
  | some buf =>
    let found ← walkDirectory .inl
      (fun b _ =>
        let n := findInodeNumberFromDirectBlock b name
        pure (if n ≠ nothingFound then .inr n else .inl ()))
      inode buf ()
    match found with
    | .inr n => pure n
    | .inl _ => pure nothingFound

structure Emitted where
  name : List UInt8
  iIno : Nat
  isDir : Bool
  deriving DecidableEq

/-- The buffer takes `room` more entries. -/
structure DirContext where
  pos : Nat
  room : Nat
  emitted : List Emitted

def Dirent.emitted (d : Dirent) : Emitted where
  name := (List.range d.nameLen).map (byteAt d)
  iIno := d.iIno
  isDir := d.fileType == hodoTypeDir

/-- Its result, whether the buffer took the entry, is not looked at. -/
def hodoDirEmit (ctx : DirContext) (d : Dirent) : DirContext :=
  match ctx.room with
  | 0 => ctx
  | room + 1 => { ctx with room := room, emitted := ctx.emitted ++ [d.emitted] }

/-- One turn of the loop over the entries of a block; the second component is `dirent_count`. -/
def readDirent (d : Dirent) (s : DirContext × Nat) : DirContext × Nat :=
  if isDirentValid d then
    if s.2 = s.1.pos then
      ({ hodoDirEmit s.1 d with pos := s.1.pos + 1 }, s.2 + 1)
    else (s.1, s.2 + 1)
  else s

def readAllDirentsFromDirectBlock (b : Block) (s : DirContext × Nat) : DirContext × Nat :=
  direntOffsets.foldl (fun s j => readDirent (direntAt b j) s) s

/-- `END_READ` is all it returns. An index block for which there is no memory
ends the walk: the 0 returned there is `END_READ`. -/
def readAllDirents (inode : Block) (ctx : DirContext) (direntCount : Nat) :
    Program (DirContext × Nat) := do
  match ← kmalloc with
  | none => pure (ctx, direntCount)
  | some buf =>
    match ← walkDirectory .inr (fun b s => pure (.inl (readAllDirentsFromDirectBlock b s))) inode
      buf (ctx, direntCount) with
    | .inl (_, s) => pure s
    | .inr s => pure s

/-- The first entry that is not in use. -/
def freeOffset (b : Block) : Option Nat :=
    direntOffsets.find? fun j => !isDirentValid (direntAt b j)

/-- The blocks from `direct[i]` on, with `blocks` of them left. -/
def addDirentFrom (dir : Nat) (sub : Block) (inode : Block) :
    Nat → Nat → Block → Program Int
  | 0, _, _ => pure (-1)
  | blocks + 1, i, temp =>
    let inode' := putFileLen inode (u64 (fileLen inode + 1))
    if direct inode i ≠ 0 then do
      let temp ← hodoRead (direct inode i) temp
      match freeOffset temp with
      | some j => do
        let _ ← hodoWrite (putDirent temp j (fillDirent (direntAt temp j) sub)) (direct inode i)
        let _ ← hodoWrite inode' dir
        pure 0
      | none => addDirentFrom dir sub inode blocks (i + 1) temp
    else do
      let stack ← auto
      let temp := putMagic zeros (chr 'D') (chr 'A') (chr 'T') (chr '0')
      let temp := putDirent temp hodoDataStart (fillDirent (direntAt stack 0) sub)
      let (_, n) ← hodoWrite temp 0
      let _ ← hodoWrite (putDirect inode' i n) dir
      pure 0

def addDirent (dir : Nat) (sub : Block) : Program Int := do
  let number := dir % 2 ^ 32
  let inode ← hodoRead number zeros
  let temp ← kmallocUnchecked
  addDirentFrom number sub inode 10 0 temp

/-- The bytes behind the removed ones move up; the rest of the new block is
whatever was allocated. -/
def compactDatablock (source : Block) (start size n : Nat) : Program (Int × Nat) := do
  let temp ← kmallocUnchecked
  let temp := copyIn temp 0 start (byteAt source)
  let temp := copyIn temp start (hodoDatablockSize - (start + size)) fun i =>
    byteAt source (start + size + i)
  hodoWrite temp n

/-- The second component is the number the block was written under. -/
def removeDirentFromDirectBlock (b : Block) (name : Name) (n : Nat) : Program (Option Nat) :=
  match findName b name with
  | some j => do
    let (_, n) ← compactDatablock b j hodoDirentSize n
    pure (some n)
  | none => pure none

def removeDirentFromIndirectBlock (name : Name) : Nat → Block → Nat → Program (Option Nat)
  | 0, _, _ => .crash
  | depth + 1, b, n => do
    match ← kmalloc with
    | none => pure none
    | some temp =>
      let removed ← walkBlocks
        (fun j p temp (_ : Unit) => do
          let removed ←
            if isDirectblock temp then removeDirentFromDirectBlock temp name p
            else removeDirentFromIndirectBlock name depth temp p
          match removed with
          | none => pure (.inl ())
          | some q =>
            if q = 0 then pure (.inl ())
            else do
              let (_, n) ← hodoWrite (putLE b j blockPtrSz q) n
              pure (.inr n))
        (indexPtrs b) temp ()
      match removed with
      | .inl _ => pure none
      | .inr n => pure (some n)

/-- The inode with the current times and one entry less. -/
def touched (inode : Block) : Program Block := do
  let a ← currentTime
  let m ← currentTime
  let c ← currentTime
  let inode := putTimes inode a m c
  pure (putFileLen inode (u64 (fileLen inode - 1)))

/-- With the inode of the directory already read; `n` is the number it is
written back under. An index block's new number does not reach the inode. -/
def removeDirent (inode : Block) (name : Name) (n : Nat) : Program (Int × Nat) := do
  match ← kmalloc with
  | none => pure (nothingFound, n)
  | some buf =>
    let removed ← walkBlocks
      (fun i p b (_ : Unit) => do
        match ← removeDirentFromDirectBlock b name p with
        | none => pure (.inl ())
        | some q => do
          let inode ← touched (putDirect inode i q)
          let (_, n) ← hodoWrite inode n
          let (_, n) ← hodoWrite inode n
          pure (.inr n))
      (directPtrs inode) buf ()
    match removed with
    | .inr n => pure (1, n)
    | .inl (buf, _) => do
      let removed ← walkBlocks
        (fun _ p b (_ : Unit) => do
          match ← removeDirentFromIndirectBlock name callDepth b p with
          | none => pure (.inl ())
          | some _ => do
            let inode ← touched inode
            let (_, n) ← hodoWrite inode n
            pure (.inr n))
        (indirectPtrs inode) buf ()
      match removed with
      | .inr n => pure (1, n)
      | .inl _ => pure (nothingFound, n)

def checkDirectoryEmptyFromDirectBlock (b : Block) : Bool :=
  (List.range hodoDataSize).all fun i => byteAt b (hodoDataStart + i) == 0

/-- With the inode of the directory already read. -/
def checkDirectoryEmpty (inode : Block) : Program Bool := do
  match ← kmalloc with
  | none => pure true
  | some buf =>
    match ← walkDirectory (β := Unit) .inl
      (fun b _ => pure (if checkDirectoryEmptyFromDirectBlock b then .inl () else .inr ()))
      inode buf () with
    | .inl _ => pure true
    | .inr _ => pure false

end Directories
