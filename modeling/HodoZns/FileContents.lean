import HodoZns.Ownership

/-!
# Contents of a file

The stored length of a file and its bytes, found through the pointers of the
inode. They are read off the blocks, whether a plain map or the log holds them.
-/

namespace FileContents

open ByteBlock Layout BlockLog ZoneLog LogStore Programs Kernel StoreMachine FileBlocks BlockForest
open BlockFields TreeWrites FileWrites

def storedLen (c : Nat → Option Block) (n : Nat) : Nat :=
  match c n with
  | some b => fileLen b
  | none => 0

def storedBlock (c : Nat → Option Block) (n index : Nat) : Option Block :=
  match c n with
  | some b => dataAt c b index
  | none => none

def storedByte (c : Nat → Option Block) (n off : Nat) : UInt8 :=
  dataByte (storedBlock c n (off / hodoDataSize)) (off % hodoDataSize)

/-- Every byte below the length of the file is in a block. -/
def NoHoles (c : Nat → Option Block) (n : Nat) : Prop :=
  ∀ off, off < storedLen c n → storedBlock c n (off / hodoDataSize) ≠ none

instance (c : Nat → Option Block) (n : Nat) : Decidable (NoHoles c n) :=
  inferInstanceAs (Decidable (∀ off, off < storedLen c n →
    storedBlock c n (off / hodoDataSize) ≠ none))

section Contents

variable {c : Nat → Option Block} {n : Nat} {b : Block}

theorem storedLen_eq (hn : c n = some b) : storedLen c n = fileLen b := by
  rw [storedLen, hn]

theorem storedBlock_eq (hn : c n = some b) (index : Nat) :
    storedBlock c n index = dataAt c b index := by
  rw [storedBlock, hn]

theorem fieldOf_eq_none {index : Nat} : fieldOf index = none ↔ blocksPerFile ≤ index := by
  simp only [fieldOf, singleStart_eq, doubleStart_eq, tripleStart_eq, blocksPerFile_eq]
  split
  · simp only [reduceCtorEq, false_iff]
    omega
  · split
    · simp only [reduceCtorEq, false_iff]
      omega
    · split
      · simp only [reduceCtorEq, false_iff]
        omega
      · split
        · simp only [reduceCtorEq, false_iff]
          omega
        · simp only [true_iff]
          omega

/-- A file without holes is no longer than a file can be. -/
theorem NoHoles.fileLen_le (h : NoHoles c n) (h0 : c 0 = none) (hn : c n = some b) :
    fileLen b ≤ blocksPerFile * hodoDataSize := by
  by_contra hgt
  have hblock := h (blocksPerFile * hodoDataSize) (by rw [storedLen_eq hn]; omega)
  rw [storedBlock_eq hn] at hblock
  apply hblock
  apply dataAt_none _ h0
  rw [fieldOf_eq_none]
  simp

end Contents

variable {D : Disk Store} [LikeStore D] {clock : Nat → Timespec} {m : Machine Store}

/-- A file of the file system itself is not left to `zonefs_file_operations`. -/
theorem wp_hodoFileWriteIter (zonefs : Kiocb → IovIter → Program (Int × Kiocb × IovIter))
    {iocb : Kiocb} {iter : IovIter} (own : m.disk.base ≤ (m.inodes iocb.inode).iIno)
    (Q : Int × Kiocb × IovIter → Machine Store → Prop) :
    wp (plain D clock) (hodoFileWriteIter zonefs iocb iter) Q m ↔
      wp (plain D clock) (hodoSubFileWriteIter iocb iter) Q m := by
  simp only [hodoFileWriteIter, wp_bind, wp_getInode, wp_startingNumber, wp_ite]
  rw [if_neg (Nat.not_lt.mpr own)]

/-- A zonefs layer that takes nothing. -/
def noZonefs (iocb : Kiocb) (iter : IovIter) : Program (Int × Kiocb × IovIter) :=
  pure (0, iocb, iter)

/-- A vector all of whose bytes can be read. -/
def wholeIter (bytes : List UInt8) : IovIter := ⟨bytes, bytes.length⟩

/-- The bytes of the request up to the end of the block at the position. -/
theorem pieceLen_bound {iocb : Kiocb} (iter : IovIter) {p : Nat} (hp : iocb.kiPos = p)
    (hlt : p < 2 ^ 64) :
    dataBlockIndex iocb = p / hodoDataSize ∧
      p + pieceLen iocb iter ≤ (p / hodoDataSize + 1) * hodoDataSize := by
  have hmod : u64 iocb.kiPos = p := by rw [hp, u64_ofNat hlt]
  simp only [dataBlockIndex, pieceLen, hmod, hodoDataSize_eq, true_and]
  omega

end FileContents
