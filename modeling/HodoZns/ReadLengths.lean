import HodoZns.UnsetPointers

/-!
# Lengths of reads

The rest of a file from the position on is cut to 32 bits with a sign before it is
compared with the size of the buffer. From 4 GiB on, a rest can look empty, and a
reader takes the file to end there. Other requests make progress if they end at all.
-/

namespace ReadLengths

open ByteBlock Layout BlockLog ZoneLog LogStore Programs Kernel CallRuns StoreMachine VolumeMachine
open FileBlocks BlockForest Operations FsRuns Ownership FileContents FileReads Erasures TreeCalls
open SystemRuns UnsetPointers

/-- `read_len` for a file with `rest` bytes behind the position and a buffer of `n`. -/
def readLength (rest n : Nat) : Nat :=
  if rest % 2 ^ 32 < 2 ^ 31 then min n (rest % 2 ^ 32) else n

/-- A negative rest is compared as a large one. -/
theorem signedLength_eq {rest n : Nat} (hn : n < 2 ^ 31) :
    signedLength rest n = readLength rest n := by
  rw [signedLength, readLength, toInt32_of_lt hn]
  by_cases hpos : rest % 2 ^ 32 < 2 ^ 31
  · have hcut : toInt32 rest = (rest % 2 ^ 32 : Nat) := by
      rw [toInt32, if_pos hpos]
      rfl
    rw [hcut, u64_of_lt hpos, if_pos hpos]
    split <;> omega
  · have hlarge : n < u64 (toInt32 rest) := by
      rw [toInt32, if_neg hpos, u64]
      omega
    rw [if_pos hlarge, if_neg hpos]

theorem readLength_le {rest n : Nat} (hn : n < 2 ^ 31) : readLength rest n ≤ min n rest := by
  have := Nat.mod_le rest (2 ^ 32)
  rw [readLength]
  split <;> omega

theorem readLength_pos_iff {rest n : Nat} (hn : 1 ≤ n) :
    1 ≤ readLength rest n ↔ rest % 2 ^ 32 ≠ 0 := by
  rw [readLength]
  split <;> omega

/-- The last block a request comes to. -/
theorem endBlock_eq {len pos n : Nat} (hlt : pos < len) (hlen : len ≤ blocksPerFile * hodoDataSize)
    (hn : n < 2 ^ 31) :
    endBlock len pos n = ((pos + readLength (len - pos) n) / hodoDataSize : Nat) := by
  have hle : readLength (len - pos) n ≤ min n (len - pos) := readLength_le hn
  simp only [blocksPerFile_eq, hodoDataSize_eq] at hlen ⊢
  rw [endBlock, signedLength_eq hn, ← Int.natCast_add, u64_ofNat (by omega), hodoDataSize_eq,
    toInt32_of_lt (by omega)]

/-- What a read of `n` bytes with `rest` bytes left may return. -/
def Progresses (rest n : Nat) (iocb : Kiocb) (r : Int × Kiocb × IovSink) : Prop :=
  1 ≤ r.1 ∧ r.1 ≤ min n rest ∧ r.2.1.kiPos = iocb.kiPos + r.1

theorem progresses_iff {len n pos : Nat} {iocb : Kiocb} {r : Int × Kiocb × IovSink} (hn : 1 ≤ n)
    (hlt : n < 2 ^ 31) (hpos : iocb.kiPos = pos) (answered : Answered len pos n r) :
    Progresses (len - pos) n iocb r ↔ (len - pos) % 2 ^ 32 ≠ 0 := by
  have hle : readLength (len - pos) n ≤ min n (len - pos) := readLength_le hlt
  obtain ⟨hret, hmoved⟩ := answered
  rw [signedLength_eq hlt] at hret hmoved
  rw [Progresses, hmoved (Int.natCast_nonneg _), hret, hpos, ← readLength_pos_iff hn]
  omega

/-- In every state reached from a first mount, and for every file no longer than the
largest one, a read below the end makes progress exactly when what is left is no
multiple of 4 GiB and all the blocks it comes to are there. -/
theorem read_progresses_iff (clock : Nat → Timespec) (uid gid groups : Nat) (now : Timespec)
    (zonefs : Kiocb → IovSink → Program (Int × Kiocb × IovSink)) (cs : List SysCall)
    (calls : EachCall (notedSysStep clock) (Admissible clock) cs
      (firstMounted uid gid groups now, true)) :
    ∃ as m intact, run (notedSysStep clock) cs (firstMounted uid gid groups now, true) =
      some (as, m, intact) ∧
      ∀ (iocb : Kiocb) (pos n : Nat), (m.inodes iocb.inode).iFop = some .file →
        storedLen (onDisk m.disk) (m.inodes iocb.inode).iIno ≤ blocksPerFile * hodoDataSize →
        iocb.kiPos = pos → pos < storedLen (onDisk m.disk) (m.inodes iocb.inode).iIno →
        1 ≤ n → n ≤ 0x7ffff000 →
        ((∃ r m',
          exec (machine volumeDisk (zeroFilled clock)) (hodoFileReadIter zonefs iocb ⟨n, []⟩)
              m = .done (r, m') ∧
            Progresses (storedLen (onDisk m.disk) (m.inodes iocb.inode).iIno - pos) n iocb r) ↔
          (storedLen (onDisk m.disk) (m.inodes iocb.inode).iIno - pos) % 2 ^ 32 ≠ 0 ∧
          ∀ o, pos / hodoDataSize ≤ o → o ≤ (pos + readLength
              (storedLen (onDisk m.disk) (m.inodes iocb.inode).iIno - pos) n) / hodoDataSize →
            storedBlock (onDisk m.disk) (m.inodes iocb.inode).iIno o ≠ none) := by
  obtain ⟨as, ⟨m, intact⟩, hrun, a, follows, inv⟩ := sys_run clock uid gid groups now calls
  refine ⟨as, m, intact, hrun, ?_⟩
  intro iocb pos n hfile hmax hpos hlt hn hle
  rw [follows.inodes] at hfile hmax hlt ⊢
  obtain ⟨b, file⟩ := fileInode_of_live inv hfile
  rw [storedLen_of_follows follows file.inode] at hmax hlt ⊢
  have hsmall : n < 2 ^ 31 := by omega
  have hend := endBlock_eq hlt hmax hsmall
  have hfirst : pos / hodoDataSize ≤ (pos + readLength (fileLen b - pos) n) / hodoDataSize :=
    Nat.div_le_div_right (Nat.le_add_right _ _)
  simp only [storedBlock_of_follows follows file.valid file.forest file.inode file.isInode]
  constructor
  · rintro ⟨r, m', ended, progress⟩
    obtain ⟨there, answered⟩ := there_of_read follows file rfl hpos hlt hmax hend ended
    rw [Nat.max_eq_right hfirst] at there
    exact ⟨(progresses_iff hn hsmall hpos answered).mp progress, there⟩
  · rintro ⟨hrest, there⟩
    rw [← Nat.max_eq_right hfirst] at there
    obtain ⟨r, m', hexec, answered⟩ := read_of_there follows file rfl hpos hlt hmax hend there
    exact ⟨r, m', hexec, (progresses_iff hn hsmall hpos answered).mpr hrest⟩

/-- A zonefs layer that delivers nothing. -/
def noZonefsRead (iocb : Kiocb) (iter : IovSink) : Program (Int × Kiocb × IovSink) :=
  pure (0, iocb, iter)

/-- What a read needs of the state it is made in. -/
def Readable (m : Machine Volume) (ref len : Nat) : Prop :=
  (m.inodes ref).iFop = some .file ∧ storedLen (onDisk m.disk) (m.inodes ref).iIno = len

instance (m : Machine Volume) (ref len : Nat) : Decidable (Readable m ref len) :=
  inferInstanceAs (Decidable ((m.inodes ref).iFop = some .file ∧
    storedLen (onDisk m.disk) (m.inodes ref).iIno = len))

/-- A new file with one byte at its start, and one at `pos`. -/
def twoWritesRun (pos : Nat) : List SysCall :=
  [.call (.create ⟨0, 0⟩ rootRef [97] 0o644), .call (.write ⟨1, false, 0⟩ ⟨[7], 1⟩),
    .call (.write ⟨1, false, pos⟩ ⟨[7], 1⟩)]

/-- The first of two bytes is read. -/
theorem read_progresses_two_bytes : ∃ as m intact,
    run (notedSysStep fun _ => ⟨0, 0⟩) (twoWritesRun 1) (firstMounted 0 0 0 ⟨0, 0⟩, true) =
      some (as, m, intact) ∧
    ((∃ r m', exec (machine volumeDisk (zeroFilled fun _ => ⟨0, 0⟩))
          (hodoFileReadIter noZonefsRead ⟨1, false, 0⟩ ⟨1, []⟩) m = .done (r, m') ∧
        Progresses (storedLen (onDisk m.disk) (m.inodes 1).iIno - 0) 1 ⟨1, false, 0⟩ r) ↔
      (storedLen (onDisk m.disk) (m.inodes 1).iIno - 0) % 2 ^ 32 ≠ 0 ∧
        ∀ o, 0 / hodoDataSize ≤ o → o ≤ (0 + readLength
            (storedLen (onDisk m.disk) (m.inodes 1).iIno - 0) 1) / hodoDataSize →
          storedBlock (onDisk m.disk) (m.inodes 1).iIno o ≠ none) := by
  obtain ⟨as, m, intact, hrun, hread⟩ := read_progresses_iff (fun _ => ⟨0, 0⟩) 0 0 0 ⟨0, 0⟩
    noZonefsRead (twoWritesRun 1) (by decide +kernel)
  have hcall : ∃ r, run (notedSysStep fun _ => ⟨0, 0⟩) (twoWritesRun 1)
      (firstMounted 0 0 0 ⟨0, 0⟩, true) = some r ∧ Readable r.2.1 1 2 := by
    decide +kernel
  obtain ⟨r, hrun', hfile, hlen⟩ := hcall
  obtain rfl := Option.some.inj (hrun'.symm.trans hrun)
  have hmax : 2 ≤ blocksPerFile * hodoDataSize := by simp
  exact ⟨as, m, intact, hrun, hread ⟨1, false, 0⟩ 0 1 hfile (Nat.le_trans (Nat.le_of_eq hlen) hmax)
    rfl (Nat.lt_of_lt_of_eq Nat.zero_lt_two hlen.symm) (Nat.le_refl 1) (by decide)⟩

/-- A file of 4 GiB seems to end at its start. -/
theorem read_ends_at_start : ∃ as m intact r m',
    EachCall (notedSysStep fun _ => ⟨0, 0⟩) (Admissible fun _ => ⟨0, 0⟩) (twoWritesRun (2 ^ 32 - 1))
      (firstMounted 0 0 0 ⟨0, 0⟩, true) ∧
    run (notedSysStep fun _ => ⟨0, 0⟩) (twoWritesRun (2 ^ 32 - 1))
      (firstMounted 0 0 0 ⟨0, 0⟩, true) = some (as, m, intact) ∧
    Readable m 1 (2 ^ 32) ∧
    exec (machine volumeDisk (zeroFilled fun _ => ⟨0, 0⟩))
      (hodoFileReadIter noZonefsRead ⟨1, false, 0⟩ ⟨1, []⟩) m = .done (r, m') ∧
    ¬ Progresses (2 ^ 32 - 0) 1 ⟨1, false, 0⟩ r := by
  have hcall : ∃ r, run (notedSysStep fun _ => ⟨0, 0⟩) (twoWritesRun (2 ^ 32 - 1))
      (firstMounted 0 0 0 ⟨0, 0⟩, true) = some r ∧ Readable r.2.1 1 (2 ^ 32) ∧
      ∃ r', exec (machine volumeDisk (zeroFilled fun _ => ⟨0, 0⟩))
        (hodoFileReadIter noZonefsRead ⟨1, false, 0⟩ ⟨1, []⟩) r.2.1 = .done r' ∧ r'.1.1 = 0 := by
    decide +kernel
  obtain ⟨⟨as, m, intact⟩, hrun, hreadable, ⟨r, m'⟩, hexec, hzero⟩ := hcall
  refine ⟨as, m, intact, r, m', by decide +kernel, hrun, hreadable, hexec, fun hprogress => ?_⟩
  have hone := hprogress.1
  simp only at hzero
  omega

end ReadLengths
