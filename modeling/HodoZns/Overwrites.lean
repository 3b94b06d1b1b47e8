import HodoZns.UnsetPointers

/-!
# Overwriting a file

A write sets the length of the file to the position it came to. So it keeps a
longer file only when it goes up to the old end, or past it.
-/

namespace Overwrites

open ByteBlock Layout BlockLog ZoneLog LogCalls CallRuns LogStore Programs Kernel StoreMachine
  FileBlocks
open BlockForest TreeWrites FileWrites Operations VolumeMachine FsRuns Ownership FileContents
open Erasures TreeCalls SystemRuns UnsetPointers

variable {D : Disk Store} [LikeStore D] {clock : Nat → Timespec} {m : Machine Store}

/-- The length after a write of `len` bytes at `pos`; a file ends after `blocksPerFile` blocks. -/
def endOfWrite (pos len : Nat) : Nat := min (pos + len) (blocksPerFile * hodoDataSize)

theorem wp_overwrite {iocb : Kiocb} {bytes : List UInt8} {n pos : Nat} {b : Block}
    (hino : (m.inodes iocb.inode).iIno % 2 ^ 32 = n) (valid : Valid m.disk)
    (forest : IsForest m.disk.content) (hn : m.disk.content n = some b) (hb : isDat b = false)
    (positioned : iocb.append = false) (hpos : iocb.kiPos = pos)
    (below : pos < blocksPerFile * hodoDataSize) (some_bytes : bytes ≠ []) :
    wp (plain D clock) (hodoSubFileWriteIter iocb (wholeIter bytes))
      (fun _ m' => storedLen m'.disk.content n = endOfWrite pos bytes.length) m := by
  have hlen : 0 < bytes.length := List.length_pos_iff.mpr some_bytes
  apply wp_writeBlocks (fun total iocb' iter' m' => total + iter'.count = bytes.length ∧
      iter'.count ≤ iter'.readable ∧ iocb'.inode = iocb.inode ∧ iocb'.append = false ∧
      iocb'.kiPos = (pos + total : Nat) ∧ pos + total ≤ blocksPerFile * hodoDataSize ∧
      OnlySize m m' iocb.inode ∧ ∃ b', FileWritten m.disk m'.disk n b b' ∧
        (0 < total → fileLen b' = pos + total))
  · rintro total _ _ _ ⟨hcount, _⟩
    simp only [wholeIter, IovIter.count]
    omega
  · rintro total iocb' iter' m' ⟨hcount, hread, hinode, hflag, hki, hle, hsize, b', hwritten, hlen'⟩
      hlt
    have hino' : (m'.inodes iocb'.inode).iIno % 2 ^ 32 = n := by
      rw [hinode, hsize.iIno]
      exact hino
    have hposd : FileWrites.positioned m' iocb' = iocb' := by
      rw [FileWrites.positioned, hflag]
      rfl
    simp only [wholeIter, IovIter.count] at hlt
    have hsmall : pos + total < 2 ^ 64 := by
      simp only [blocksPerFile_eq, hodoDataSize_eq] at hle
      omega
    obtain ⟨hindex, hpiece⟩ := pieceLen_bound iter' hki hsmall
    apply wp_mono _ (wp_writeOneBlock hino' (by omega) hwritten.valid hwritten.forest
      hwritten.inode hwritten.isInode)
    rw [hposd]
    intro r m'' hr
    have hpl := pieceLen_le iocb' iter'
    cases hr with
    | tooBig hnone hdisk _ =>
      rw [fieldOf_eq_none, hindex] at hnone
      rw [if_pos (show eFBig < 0 by decide), hdisk, storedLen_eq hwritten.inode, endOfWrite]
      have hend : pos + total = blocksPerFile * hodoDataSize := by
        have := Nat.mul_le_mul_right hodoDataSize hnone
        have := Nat.div_mul_le_self (pos + total) hodoDataSize
        omega
      rw [hlen' (by omega)]
      omega
    | fault hshort =>
      simp only [IovIter.count] at hread
      omega
    | @written _ b'' f hf _ hpw hlen'' hres =>
      rw [if_neg (by simp)]
      have hpos' := pieceLen_pos iocb' (show 0 < iter'.count by omega)
      have hfit : pos + total + pieceLen iocb' iter' ≤ blocksPerFile * hodoDataSize := by
        have hidx : (pos + total) / hodoDataSize < blocksPerFile := by
          by_contra hge
          rw [hindex, fieldOf_eq_none.mpr (Nat.not_lt.mp hge)] at hf
          cases hf
        exact Nat.le_trans hpiece (Nat.mul_le_mul_right _ hidx)
      rw [hinode] at hres
      refine ⟨by simpa using hpos', ?_, ?_, hinode, hflag, ?_, ?_, hsize.trans ⟨_, hres⟩, b'',
        hwritten.trans hpw.toFileWritten, fun _ => ?_⟩
      · simp only [IovIter.advance, IovIter.count, List.length_drop, Int.toNat_natCast] at hcount ⊢
        omega
      · simp only [IovIter.advance, IovIter.count, List.length_drop] at hread ⊢
        omega
      · simp only [hki, Int.toNat_natCast]
        omega
      · simp only [Int.toNat_natCast]
        omega
      · rw [hlen'', hki]
        simp only [Int.toNat_natCast]
        simp only [blocksPerFile_eq, hodoDataSize_eq] at hfit
        rw [← Int.natCast_add, u64_ofNat (by omega)]
        omega
  · rintro _ _ m' ⟨_, _, _, _, _, hle, _, b', hwritten, hlen'⟩
    simp only [wholeIter, IovIter.count] at hle hlen'
    rw [storedLen_eq hwritten.inode, hlen' hlen, endOfWrite]
    omega
  · omega
  · simp only [wholeIter, IovIter.count]
    exact ⟨by omega, Nat.le_refl _, trivial, positioned, by rw [hpos]; rfl, by omega,
      OnlySize.of_same (SameInodes.refl m) _, b, FileWritten.refl valid forest hn hb,
      fun h => by omega⟩

/-- A write of `len` bytes at `pos` makes the file longer where it goes past the end, and keeps
the bytes behind it. -/
def KeepsRest (v v' : Volume) (n pos len : Nat) : Prop :=
  storedLen (onDisk v') n = max (storedLen (onDisk v) n) (pos + len) ∧
  ∀ off, pos + len ≤ off → off < storedLen (onDisk v) n →
    storedByte (onDisk v') n off = storedByte (onDisk v) n off

theorem keepsRest_iff {v v' : Volume} {n pos len : Nat}
    (hlen : storedLen (onDisk v') n = endOfWrite pos len) :
    KeepsRest v v' n pos len ↔
      storedLen (onDisk v) n ≤ pos + len ∧ pos + len ≤ blocksPerFile * hodoDataSize := by
  rw [KeepsRest, hlen, endOfWrite]
  constructor
  · rintro ⟨h, _⟩
    omega
  · rintro ⟨hold, hfit⟩
    exact ⟨by omega, fun off hlo hhi => by omega⟩

/-- In every state reached from a first mount, a write below the end of a file without
holes keeps the rest of it exactly when it reaches the old end and stays below the
largest size of a file. -/
theorem overwrite_keepsRest_iff (clock : Nat → Timespec) (uid gid groups : Nat) (now : Timespec)
    (zonefs : Kiocb → IovIter → Program (Int × Kiocb × IovIter)) (cs : List SysCall)
    (calls : EachCall (notedSysStep clock) (Admissible clock) cs
      (firstMounted uid gid groups now, true)) :
    ∃ as m intact, run (notedSysStep clock) cs (firstMounted uid gid groups now, true) =
      some (as, m, intact) ∧
      ∀ (iocb : Kiocb) (bytes : List UInt8) (pos : Nat), (m.inodes iocb.inode).iFop = some .file →
        iocb.append = false → iocb.kiPos = pos → bytes ≠ [] →
        NoHoles (onDisk m.disk) (m.inodes iocb.inode).iIno →
        pos < storedLen (onDisk m.disk) (m.inodes iocb.inode).iIno →
        Guarded (machine volumeDisk (zeroFilled clock)) Fits
          (hodoFileWriteIter zonefs iocb (wholeIter bytes)) m →
        ∃ r m', exec (machine volumeDisk (zeroFilled clock))
            (hodoFileWriteIter zonefs iocb (wholeIter bytes)) m = .done (r, m') ∧
          (KeepsRest m.disk m'.disk (m.inodes iocb.inode).iIno pos bytes.length ↔
            storedLen (onDisk m.disk) (m.inodes iocb.inode).iIno ≤ pos + bytes.length ∧
              pos + bytes.length ≤ blocksPerFile * hodoDataSize) := by
  obtain ⟨as, ⟨m, intact⟩, hrun, a, follows, inv⟩ := sys_run clock uid gid groups now calls
  refine ⟨as, m, intact, hrun, ?_⟩
  intro iocb bytes pos hfile hflag hpos hbytes noHoles hlt fits
  rw [follows.inodes] at hfile noHoles hlt ⊢
  obtain ⟨b, file⟩ := fileInode_of_live inv hfile
  have hstored := onDisk_of_follows follows file.inode
  have below : pos < blocksPerFile * hodoDataSize := by
    rw [storedLen_eq hstored] at hlt
    exact Nat.lt_of_lt_of_le hlt (noHoles.fileLen_le (onDisk_zero follows) hstored)
  have own : a.disk.base ≤ (a.inodes iocb.inode).iIno := (file.valid.used file.inode).1
  obtain ⟨r, m', a', hexec, follows', hlen, ⟨b', written⟩, _⟩ := program_follows follows fits
    ((wp_hodoFileWriteIter zonefs own _).mpr (wp_and (wp_overwrite (inv.stored (Or.inr hfile)).1
      file.valid file.forest file.inode file.isInode hflag hpos below hbytes)
      (wp_hodoSubFileWriteIter (inv.stored (Or.inr hfile)).1 file.valid file.forest file.inode
        file.isInode)))
  refine ⟨r, m', hexec, keepsRest_iff ?_⟩
  rw [storedLen_of_follows follows' written.inode, ← storedLen_eq written.inode]
  exact hlen

/-- A file of two bytes. -/
def twoByteRun : List SysCall :=
  [.call (.create ⟨0, 0⟩ rootRef [97] 0o644), .call (.write ⟨1, false, 0⟩ ⟨[1, 2], 2⟩)]

/-- What the overwriting call needs of the state it is made in. -/
def Overwritable (m : Machine Volume) (iocb : Kiocb) (bytes : List UInt8) (pos : Nat) : Prop :=
  (m.inodes iocb.inode).iFop = some .file ∧ iocb.append = false ∧ iocb.kiPos = pos ∧
    bytes ≠ [] ∧ NoHoles (onDisk m.disk) (m.inodes iocb.inode).iIno ∧
    pos < storedLen (onDisk m.disk) (m.inodes iocb.inode).iIno ∧
    Guarded (machine volumeDisk (zeroFilled fun _ => ⟨0, 0⟩)) Fits
      (hodoFileWriteIter noZonefs iocb (wholeIter bytes)) m

instance (m : Machine Volume) (iocb : Kiocb) (bytes : List UInt8) (pos : Nat) :
    Decidable (Overwritable m iocb bytes pos) := by
  unfold Overwritable
  infer_instance

/-- Two bytes more at the end of the file keep what was there. -/
theorem overwrite_two_bytes : ∃ as m intact r m',
    run (notedSysStep fun _ => ⟨0, 0⟩) twoByteRun (firstMounted 0 0 0 ⟨0, 0⟩, true) =
      some (as, m, intact) ∧
    exec (machine volumeDisk (zeroFilled fun _ => ⟨0, 0⟩))
      (hodoFileWriteIter noZonefs ⟨1, false, 1⟩ (wholeIter [3, 4])) m = .done (r, m') ∧
    (KeepsRest m.disk m'.disk (m.inodes 1).iIno 1 2 ↔
      storedLen (onDisk m.disk) (m.inodes 1).iIno ≤ 1 + 2 ∧
      1 + 2 ≤ blocksPerFile * hodoDataSize) := by
  obtain ⟨as, m, intact, hrun, hwrite⟩ := overwrite_keepsRest_iff (fun _ => ⟨0, 0⟩) 0 0 0 ⟨0, 0⟩
    noZonefs twoByteRun (by decide +kernel)
  have hcall : ∃ r, run (notedSysStep fun _ => ⟨0, 0⟩) twoByteRun
      (firstMounted 0 0 0 ⟨0, 0⟩, true) = some r ∧
      Overwritable r.2.1 ⟨1, false, 1⟩ [3, 4] 1 := by
    decide +kernel
  obtain ⟨r, hrun', hfile, hflag, hpos, hbytes, noHoles, hlt, fits⟩ := hcall
  obtain rfl := Option.some.inj (hrun'.symm.trans hrun)
  obtain ⟨r, m', hexec, hiff⟩ := hwrite _ _ _ hfile hflag hpos hbytes noHoles hlt fits
  exact ⟨as, m, intact, r, m', hrun, hexec, hiff⟩

/-- One byte written at the start of the file leaves a file of one byte. -/
theorem overwrite_truncates : ∃ as m intact r m',
    EachCall (notedSysStep fun _ => ⟨0, 0⟩) (Admissible fun _ => ⟨0, 0⟩) twoByteRun
      (firstMounted 0 0 0 ⟨0, 0⟩, true) ∧
    run (notedSysStep fun _ => ⟨0, 0⟩) twoByteRun (firstMounted 0 0 0 ⟨0, 0⟩, true) =
      some (as, m, intact) ∧
    Overwritable m ⟨1, false, 0⟩ [9] 0 ∧
    exec (machine volumeDisk (zeroFilled fun _ => ⟨0, 0⟩))
      (hodoFileWriteIter noZonefs ⟨1, false, 0⟩ (wholeIter [9])) m = .done (r, m') ∧
    ¬ KeepsRest m.disk m'.disk (m.inodes 1).iIno 0 1 := by
  have hcall : ∃ r, run (notedSysStep fun _ => ⟨0, 0⟩) twoByteRun
      (firstMounted 0 0 0 ⟨0, 0⟩, true) = some r ∧
      Overwritable r.2.1 ⟨1, false, 0⟩ [9] 0 ∧
      storedLen (onDisk r.2.1.disk) (r.2.1.inodes 1).iIno = 2 ∧
      ∃ r', exec (machine volumeDisk (zeroFilled fun _ => ⟨0, 0⟩))
        (hodoFileWriteIter noZonefs ⟨1, false, 0⟩ (wholeIter [9])) r.2.1 = .done r' ∧
        storedLen (onDisk r'.2.disk) (r.2.1.inodes 1).iIno = 1 := by
    decide +kernel
  obtain ⟨⟨as, m, intact⟩, hrun, hwritable, hold, ⟨r, m'⟩, hexec, hnew⟩ := hcall
  refine ⟨as, m, intact, r, m', by decide +kernel, hrun, hwritable, hexec, fun hkeeps => ?_⟩
  have hlen := hkeeps.1
  rw [hnew, hold] at hlen
  exact absurd hlen (by decide)

end Overwrites
