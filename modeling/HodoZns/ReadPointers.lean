import HodoZns.Appends
import HodoZns.ReadLengths

/-!
# Pointers that readers follow

A reader visits every block from the one at the position to the one at the end of
the request, which is one block too many when the request ends at the border of a
block. It follows set pointers only, exactly when all the blocks it visits are there.
-/

namespace ReadPointers

open ByteBlock Layout BlockLog ZoneLog NumberAllocator LogCalls LogStore Programs Kernel CallRuns
open StoreMachine VolumeMachine FileBlocks BlockForest BlockFields TreeWrites FileWrites Operations
open FsRuns FileContents FileReads Erasures TreeCalls SystemRuns UnsetPointers Appends ReadLengths

variable {clock : Nat → Timespec} {n : Nat} {b : Block}

/-- The request stays inside a file of `len` bytes without holes: it ends before the
last border of a block, and `end_block` is not computed from a negative position. -/
def StaysInside (len pos n : Nat) : Prop :=
  if len - pos < 2 ^ 31 then ¬ (hodoDataSize ∣ len ∧ len - pos ≤ n)
  else n < 2 ^ 64 - 2 ^ 32 + (len - pos) ∧ 0 ≤ (pos : Int) + toInt32 n

instance (len pos n : Nat) : Decidable (StaysInside len pos n) := by
  unfold StaysInside
  infer_instance

theorem signedLength_small {rest n : Nat} (h : rest < 2 ^ 31) :
    signedLength rest n = (min n rest : Nat) := by
  rw [signedLength, toInt32_of_lt h, u64_of_lt h]
  split
  · rw [toInt32_of_lt (by omega)]
    omega
  · omega

theorem signedLength_large {rest n : Nat} (h : 2 ^ 31 ≤ rest) (hlt : rest < 2 ^ 32) :
    signedLength rest n =
      if n < 2 ^ 64 - 2 ^ 32 + rest then toInt32 n else (rest : Int) - 2 ^ 32 := by
  have hcut : toInt32 rest = (rest : Int) - 2 ^ 32 := by
    rw [toInt32, if_neg (by omega)]
    omega
  have hlarge : u64 ((rest : Int) - 2 ^ 32) = 2 ^ 64 - 2 ^ 32 + rest := by
    rw [u64]
    omega
  rw [signedLength, hcut, hlarge]

/-- The blocks of a request of an appended file, which has no more of them than there
are numbers. -/
theorem staysInside_iff {len pos n : Nat} (hlt : pos < len) (hlen : len ≤ 4088 * 2 ^ 20) :
    ∃ last : Nat, endBlock len pos n = last ∧
      ((∀ o, pos / hodoDataSize ≤ o → o ≤ max (pos / hodoDataSize) last → 4088 * o < len) ↔
        StaysInside len pos n) := by
  simp only [endBlock, StaysInside, hodoDataSize_eq]
  by_cases hsmall : len - pos < 2 ^ 31
  · rw [signedLength_small hsmall, if_pos hsmall, ← Int.natCast_add, u64_ofNat (by omega),
      toInt32_of_lt (by omega)]
    refine ⟨_, rfl, fun inside => ?_, fun stays o hlo hhi => ?_⟩
    · rintro ⟨hdvd, hall⟩
      have := inside (len / 4088) (by omega) (by
        rw [show pos + min n (len - pos) = len by omega]
        exact Nat.le_max_right _ _)
      omega
    · by_contra hge
      exact stays ⟨by omega, by omega⟩
  · obtain ⟨len', hsum⟩ : ∃ len' : Int, pos + signedLength (len - pos) n = len' := ⟨_, rfl⟩
    have hbound := signedLength_bounds (len - pos) n
    have hlarge := signedLength_large (n := n) (Nat.le_of_not_lt hsmall)
      (show len - pos < 2 ^ 32 by omega)
    have hstays : (n < 2 ^ 64 - 2 ^ 32 + (len - pos) ∧ 0 ≤ (pos : Int) + toInt32 n) ↔ 0 ≤ len' := by
      rw [← hsum, hlarge]
      split <;> omega
    rw [if_neg hsmall, hstays, hsum]
    by_cases hneg : 0 ≤ len'
    · obtain ⟨e, rfl⟩ := Int.eq_ofNat_of_zero_le hneg
      rw [u64_ofNat (by omega), toInt32_of_lt (by omega)]
      exact ⟨_, rfl, fun _ => hneg, fun _ o hlo hhi => by omega⟩
    · have hu : u64 len' = (2 ^ 64 + len').toNat := by
        rw [u64]
        omega
      -- the last 2 GiB below 2^64 hold the blocks 1050628 * 2^32 + 33094782 and the next ones
      have hwrap : toInt32 (u64 len' / 4088) =
          ((u64 len' / 4088 - 1050628 * 2 ^ 32 : Nat) : Int) := by
        rw [toInt32, hu]
        split <;> omega
      refine ⟨_, hwrap, fun inside => ?_, fun h => absurd h hneg⟩
      have := inside (2 ^ 20) (by omega) (by rw [hu]; omega)
      omega

theorem guarded_contains_iff {intact : Bool} {v : Machine Volume} {a : Machine Store} {ref : Nat}
    {data : List UInt8} {zonefs : Kiocb → IovSink → Program (Int × Kiocb × IovSink)} {pos k : Nat}
    {iocb : Kiocb} (follows : Follows intact v a) (state : FileState a ref n data)
    (hinode : iocb.inode = ref) (hpos : iocb.kiPos = pos) (hlt : pos < data.length) :
    Guarded (machine volumeDisk (zeroFilled clock)) ReadsAllocated
        (hodoFileReadIter zonefs iocb ⟨k, []⟩) v ↔ StaysInside data.length pos k := by
  obtain ⟨b, file⟩ := state.file
  have hroom : data.length ≤ 4088 * 2 ^ 20 := by
    have hle := file.room
    have hcount := state.valid.count_le
    simp only [numberMappingTableEntry_eq] at hcount
    omega
  obtain ⟨last, hend, hiff⟩ := staysInside_iff (n := k) hlt hroom
  rw [← file.len] at hend
  have hblock : ∀ o, dataAt a.disk.content b o ≠ none ↔ 4088 * o < data.length := fun o =>
    ⟨fun hthere => Nat.lt_of_not_le fun hle => hthere (file.beyond o hle), file.there o⟩
  rw [guarded_read_iff follows ⟨state.valid, state.forest, file.inode, file.isInode⟩
    (by rw [hinode, state.ino]) hpos (by rw [file.len]; exact hlt)
    (by rw [file.len, blocksPerFile_eq, hodoDataSize_eq]; omega) hend, ← hiff]
  simp only [hblock]

end ReadPointers
