import Mathlib.Order.Interval.Set.Basic
import HodoZns.ReadPointers

/-!
# Holes of a file

A write may start beyond the end of a file, and leaves a hole of bytes that no write
ever reached. They read as zeros where some write reached the block they are in, and
every other block the request comes to; where it did not the reader follows a pointer
that is not set.
-/

namespace Holes

open ByteBlock Layout BlockLog ZoneLog LogCalls CallRuns LogStore Programs Kernel StoreMachine
  FileBlocks
open BlockForest BlockFields TreeWrites FileWrites Operations VolumeMachine FsRuns FileContents
open FileReads Ownership Erasures TreeCalls SystemRuns UnsetPointers Appends ReadLengths
  ReadPointers

/-- Some offset of the block `o` was written. -/
def Reached (written : Set Nat) (o : Nat) : Prop := ∃ i ∈ written, i / hodoDataSize = o

/-- `ref` is the VFS inode of a file of `len` bytes, of which only those at `written`
were ever written. -/
structure SparseState (m : Machine Store) (ref n len : Nat) (written : Set Nat) (b : Block) :
    Prop extends FileInode m.disk n b where
  fop : (m.inodes ref).iFop = some .file
  ino : (m.inodes ref).iIno = n
  size : (m.inodes ref).iSize = len
  len : fileLen b = len
  there : ∀ o, dataAt m.disk.content b o ≠ none ↔ Reached written o
  zero : ∀ i, i ∉ written →
    dataByte (dataAt m.disk.content b (i / hodoDataSize)) (i % hodoDataSize) = 0

theorem sparse_empty {m : Machine Store} {ref n : Nat} (state : FileState m ref n []) :
    ∃ b, SparseState m ref n 0 ∅ b := by
  obtain ⟨valid, forest, fop, ino, size, b, file⟩ := state
  have hnone : ∀ o, dataAt m.disk.content b o = none := fun o => file.beyond o (Nat.zero_le _)
  refine ⟨b, ⟨valid, forest, file.inode, file.isInode⟩, fop, ino, size, file.len, fun o => ?_,
    fun i _ => ?_⟩
  · simp [hnone, Reached]
  · rw [hnone]
    rfl

variable {D : Disk Store} [LikeStore D] {clock : Nat → Timespec} {m : Machine Store}
variable {ref n len p : Nat} {written : Set Nat} {b : Block}

theorem reached_piece {k o : Nat} (hk : 0 < k)
    (hfit : p + k ≤ (p / hodoDataSize + 1) * hodoDataSize) :
    Reached (written ∪ Set.Ico p (p + k)) o ↔ o = p / hodoDataSize ∨ Reached written o := by
  rw [hodoDataSize_eq] at hfit
  constructor
  · rintro ⟨i, hold | ⟨hlo, hhi⟩, ho⟩
    · exact Or.inr ⟨i, hold, ho⟩
    · rw [hodoDataSize_eq] at ho ⊢
      omega
  · rintro (rfl | ⟨i, hi, ho⟩)
    · exact ⟨p, Or.inr ⟨Nat.le_refl p, by omega⟩, rfl⟩
    · exact ⟨i, Or.inl hi, ho⟩

/-- A byte that is still not written is kept as the zero it is, or is behind the piece. -/
theorem pieceByte_zero {iocb : Kiocb} {iter : IovIter} {old : Nat → UInt8} {i : Nat}
    (hu : u64 iocb.kiPos = p) (hblock : i / hodoDataSize = p / hodoDataSize)
    (hold : old (i % hodoDataSize) = 0) (hout : i ∉ Set.Ico p (p + pieceLen iocb iter)) :
    pieceByte old iocb iter (i % hodoDataSize) = 0 := by
  have hle := pieceLen_le iocb iter
  simp only [Set.mem_Ico, not_and, not_lt] at hout
  simp only [pieceByte, hu, hodoDataSize_eq] at hblock hold ⊢
  split
  case isTrue => exact hold
  case isFalse hge =>
    apply List.getD_eq_default
    rw [List.length_take, Nat.min_eq_left hle]
    omega

theorem sparse_piece {m' : Machine Store} {b' : Block} {iocb : Kiocb} {iter : IovIter}
    (state : SparseState m ref n len written b) (hu : u64 iocb.kiPos = p)
    (count : 0 < iter.count)
    (piece : PieceWritten m.disk m'.disk n b b' (p / hodoDataSize)
      (pieceByte (dataByte (dataAt m.disk.content b (p / hodoDataSize))) iocb iter))
    (hlen : fileLen b' = p + pieceLen iocb iter)
    (resized : Resized m m' ref (p + pieceLen iocb iter : Nat)) :
    SparseState m' ref n (p + pieceLen iocb iter)
      (written ∪ Set.Ico p (p + pieceLen iocb iter)) b' := by
  have hpos := pieceLen_pos iocb count
  have hfit : p + pieceLen iocb iter ≤ (p / hodoDataSize + 1) * hodoDataSize := by
    simp only [pieceLen, hu, hodoDataSize_eq]
    omega
  refine ⟨⟨piece.valid, piece.forest, piece.inode, piece.isInode⟩, ?_, ?_, ?_, hlen, fun o => ?_,
    fun i hi => ?_⟩
  · rw [resized.inodes, update_same]
    exact state.fop
  · rw [resized.inodes, update_same]
    exact state.ino
  · rw [resized.inodes, update_same]
  · rw [reached_piece hpos hfit]
    by_cases ho : o = p / hodoDataSize
    · rw [ho]
      exact iff_of_true piece.there (Or.inl rfl)
    · rw [piece.others o ho, state.there o, or_iff_right ho]
  · have hold : i ∉ written := fun h => hi (Or.inl h)
    have hout : i ∉ Set.Ico p (p + pieceLen iocb iter) := fun h => hi (Or.inr h)
    by_cases ho : i / hodoDataSize = p / hodoDataSize
    · rw [ho, piece.data _ (by rw [hodoDataSize_eq]; omega)]
      apply pieceByte_zero hu ho _ hout
      rw [← ho]
      exact state.zero i hold
    · rw [piece.others _ ho]
      exact state.zero i hold

theorem wp_sparse_block {iocb : Kiocb} {iter : IovIter}
    (state : SparseState m ref n len written b) (hinode : iocb.inode = ref)
    (hpos : (positioned m iocb).kiPos = p) (below : p < blocksPerFile * hodoDataSize)
    (count : 0 < iter.count) (readable : iter.count ≤ iter.readable) :
    wp (plain D clock) (writeOneBlock iocb iter) (fun r m' => ∃ k b', 0 < k ∧ k ≤ iter.count ∧
      r.1 = k ∧ r.2.1 = { positioned m iocb with kiPos := (p + k : Nat) } ∧
      r.2.2 = IovIter.advance iter k ∧
      SparseState m' ref n (p + k) (written ∪ Set.Ico p (p + k)) b') m := by
  have hlt : n < 2 ^ 32 := state.valid.number_lt (state.valid.used state.inode)
  simp only [blocksPerFile_eq, hodoDataSize_eq] at below
  have hu : u64 (positioned m iocb).kiPos = p := by rw [hpos, u64_ofNat (by omega)]
  have hindex : dataBlockIndex (positioned m iocb) = p / hodoDataSize := by
    rw [dataBlockIndex, hu]
  have hle := pieceLen_le (positioned m iocb) iter
  apply wp_mono _
    (wp_writeOneBlock (n := n) (b := b) (by rw [hinode, state.ino, Nat.mod_eq_of_lt hlt])
    count state.valid state.forest state.inode state.isInode)
  intro r m' hr
  cases hr with
  | tooBig hnone =>
    rw [hindex, fieldOf_eq_none, blocksPerFile_eq, hodoDataSize_eq] at hnone
    omega
  | fault hshort =>
    simp only [IovIter.count] at readable
    omega
  | @written _ b' f _ _ piece hlen resized =>
    rw [hindex] at piece
    rw [hpos, ← Int.natCast_add] at hlen resized
    rw [positioned_inode, hinode] at resized
    have hsum : p + pieceLen (positioned m iocb) iter < 2 ^ 64 := by
      have hbound := (pieceLen_bound iter hpos (by omega)).2
      rw [hodoDataSize_eq] at hbound
      omega
    rw [u64_ofNat hsum] at hlen
    refine ⟨pieceLen (positioned m iocb) iter, b', pieceLen_pos _ count, hle, rfl, ?_, rfl,
      sparse_piece state hu count piece hlen resized⟩
    simp only [hpos, Int.natCast_add]

/-- A call that ends far below the largest file. -/
theorem wp_sparse_write {iocb : Kiocb} {bytes : List UInt8}
    (state : SparseState m ref n len written b) (hinode : iocb.inode = ref)
    (hpos : (positioned m iocb).kiPos = p)
    (small : bytes ≠ [] → p + bytes.length < 2 ^ 31) :
    wp (plain D clock) (hodoSubFileWriteIter iocb (wholeIter bytes)) (fun r m' =>
      r.1 = bytes.length ∧
      ∃ b', SparseState m' ref n (if bytes = [] then len else p + bytes.length)
        (written ∪ Set.Ico p (p + bytes.length)) b') m := by
  apply wp_writeBlocks (fun total iocb' iter' m' => total + iter'.count = bytes.length ∧
    iter'.count ≤ iter'.readable ∧ iocb'.inode = ref ∧
    (positioned m' iocb').kiPos = (p + total : Nat) ∧
    ∃ b', SparseState m' ref n (if total = 0 then len else p + total)
      (written ∪ Set.Ico p (p + total)) b')
  · rintro total _ _ _ ⟨hcount, _⟩
    simp only [wholeIter, IovIter.count]
    omega
  · rintro total iocb' iter' m' ⟨hcount, hread, hinode', hpos', b', state'⟩ hlt
    simp only [wholeIter, IovIter.count] at hlt
    have hend := small (List.ne_nil_of_length_pos (by omega))
    apply wp_mono _ (wp_sparse_block state' hinode' hpos'
      (by rw [blocksPerFile_eq, hodoDataSize_eq]; omega) (by omega) hread)
    rintro r m'' ⟨k, b'', hk, hle, hr, hiocb, hiter, state''⟩
    rw [hr, if_neg (by omega), hiter, hiocb, Int.toNat_natCast]
    refine ⟨by omega, ?_, ?_, ?_, ?_, b'', ?_⟩
    · simp only [IovIter.advance, IovIter.count, List.length_drop] at hcount hle ⊢
      omega
    · simp only [IovIter.advance, IovIter.count, List.length_drop] at hread ⊢
      omega
    · exact (positioned_inode m' iocb').trans hinode'
    · rw [FileWrites.positioned]
      split
      · simp only [positioned_inode, hinode', state''.size, Nat.add_assoc]
      · simp only [Nat.add_assoc]
    · rw [if_neg (by omega), ← Nat.add_assoc]
      rwa [Set.union_assoc, Set.Ico_union_Ico_eq_Ico (by omega) (by omega)] at state''
  · rintro _ _ m' ⟨_, _, _, _, b', state'⟩
    refine ⟨rfl, b', ?_⟩
    simpa only [wholeIter, IovIter.count, List.length_eq_zero_iff] using state'
  · omega
  · simp only [wholeIter, IovIter.count]
    refine ⟨by omega, Nat.le_refl _, hinode, hpos, b, ?_⟩
    simpa using state

/-- Where a call on a file of `total` bytes starts. -/
def startOf (total : Nat) (iocb : Kiocb) : Nat := if iocb.append then total else iocb.kiPos.toNat

/-- The length of the file after the call. -/
def endOfCall (total : Nat) : FileCall → Nat
  | .write iocb bytes => if bytes = [] then total else startOf total iocb + bytes.length
  | .other _ => total

/-- The offsets that the call writes. -/
def span (total : Nat) : FileCall → Set Nat
  | .write iocb bytes => Set.Ico (startOf total iocb) (startOf total iocb + bytes.length)
  | .other _ => ∅

def finalLength : Nat → List FileCall → Nat
  | total, [] => total
  | total, c :: cs => finalLength (endOfCall total c) cs

/-- The offsets that some call wrote. -/
def writtenBy : Nat → List FileCall → Set Nat
  | _, [] => ∅
  | total, c :: cs => span total c ∪ writtenBy (endOfCall total c) cs

/-- The call starts at or beyond the end of the file, or is about another inode. -/
def StartsBeyond (ref total : Nat) : FileCall → Prop
  | .write iocb _ => iocb.inode = ref ∧ (iocb.append = true ∨ (total : Int) ≤ iocb.kiPos)
  | .other c => ref ∉ c.touches

/-- Each call starts at or beyond the end the calls before it have left. -/
def EachBeyond (ref : Nat) : Nat → List FileCall → Prop
  | _, [] => True
  | total, c :: cs => StartsBeyond ref total c ∧ EachBeyond ref (endOfCall total c) cs

theorem endOfCall_ge {total : Nat} {c : FileCall} (h : StartsBeyond ref total c) :
    total ≤ endOfCall total c := by
  cases c with
  | other c => exact Nat.le_refl total
  | write iocb bytes =>
    obtain ⟨_, hstart⟩ := h
    rw [endOfCall]
    split
    · exact Nat.le_refl total
    · rw [startOf]
      rcases hstart with happend | hpos
      · rw [if_pos happend]
        omega
      · split <;> omega

theorem finalLength_ge {total : Nat} {cs : List FileCall} (beyond : EachBeyond ref total cs) :
    total ≤ finalLength total cs := by
  induction cs generalizing total with
  | nil => exact Nat.le_refl total
  | cons c cs ih =>
    obtain ⟨hstart, hrest⟩ := beyond
    exact Nat.le_trans (endOfCall_ge hstart) (ih hrest)

theorem positioned_startOf {iocb : Kiocb} (state : SparseState m ref n len written b)
    (hinode : iocb.inode = ref) (hstart : iocb.append = true ∨ (len : Int) ≤ iocb.kiPos) :
    (positioned m iocb).kiPos = (startOf len iocb : Nat) := by
  rw [FileWrites.positioned, startOf]
  cases happend : iocb.append with
  | true => simpa [hinode] using state.size
  | false =>
    rw [happend] at hstart
    simp only [Bool.false_eq_true, false_or] at hstart
    simp only [Bool.false_eq_true, if_false]
    omega

/-- What leaves the inode alone leaves the file as it is. -/
theorem SparseState.leaves {a a' : Machine Store} (h : SparseState a ref n len written b)
    (inv' : LiveInv a') {refs : List Nat} (leaves : Leaves a a' refs) (apart : ref ∉ refs) :
    SparseState a' ref n len written b := by
  obtain ⟨hinode, below⟩ := leaves.others ref apart (Or.inr h.fop)
  rw [h.ino] at below
  have hdata := SameBelow.dataAt below h.valid inv'.valid h.forest h.inode h.isInode
  refine ⟨⟨inv'.valid, inv'.forest, ?_, h.isInode⟩, by rw [hinode]; exact h.fop,
    by rw [hinode]; exact h.ino, by rw [hinode]; exact h.size, h.len,
    fun o => by rw [hdata]; exact h.there o, fun i hi => by rw [hdata]; exact h.zero i hi⟩
  exact (below n Relation.ReflTransGen.refl).trans h.inode

/-- Every call ends, and writes what it is asked to. -/
theorem sparse_step {zonefs : Kiocb → IovIter → Program (Int × Kiocb × IovIter)} {intact : Bool}
    {v : Machine Volume} {a : Machine Store} {c : FileCall} (follows : Follows intact v a)
    (inv : LiveInv a) (state : SparseState a ref n len written b)
    (beyond : StartsBeyond ref len c) (small : endOfCall len c < 2 ^ 31)
    (proceeds : Proceeds clock zonefs (v, intact) c) :
    ∃ r s' a' b', fileStep clock zonefs (v, intact) c = some (r, s') ∧ FullLength c r ∧
      Follows s'.2 s'.1 a' ∧ LiveInv a' ∧
      SparseState a' ref n (endOfCall len c) (written ∪ span len c) b' := by
  cases c with
  | write iocb bytes =>
    obtain ⟨hinode, hstart⟩ := beyond
    have hfile : (a.inodes iocb.inode).iFop = some .file := by
      rw [hinode]
      exact state.fop
    have own : a.disk.base ≤ (a.inodes iocb.inode).iIno := by
      rw [hinode, state.ino]
      exact (state.valid.used state.inode).1
    have hend : bytes ≠ [] → startOf len iocb + bytes.length < 2 ^ 31 := by
      intro hbytes
      rwa [endOfCall, if_neg hbytes] at small
    obtain ⟨r, m₁, a₁, hexec, follows₁, ⟨hr, b₁, state₁⟩, inv₁, _⟩ :=
      program_follows follows proceeds ((wp_hodoFileWriteIter zonefs own _).mpr
        (wp_and (wp_sparse_write state hinode (positioned_startOf state hinode hstart) hend)
          (wp_write_live inv hfile)))
    exact ⟨r.1, (m₁, intact), a₁, b₁, by rw [fileStep, hexec], hr, follows₁, inv₁, state₁⟩
  | other c =>
    obtain ⟨r, s', a', hstep, follows', inv', leaves⟩ := sys_step follows inv proceeds
    refine ⟨r.1, s', a', b, by rw [fileStep, hstep]; rfl, trivial, follows', inv', ?_⟩
    rw [span, Set.union_empty]
    exact state.leaves inv' leaves beyond

theorem sparse_run {zonefs : Kiocb → IovIter → Program (Int × Kiocb × IovIter)} {intact : Bool}
    {v : Machine Volume} {a : Machine Store} {cs : List FileCall} (follows : Follows intact v a)
    (inv : LiveInv a) (state : SparseState a ref n len written b) (beyond : EachBeyond ref len cs)
    (small : finalLength len cs < 2 ^ 31)
    (calls : EachCall (fileStep clock zonefs) (Proceeds clock zonefs) cs (v, intact)) :
    ∃ rs s a' b', run (fileStep clock zonefs) cs (v, intact) = some (rs, s) ∧
      List.Forall₂ FullLength cs rs ∧ Follows s.2 s.1 a' ∧
      SparseState a' ref n (finalLength len cs) (written ∪ writtenBy len cs) b' := by
  induction cs generalizing intact v a len written b with
  | nil => exact ⟨[], _, a, b, rfl, .nil, follows, by rwa [writtenBy, Set.union_empty]⟩
  | cons c cs ih =>
    obtain ⟨hstart, hrest⟩ := beyond
    obtain ⟨hroom, hcalls⟩ := calls
    obtain ⟨r, s', a₁, b₁, hstep, hr, follows₁, inv₁, state₁⟩ :=
      sparse_step follows inv state hstart
      (Nat.lt_of_le_of_lt (finalLength_ge hrest) small) hroom
    obtain ⟨rs, s, a₂, b₂, hrun, hrs, follows₂, state₂⟩ :=
      ih follows₁ inv₁ state₁ hrest small (hcalls _ _ hstep)
    refine ⟨r :: rs, s, a₂, b₂, by rw [run_cons hstep, hrun]; rfl, .cons hr hrs, follows₂, ?_⟩
    rwa [writtenBy, ← Set.union_assoc]

/-- The bytes that the blocks of a file hold; an absent block counts as zeros. -/
def fileBytes (c : Nat → Option Block) (b : Block) (len : Nat) : List UInt8 :=
  (List.range len).map fun i => dataByte (dataAt c b (i / hodoDataSize)) (i % hodoDataSize)

theorem length_fileBytes (c : Nat → Option Block) (b : Block) (len : Nat) :
    (fileBytes c b len).length = len := by
  rw [fileBytes, List.length_map, List.length_range]

theorem getElem?_fileBytes {c : Nat → Option Block} {i : Nat} (h : i < len) :
    (fileBytes c b len)[i]? =
      some (dataByte (dataAt c b (i / hodoDataSize)) (i % hodoDataSize)) := by
  rw [fileBytes, List.getElem?_map, List.getElem?_range h, Option.map_some]

theorem presents_fileBytes {s : Store} {first last : Nat}
    (there : ∀ o, first ≤ o → o ≤ last → dataAt s.content b o ≠ none) :
    Presents s b (fileBytes s.content b len) first last := by
  intro o hlo hhi _
  obtain ⟨t, ht⟩ := Option.ne_none_iff_exists'.mp (there o hlo hhi)
  refine ⟨t, ht, fun j hj hlt => ?_⟩
  rw [length_fileBytes] at hlt
  have hdiv : (4088 * o + j) / 4088 = o := by omega
  have hmod : (4088 * o + j) % 4088 = j := by omega
  rw [List.getD_eq_getElem?_getD, getElem?_fileBytes hlt, hodoDataSize_eq, hdiv, hmod, ht]
  rfl

/-- The request delivers a zero byte for the offset. -/
def DeliversZero (clock : Nat → Timespec) (m : Machine Volume)
    (zonefs : Kiocb → IovSink → Program (Int × Kiocb × IovSink)) (iocb : Kiocb) (k off : Nat) :
    Prop :=
  ∃ r m', exec (machine volumeDisk (zeroFilled clock)) (hodoFileReadIter zonefs iocb ⟨k, []⟩) m =
      .done (r, m') ∧
    r.2.2.delivered[off - iocb.kiPos.toNat]? = some 0

/-- Every block that a request for `k` bytes at `pos` of a file of `len` bytes comes to
holds an offset that was written. -/
def AllReached (written : Set Nat) (len pos k : Nat) : Prop :=
  ∀ o, pos / hodoDataSize ≤ o → o ≤ (pos + min k (len - pos)) / hodoDataSize → Reached written o

theorem deliversZero_of_there {intact : Bool} {v : Machine Volume} {a : Machine Store}
    {zonefs : Kiocb → IovSink → Program (Int × Kiocb × IovSink)} {pos k off : Nat} {iocb : Kiocb}
    (follows : Follows intact v a) (state : SparseState a ref n len written b)
    (small : len < 2 ^ 31) (hinode : iocb.inode = ref) (hpos : iocb.kiPos = pos) (hlo : pos ≤ off)
    (hhi : off < pos + k) (hlt : off < len) (hole : off ∉ written)
    (reached : AllReached written len pos k) : DeliversZero clock v zonefs iocb k off := by
  have hfile : (a.inodes iocb.inode).iIno = n := by rw [hinode, state.ino]
  obtain ⟨hnumber, own⟩ := state.toFileInode.own follows hfile
  have there : ∀ o, pos / 4088 ≤ o → o ≤ (pos + min k (len - pos)) / 4088 →
      dataAt a.disk.content b o ≠ none := fun o hlo hhi =>
    (state.there o).mpr (reached o (by rwa [hodoDataSize_eq]) (by rwa [hodoDataSize_eq]))
  have presents : Presents a.disk b (fileBytes a.disk.content b len) (pos / 4088)
      ((pos + min k ((fileBytes a.disk.content b len).length - pos)) / 4088) := by
    rw [length_fileBytes]
    exact presents_fileBytes there
  have safe : wp (plain storeDisk clock) (readStored n iocb ⟨k, []⟩) (fun r _ =>
      r.2.2.delivered = delivered (fileBytes a.disk.content b len) pos k) a := by
    rw [readStored, wp_bind]
    apply (wp_hodoRead_some state.valid state.inode _ _).mpr
    apply wp_mono _ (wp_readFile state.valid (by rw [state.len, length_fileBytes]) presents ?_
      (by rwa [length_fileBytes]) hpos (by omega))
    · exact fun _ _ h => h.2.2.2
    · intro _
      rw [length_fileBytes]
      exact fetched_of_there state.valid (there _ (Nat.div_le_div_right (Nat.le_add_right _ _))
        (Nat.le_refl _))
  obtain ⟨r, v', a', hexec, _, hsink⟩ := program_follows follows
    (guarded_of_only fits_of_passive (passive_readStored n iocb ⟨k, []⟩) v) safe
  refine ⟨r, v', ?_, ?_⟩
  · rw [exec_hodoFileReadIter zonefs (by rw [hnumber]; exact own), hnumber]
    exact hexec
  · have hindex : pos + (off - pos) = off := by omega
    rw [hsink, hpos, Int.toNat_natCast, delivered, List.getElem?_take_of_lt (by omega),
      List.getElem?_drop, hindex, getElem?_fileBytes hlt, state.zero off hole]

theorem hole_iff {intact : Bool} {v : Machine Volume} {a : Machine Store}
    {zonefs : Kiocb → IovSink → Program (Int × Kiocb × IovSink)} {pos k off : Nat} {iocb : Kiocb}
    (follows : Follows intact v a) (state : SparseState a ref n len written b)
    (small : len < 2 ^ 31) (hinode : iocb.inode = ref) (hpos : iocb.kiPos = pos) (hlo : pos ≤ off)
    (hhi : off < pos + k) (hlt : off < len) (hole : off ∉ written) :
    (DeliversZero clock v zonefs iocb k off ∧
      Guarded (machine volumeDisk (zeroFilled clock)) ReadsAllocated
        (hodoFileReadIter zonefs iocb ⟨k, []⟩) v) ↔ AllReached written len pos k := by
  obtain ⟨last, hlast⟩ : ∃ last, (pos + min k (len - pos)) / hodoDataSize = last := ⟨_, rfl⟩
  have hend : endBlock (fileLen b) pos k = last := by
    rw [endBlock, state.len, signedLength_small (by omega), ← Int.natCast_add,
      u64_ofNat (by omega), hlast]
    exact toInt32_of_lt (by rw [← hlast, hodoDataSize_eq]; omega)
  have hguarded : Guarded (machine volumeDisk (zeroFilled clock)) ReadsAllocated
      (hodoFileReadIter zonefs iocb ⟨k, []⟩) v ↔
      ∀ o, pos / hodoDataSize ≤ o → o ≤ max (pos / hodoDataSize) last →
        dataAt a.disk.content b o ≠ none := guarded_read_iff follows state.toFileInode
    (by rw [hinode, state.ino]) hpos (by rw [state.len]; omega)
    (by rw [state.len, blocksPerFile_eq, hodoDataSize_eq]; omega) hend
  have hmax : max (pos / hodoDataSize) last = last := by
    rw [← hlast, hodoDataSize_eq]
    omega
  rw [hguarded, hmax, AllReached, hlast]
  simp only [state.there]
  constructor
  · exact fun h => h.2
  · intro reached
    refine ⟨?_, reached⟩
    apply deliversZero_of_there follows state small hinode hpos hlo hhi hlt hole
    rwa [AllReached, hlast]

end Holes
