import Mathlib.Data.List.GetD
import HodoZns.UnsetPointers

/-!
# Appended data

Buffers appended to a new file are read back one behind the other.
-/

namespace Appends

open ByteBlock Layout BlockLog ZoneLog LogCalls CallRuns LogStore Programs Kernel StoreMachine
  FileBlocks
open BlockForest BlockFields TreeWrites FileWrites Directories Operations DirectoryWrites NewInodes
open VolumeMachine FsRuns FileContents FileReads Erasures TreeCalls SystemRuns UnsetPointers

/-- `ref` is the VFS inode of the file `n`, which holds `data`. -/
structure FileState (m : Machine Store) (ref n : Nat) (data : List UInt8) : Prop where
  valid : Valid m.disk
  forest : IsForest m.disk.content
  fop : (m.inodes ref).iFop = some .file
  ino : (m.inodes ref).iIno = n
  size : (m.inodes ref).iSize = data.length
  file : ∃ b, Contains m.disk n b data

/-- The end of a file never gets past the largest file: the numbers run out before. -/
theorem field_of_contains {s : Store} {n : Nat} {b : Block} {data : List UInt8} (valid : Valid s)
    (h : Contains s n b data) : fieldOf (data.length / 4088) ≠ none := by
  have hroom := h.room
  have hcount := valid.count_le
  rw [ne_eq, fieldOf_eq_none]
  simp only [numberMappingTableEntry_eq, blocksPerFile_eq] at hcount ⊢
  omega

theorem contains_append {s s' : Store} {n : Nat} {b b' : Block} {data : List UInt8} {iocb : Kiocb}
    {iter : IovIter} (h : Contains s n b data) (hpos : u64 iocb.kiPos = data.length)
    (count : 0 < iter.count)
    (written : PieceWritten s s' n b b' (data.length / 4088)
      (pieceByte (dataByte (dataAt s.content b (data.length / 4088))) iocb iter))
    (len : fileLen b' = data.length + pieceLen iocb iter) :
    Contains s' n b' (data ++ iter.bytes.take (pieceLen iocb iter)) := by
  have hle := pieceLen_le iocb iter
  have hpiece := pieceLen_pos iocb count
  have hbound : data.length + pieceLen iocb iter ≤ 4088 * (data.length / 4088 + 1) := by
    simp only [pieceLen, hpos, hodoDataSize_eq]
    omega
  have htotal : (data ++ iter.bytes.take (pieceLen iocb iter)).length =
      data.length + pieceLen iocb iter := by
    rw [List.length_append, List.length_take, Nat.min_eq_left hle]
  refine ⟨written.inode, written.isInode, by rw [len, htotal], fun o ho => ?_, fun o ho => ?_,
    fun i hi => ?_, ?_⟩
  · rw [htotal] at ho
    by_cases heq : o = data.length / 4088
    · rw [heq]
      exact written.there
    · rw [written.others o heq]
      exact h.there o (by omega)
  · rw [htotal] at ho
    rw [written.others o (by omega)]
    exact h.beyond o (by omega)
  · rw [htotal] at hi
    by_cases hold : i < data.length
    · rw [List.getD_append _ _ _ _ hold, ← h.bytes i hold]
      by_cases heq : i / 4088 = data.length / 4088
      · rw [heq, written.data _ (Nat.mod_lt _ (by omega))]
        simp only [pieceByte, hpos, hodoDataSize_eq]
        rw [if_pos (by omega)]
      · rw [written.others _ heq]
    · have heq : i / 4088 = data.length / 4088 := by omega
      rw [List.getD_append_right _ _ _ _ (by omega), heq, written.data _ (Nat.mod_lt _ (by omega))]
      simp only [pieceByte, hpos, hodoDataSize_eq]
      rw [if_neg (by omega)]
      congr 1
      omega
  · rw [htotal]
    have hroom := h.room
    have hcount := written.count_le
    by_cases hthere : dataAt s.content b (data.length / 4088) = none
    · have hgrown := written.grown hthere
      have hend : ¬ 4088 * (data.length / 4088) < data.length := fun hlt => h.there _ hlt hthere
      omega
    · have hlt : 4088 * (data.length / 4088) < data.length := by
        by_contra hge
        exact hthere (h.beyond _ (by omega))
      omega

variable {D : Disk Store} [LikeStore D] {clock : Nat → Timespec} {m : Machine Store}

/-- Where an appending call starts. -/
def AtEndOf (ref total : Nat) (iocb : Kiocb) : Prop :=
  iocb.inode = ref ∧ (iocb.append = true ∨ iocb.kiPos = total)

theorem AtEndOf.positioned {ref total : Nat} {iocb : Kiocb} (h : AtEndOf ref total iocb)
    (size : (m.inodes ref).iSize = total) : (positioned m iocb).kiPos = total := by
  obtain ⟨rfl, hpos⟩ := h
  rw [FileWrites.positioned]
  cases hflag : iocb.append with
  | true => simpa using size
  | false => simpa [hflag] using hpos

theorem wp_append_block {ref n total : Nat} {iocb : Kiocb} {iter : IovIter} {data : List UInt8}
    (state : FileState m ref n data) (here : AtEndOf ref total iocb) (htotal : data.length = total)
    (count : 0 < iter.count) (readable : iter.count ≤ iter.readable) :
    wp (plain D clock) (writeOneBlock iocb iter) (fun r m' =>
      ∃ len, 0 < len ∧ len ≤ iter.count ∧ r.1 = len ∧ AtEndOf ref (total + len) r.2.1 ∧
        r.2.2 = IovIter.advance iter len ∧ FileState m' ref n (data ++ iter.bytes.take len)) m := by
  obtain ⟨valid, forest, fop, ino, size, b, file⟩ := state
  subst htotal
  have hn : n < 2 ^ 32 := valid.number_lt (valid.used file.inode)
  have hpos := here.positioned size
  have hlt : data.length < 4088 * 2 ^ 32 := by
    have hroom := file.room
    have hcount := valid.count_le
    simp only [numberMappingTableEntry_eq] at hcount
    omega
  have hu : u64 (positioned m iocb).kiPos = data.length := by
    rw [hpos, u64_ofNat (by omega)]
  have hindex : dataBlockIndex (positioned m iocb) = data.length / 4088 := by
    rw [dataBlockIndex, hu, hodoDataSize_eq]
  apply wp_mono _ (wp_writeOneBlock (n := n) (b := b) (by rw [here.1, ino, Nat.mod_eq_of_lt hn])
    count valid forest file.inode file.isInode)
  intro r m' hr
  have hpl := pieceLen_le (positioned m iocb) iter
  cases hr with
  | tooBig hnone => exact absurd (hindex ▸ hnone) (field_of_contains valid file)
  | fault hshort =>
    simp only [IovIter.count] at readable
    omega
  | @written _ b' f _ _ hwritten hlen hresized =>
    rw [hindex] at hwritten
    rw [hpos, ← Int.natCast_add] at hresized hlen
    have hsum : data.length + pieceLen (positioned m iocb) iter < 2 ^ 64 := by
      have : pieceLen (positioned m iocb) iter ≤ 4088 := by
        simp only [pieceLen, hodoDataSize_eq]
        omega
      omega
    rw [u64_ofNat hsum] at hlen
    refine ⟨pieceLen (positioned m iocb) iter, pieceLen_pos _ count, hpl, rfl, ⟨?_, Or.inr ?_⟩, rfl,
      hwritten.valid, hwritten.forest, ?_, ?_, ?_, b', contains_append file hu count hwritten hlen⟩
    · rw [positioned_inode]
      exact here.1
    · simp only [hpos]
      omega
    · rw [hresized.inodes, positioned_inode, here.1, update_same]
      exact fop
    · rw [hresized.inodes, positioned_inode, here.1, update_same]
      exact ino
    · rw [hresized.inodes, positioned_inode, here.1, update_same, List.length_append,
        List.length_take, Nat.min_eq_left hpl]

theorem wp_append {ref n : Nat} {iocb : Kiocb} {data bytes : List UInt8}
    (state : FileState m ref n data) (here : AtEndOf ref data.length iocb) :
    wp (plain D clock) (hodoSubFileWriteIter iocb (wholeIter bytes)) (fun r m' =>
      r.1 = bytes.length ∧ FileState m' ref n (data ++ bytes)) m := by
  apply wp_writeBlocks (fun total iocb' iter' m' => total + iter'.count = bytes.length ∧
    iter'.count ≤ iter'.readable ∧ iter'.bytes = bytes.drop total ∧
    AtEndOf ref (data.length + total) iocb' ∧ FileState m' ref n (data ++ bytes.take total))
  · rintro total _ _ _ ⟨hcount, _⟩
    simp only [wholeIter, IovIter.count]
    omega
  · rintro total iocb' iter' m' ⟨hcount, hread, hbytes, here', state'⟩ hlt
    simp only [wholeIter, IovIter.count] at hlt
    have hlen : (data ++ bytes.take total).length = data.length + total := by
      rw [List.length_append, List.length_take, Nat.min_eq_left (by omega)]
    apply wp_mono _ (wp_append_block state' here' hlen (by omega) hread)
    rintro r m'' ⟨len, hpos, hle, hr, here'', hiter, state''⟩
    rw [hr, if_neg (by omega), hiter]
    refine ⟨by omega, ?_, ?_, ?_, ?_, ?_⟩
    · simp only [IovIter.advance, IovIter.count, List.length_drop,
        Int.toNat_natCast] at hcount hle ⊢
      omega
    · simp only [IovIter.advance, IovIter.count, List.length_drop] at hread ⊢
      omega
    · simp only [IovIter.advance, hbytes, List.drop_drop, Int.toNat_natCast]
    · rw [Int.toNat_natCast, ← Nat.add_assoc]
      exact here''
    · rw [Int.toNat_natCast, List.take_add, ← List.append_assoc, ← hbytes]
      exact state''
  · rintro _ _ m' ⟨_, _, _, _, state'⟩
    refine ⟨rfl, ?_⟩
    rwa [wholeIter, IovIter.count, List.take_length] at state'
  · omega
  · simp only [wholeIter, IovIter.count]
    refine ⟨by omega, Nat.le_refl _, rfl, here, ?_⟩
    simpa using state

theorem dataAt_none_of_ptrs {c : Nat → Option Block} {b : Block} (h0 : c 0 = none)
    (ptrs : ∀ i, inodePtr b i = 0) (o : Nat) : dataAt c b o = none := by
  cases hf : fieldOf o with
  | none => exact dataAt_none hf h0
  | some f => rw [dataAt_field hf, ptrs, walk_zero h0, h0]

theorem contains_empty {s : Store} {n : Nat} {b : Block} (valid : Valid s)
    (hn : s.content n = some b) (hb : isDat b = false) (hlen : fileLen b = 0)
    (ptrs : ∀ i, inodePtr b i = 0) : Contains s n b [] where
  inode := hn
  isInode := hb
  len := hlen
  there _ ho := absurd ho (Nat.not_lt_zero _)
  beyond o _ := dataAt_none_of_ptrs valid.content_zero ptrs o
  bytes _ hi := absurd hi (Nat.not_lt_zero _)
  room := Nat.zero_le _

theorem wp_storeNewInode_empty {cred : Cred} {name : List UInt8} {mode dir nd : Nat}
    {now : Timespec} {b : Block} (hname : name.length ≤ 16)
    (hdir : (m.inodes dir).iIno % 2 ^ 32 = nd) (valid : Valid m.disk)
    (forest : IsForest m.disk.content) (hb : m.disk.content nd = some b) (hdat : isDat b = false) :
    wp (plain D clock) (storeNewInode regularFile cred dir name mode now)
      (fun n m' => m'.inodes = m.inodes ∧ Valid m'.disk ∧ IsForest m'.disk.content ∧
        ∃ b, Contains m'.disk n b []) m := by
  apply wp_mono _ (wp_storeNewInode hname hdir valid forest hb hdat)
  rintro n m' ⟨m₁, _, hnone, hcontent, valid₁, forest₁, _, hinodes, hb₁, hadd⟩
  have hnew : m₁.disk.content n = some (storedInode zeros regularFile cred name mode n now) := by
    rw [hcontent, update_same]
  have hdat' : isDat (storedInode zeros regularFile cred name mode n now) = false :=
    isDat_storedInode zeros
  have hne : n ≠ nd := by
    rintro rfl
    rw [hnone] at hb
    cases hb
  have empty : ∀ {s : Store}, Valid s →
      s.content n = some (storedInode zeros regularFile cred name mode n now) →
      ∃ b, Contains s n b [] := fun hs hn =>
    ⟨_, contains_empty hs hn hdat'
      (fileLen_storedInode zeros (Nat.zero_lt_of_lt (Nat.lt_two_pow_self)))
      (inodePtr_storedInode hname)⟩
  cases hadd with
  | full _ hdisk hsame =>
    rw [hdisk]
    exact ⟨hsame.inodes.trans hinodes.inodes, valid₁, forest₁, empty valid₁ hnew⟩
  | slot _ _ _ _ _ hwritten _ _ hsame =>
    exact ⟨hsame.inodes.trans hinodes.inodes, hwritten.valid, hwritten.forest,
      empty hwritten.valid (other_inode hwritten.toFileWritten forest₁ hnew hdat' hne)⟩
  | block _ _ _ _ hwritten _ _ hsame =>
    exact ⟨hsame.inodes.trans hinodes.inodes, hwritten.valid, hwritten.forest,
      empty hwritten.valid (other_inode hwritten.toFileWritten forest₁ hnew hdat' hne)⟩

theorem wp_hodoCreate_empty {cred : Cred} {dir : Nat} {name : List UInt8} {mode : Nat}
    (inv : FsInv m) (hdir : (m.inodes dir).iOp = some .dir) (hname : name.length ≤ 16) :
    wp (plain D clock) (hodoCreate cred dir name mode)
      (fun r m' => r.1 = 0 ∧ ∃ n, FileState m' r.2 n []) m := by
  have hne : m.inodeCount ≠ dir := by
    rintro rfl
    rw [(inv.vfs.spare _ (Nat.le_refl _)).1] at hdir
    cases hdir
  have inv' := inv.withInode
  obtain ⟨b, hb, hdat, _⟩ := inv'.dirInode (inv'.vfs.backed dir) (inv.dir_withInode hdir)
  simp only [hodoCreate, wp_bind, wp_allocInode, wp_currentTime, wp_setInode, wp_pure]
  apply wp_mono _ (wp_storeNewInode_empty (m := Machine.later (Machine.withInode m)) hname rfl
    inv'.valid inv'.forest hb hdat)
  rintro n m' ⟨hinodes, valid, forest, b', file⟩
  have hnew : m'.inodes m.inodeCount = newInode := by
    rw [hinodes]
    exact update_same _ _ _
  refine ⟨trivial, n, valid, forest, ?_, ?_, ?_, b', file⟩
  · rw [updateInode_inodes, update_same]
    rfl
  · rw [updateInode_inodes, update_same]
    rfl
  · rw [updateInode_inodes, update_same, updateInode_inodes, update_other _ _ hne, hnew]
    rfl

/-- A call of `hodo_file_write_iter` for the file, or any other call. -/
inductive FileCall where
  | write (iocb : Kiocb) (bytes : List UInt8)
  | other (c : SysCall)

def fileStep (clock : Nat → Timespec) (zonefs : Kiocb → IovIter → Program (Int × Kiocb × IovIter))
    (s : Machine Volume × Bool) : FileCall → Option (Int × (Machine Volume × Bool))
  | .write iocb bytes =>
    match exec (machine volumeDisk (zeroFilled clock))
      (hodoFileWriteIter zonefs iocb (wholeIter bytes))
        s.1 with
    | .done (r, m) => some (r.1, m, s.2)
    | _ => none
  | .other c => (notedSysStep clock s c).map fun (r, s') => (r.1, s')

/-- Numbers and room do not run out during the call, and no number in use is freed. -/
def Proceeds (clock : Nat → Timespec) (zonefs : Kiocb → IovIter → Program (Int × Kiocb × IovIter))
    (s : Machine Volume × Bool) : FileCall → Prop
  | .write iocb bytes => Guarded (machine volumeDisk (zeroFilled clock)) Fits
      (hodoFileWriteIter zonefs iocb (wholeIter bytes)) s.1
  | .other c => Admissible clock s c

instance (clock : Nat → Timespec) (zonefs : Kiocb → IovIter → Program (Int × Kiocb × IovIter))
    (s : Machine Volume × Bool) : (c : FileCall) → Decidable (Proceeds clock zonefs s c)
  | .write iocb bytes => inferInstanceAs (Decidable (Guarded (machine volumeDisk (zeroFilled clock))
      Fits (hodoFileWriteIter zonefs iocb (wholeIter bytes)) s.1))
  | .other c => inferInstanceAs (Decidable (Admissible clock s c))

/-- Each call for the file starts where those before it have come to, and the other calls
are about other inodes. -/
def EachAtEnd (ref : Nat) : Nat → List FileCall → Prop
  | _, [] => True
  | total, .write iocb bytes :: cs =>
    AtEndOf ref total iocb ∧ EachAtEnd ref (total + bytes.length) cs
  | total, .other c :: cs => ref ∉ c.touches ∧ EachAtEnd ref total cs

def FileCall.bytes : FileCall → List UInt8
  | .write _ bytes => bytes
  | .other _ => []

def allBytes (cs : List FileCall) : List UInt8 := cs.flatMap FileCall.bytes

/-- A call for the file returns the length it was asked for. -/
def FullLength : FileCall → Int → Prop
  | .write _ bytes, r => r = bytes.length
  | .other _, _ => True

/-- Any request for a part of the file delivers it. The fetch of a block of which nothing is
wanted may come to number 0, and then does nothing. -/
def ReadsBack (clock : Nat → Timespec) (m : Machine Volume) (ref : Nat)
    (data : List UInt8) : Prop :=
  ∀ (zonefs : Kiocb → IovSink → Program (Int × Kiocb × IovSink)) (iocb : Kiocb) (pos n : Nat),
    iocb.inode = ref → iocb.kiPos = pos → pos < 2 ^ 63 →
    ∃ r m', exec (machine (harmless volumeDisk) (zeroFilled clock))
        (hodoFileReadIter zonefs iocb ⟨n, []⟩) m = .done (r, m') ∧
      r.1 = (delivered data pos n).length ∧
      r.2.1.kiPos = (pos + (delivered data pos n).length : Nat) ∧
      r.2.2.delivered = delivered data pos n

section Runs

variable {intact : Bool} {v : Machine Volume} {a : Machine Store} {ref n : Nat} {data : List UInt8}
  {zonefs : Kiocb → IovIter → Program (Int × Kiocb × IovIter)}

theorem FileState.number (h : FileState a ref n data) : a.disk.base ≤ n ∧ n < 2 ^ 32 := by
  obtain ⟨b, file⟩ := h.file
  have hused := h.valid.used file.inode
  exact ⟨hused.1, h.valid.number_lt hused⟩

/-- What leaves the inode alone leaves the file as it is. -/
theorem FileState.leaves {a' : Machine Store} (h : FileState a ref n data) (inv' : LiveInv a')
    {refs : List Nat} (leaves : Leaves a a' refs) (apart : ref ∉ refs) :
    FileState a' ref n data := by
  obtain ⟨hinode, below⟩ := leaves.others ref apart (Or.inr h.fop)
  obtain ⟨b, file⟩ := h.file
  rw [h.ino] at below
  have hdata := SameBelow.dataAt below h.valid inv'.valid h.forest file.inode file.isInode
  refine ⟨inv'.valid, inv'.forest, by rw [hinode]; exact h.fop, by rw [hinode]; exact h.ino,
    by rw [hinode]; exact h.size, b, ?_⟩
  exact ⟨(below n Relation.ReflTransGen.refl).trans file.inode, file.isInode, file.len,
    fun o ho => by rw [hdata]; exact file.there o ho,
    fun o ho => by rw [hdata]; exact file.beyond o ho,
    fun i hi => by rw [hdata]; exact file.bytes i hi,
    Nat.le_trans file.room (Nat.mul_le_mul_left _ leaves.count_le)⟩

/-- Every call ends, and what is appended is behind what was there. -/
theorem file_step {c : FileCall} {cs : List FileCall} (follows : Follows intact v a)
    (inv : LiveInv a) (state : FileState a ref n data) (here : EachAtEnd ref data.length (c :: cs))
    (proceeds : Proceeds clock zonefs (v, intact) c) :
    ∃ r s' a', fileStep clock zonefs (v, intact) c = some (r, s') ∧ FullLength c r ∧
      Follows s'.2 s'.1 a' ∧ LiveInv a' ∧ FileState a' ref n (data ++ c.bytes) ∧
      EachAtEnd ref (data ++ c.bytes).length cs := by
  cases c with
  | write iocb bytes =>
    obtain ⟨hhere, hrest⟩ := here
    have hfile : (a.inodes iocb.inode).iFop = some .file := by
      rw [hhere.1]
      exact state.fop
    have own : a.disk.base ≤ (a.inodes iocb.inode).iIno := by
      rw [hhere.1, state.ino]
      exact state.number.1
    obtain ⟨r, m₁, a₁, hexec, follows₁, ⟨hr, state₁⟩, inv₁, _⟩ := program_follows follows proceeds
      ((wp_hodoFileWriteIter zonefs own _).mpr (wp_and (wp_append state hhere)
        (wp_write_live inv hfile)))
    refine ⟨r.1, (m₁, intact), a₁, ?_, hr, follows₁, inv₁, state₁, ?_⟩
    · rw [fileStep, hexec]
    · rw [List.length_append]
      exact hrest
  | other c =>
    obtain ⟨hapart, hrest⟩ := here
    obtain ⟨r, s', a', hstep, follows', inv', leaves⟩ := sys_step follows inv proceeds
    refine ⟨r.1, s', a', by rw [fileStep, hstep]; rfl, trivial, follows', inv', ?_, ?_⟩
    · rw [FileCall.bytes, List.append_nil]
      exact state.leaves inv' leaves hapart
    · rw [FileCall.bytes, List.append_nil]
      exact hrest

theorem file_run {cs : List FileCall} (follows : Follows intact v a) (inv : LiveInv a)
    (state : FileState a ref n data) (here : EachAtEnd ref data.length cs)
    (calls : EachCall (fileStep clock zonefs) (Proceeds clock zonefs) cs (v, intact)) :
    ∃ rs s a', run (fileStep clock zonefs) cs (v, intact) = some (rs, s) ∧
      List.Forall₂ FullLength cs rs ∧ Follows s.2 s.1 a' ∧
      FileState a' ref n (data ++ allBytes cs) := by
  induction cs generalizing intact v a data with
  | nil =>
    refine ⟨[], _, a, rfl, .nil, follows, ?_⟩
    simpa [allBytes] using state
  | cons c cs ih =>
    obtain ⟨hroom, hcalls⟩ := calls
    obtain ⟨r, s', a', hstep, hr, follows', inv', state', here'⟩ :=
      file_step follows inv state here hroom
    obtain ⟨rs, s, a'', hrun, hrs, follows'', state''⟩ :=
      ih follows' inv' state' here' (hcalls _ _ hstep)
    refine ⟨r :: rs, s, a'', by rw [run_cons hstep, hrun]; rfl, .cons hr hrs, follows'', ?_⟩
    rwa [List.append_assoc] at state''

theorem readsBack_of_state (follows : Follows intact v a) (state : FileState a ref n data)
    (small : data.length < 2 ^ 31) : ReadsBack clock v ref data := by
  intro zonefs iocb pos k hinode hpos hlt
  obtain ⟨b, file⟩ := state.file
  have fileInode : FileInode a.disk n b := ⟨state.valid, state.forest, file.inode, file.isInode⟩
  have hfile : (a.inodes iocb.inode).iIno = n := by
    rw [hinode]
    exact state.ino
  obtain ⟨hino, own⟩ := fileInode.own follows hfile
  obtain ⟨r, m', a', hexec, _, _, hr, hiocb, hsink⟩ := program_harmless follows
    (guarded_of_only fits_of_passive (passive_readStored n iocb ⟨k, []⟩) v)
    (wp_readStored (D := harmless storeDisk) state.valid file
      (fun _ => fetched_harmless fileInode _) small hpos hlt)
  refine ⟨r, m', ?_, hr, by rw [hiocb], hsink⟩
  rw [exec_hodoFileReadIter zonefs (by rw [hino]; exact own), hino]
  exact hexec

/-- A file can be made, and is empty then. -/
theorem create_live {cred : Cred} {dir : Nat} {name : List UInt8} {mode : Nat}
    (follows : Follows intact v a) (inv : LiveInv a) (hdir : (a.inodes dir).iOp = some .dir)
    (hname : name.length ≤ 16)
    (fits : Guarded (machine volumeDisk (zeroFilled clock)) Fits
      (hodoCreate cred dir name mode) v) :
    ∃ ref m₁ a₁ n, exec (machine volumeDisk (zeroFilled clock)) (hodoCreate cred dir name mode) v =
        .done ((0, ref), m₁) ∧
      Follows intact m₁ a₁ ∧ LiveInv a₁ ∧ FileState a₁ ref n [] := by
  obtain ⟨⟨r, ref⟩, m₁, a₁, hexec, follows₁, ⟨hr, n, state⟩, creation⟩ :=
    program_follows follows fits (wp_and (wp_hodoCreate_empty inv.fs hdir hname)
      (wp_hodoCreate inv.fs hdir hname))
  simp only at hr state
  subst hr
  exact ⟨ref, m₁, a₁, n, hexec, follows₁, (live_of_creation inv hdir creation).1, state⟩

end Runs

/-- In every state reached from a first mount a file can be made, and then appended to while
other calls go on. -/
theorem created_run (clock : Nat → Timespec) (uid gid groups : Nat) (now : Timespec)
    (zonefs : Kiocb → IovIter → Program (Int × Kiocb × IovIter)) (cs : List SysCall)
    (calls : EachCall (notedSysStep clock) (Admissible clock) cs
      (firstMounted uid gid groups now, true)) :
    ∃ as m intact, run (notedSysStep clock) cs (firstMounted uid gid groups now, true) =
      some (as, m, intact) ∧
      ∀ (cred : Cred) (dir : Nat) (name : List UInt8) (mode : Nat),
        (m.inodes dir).iOp = some .dir → name.length ≤ 16 →
        Guarded (machine volumeDisk (zeroFilled clock)) Fits (hodoCreate cred dir name mode) m →
        ∃ ref m₁, exec (machine volumeDisk (zeroFilled clock)) (hodoCreate cred dir name mode) m =
            .done ((0, ref), m₁) ∧
          ∀ ds, EachAtEnd ref 0 ds →
            EachCall (fileStep clock zonefs) (Proceeds clock zonefs) ds (m₁, intact) →
            ∃ rs m₂ intact₂, run (fileStep clock zonefs) ds (m₁, intact) =
                some (rs, m₂, intact₂) ∧
              List.Forall₂ FullLength ds rs ∧
              ∃ a n, Follows intact₂ m₂ a ∧ FileState a ref n (allBytes ds) := by
  obtain ⟨as, ⟨m, intact⟩, hrun, a, follows, inv⟩ := sys_run clock uid gid groups now calls
  refine ⟨as, m, intact, hrun, ?_⟩
  intro cred dir name mode hdir hname fits
  rw [follows.inodes] at hdir
  obtain ⟨ref, m₁, a₁, n, hexec, follows₁, inv₁, state⟩ := create_live follows inv hdir hname fits
  refine ⟨ref, m₁, hexec, fun ds here proceeds => ?_⟩
  obtain ⟨rs, ⟨m₂, intact₂⟩, a₂, hrun₂, hrs, follows₂, state₂⟩ :=
    file_run follows₁ inv₁ state here proceeds
  exact ⟨rs, m₂, intact₂, hrun₂, hrs, a₂, n, follows₂, state₂⟩

/-- Two bytes are appended through `IOCB_APPEND` and a third one at their end; in between
another file is made and deleted. -/
def threeBytes : List FileCall :=
  [.write ⟨1, true, 0⟩ [1, 2], .other (.call (.create ⟨0, 0⟩ rootRef [98] 0o644)),
    .other (.call (.unlink rootRef ⟨[98], [47], 2⟩)), .write ⟨1, false, 2⟩ [3]]

/-- The start of the `k`th subtree below the triple indirect block. -/
def subtreeStart (k : Nat) : Nat := (tripleStart + k * numOfBlockPoses ^ 2) * hodoDataSize

/-- The third file gets number 33, and the deletion of the first one clears the bit of that
number. -/
def thirdFileRun : List SysCall :=
  [.call (.create ⟨0, 0⟩ rootRef [97] 0o644), .call (.create ⟨0, 0⟩ rootRef [98] 0o644),
    .call (.write ⟨2, false, subtreeStart 0⟩ ⟨[7], 1⟩),
    .call (.write ⟨2, false, subtreeStart 1⟩ ⟨[7], 1⟩),
    .call (.write ⟨2, false, subtreeStart 2⟩ ⟨[7], 1⟩),
    .call (.write ⟨2, false, subtreeStart 3⟩ ⟨[7], 1⟩),
    .call (.create ⟨0, 0⟩ rootRef [99] 0o644), .call (.unlink rootRef ⟨[97], [47], 1⟩)]

end Appends
