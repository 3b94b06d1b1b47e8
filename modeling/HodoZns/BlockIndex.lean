import HodoZns.UnsetPointers

/-!
# The block index as an array

The blocks of a file are written by their position and read by their number. The
writer goes down by the level in the magic of a block, the reader by the number
alone. Still a block reads as it was written last, and no write disturbs another
block, at all four levels and with any holes in between.
-/

namespace BlockIndex

open ByteBlock Layout BlockLog ZoneLog LogCalls CallRuns LogStore Programs Kernel StoreMachine
  FileBlocks
open BlockForest BlockFields TreeWrites FileWrites Operations VolumeMachine FsRuns Ownership
open FileContents FileReads Erasures TreeCalls SystemRuns UnsetPointers

section

variable {σ : Type}

/-- Where a call starts. -/
def positionOf (m : Machine σ) (iocb : Kiocb) : Int :=
  if iocb.append then (m.inodes iocb.inode).iSize else iocb.kiPos

/-- The request of the call, at its position. -/
def requestOf (m : Machine σ) (iocb : Kiocb) : Kiocb := { iocb with kiPos := positionOf m iocb }

/-- The call's answer is the block it is about. -/
def blockStep (D : Disk σ) (E : Env) (m : Machine σ) (w : Kiocb × IovIter) :
    Option (Nat × Machine σ) :=
  match exec (machine D E) (writeOneBlock w.1 w.2) m with
  | .done (_, m') => some (dataBlockIndex (requestOf m w.1), m')
  | _ => none

end

/-- A call with a buffer that is not empty, at a position below the largest file. -/
def WritesBelow (clock : Nat → Timespec) (ref : Nat) (m : Machine Volume) (w : Kiocb × IovIter) :
    Prop :=
  w.1.inode = ref ∧ (0 < w.2.count ∧ w.2.count ≤ w.2.readable) ∧
    (0 ≤ positionOf m w.1 ∧ positionOf m w.1 < (blocksPerFile * hodoDataSize : Nat)) ∧
    Guarded (machine volumeDisk (zeroFilled clock)) Fits (writeOneBlock w.1 w.2) m

instance (clock : Nat → Timespec) (ref : Nat) (m : Machine Volume) (w : Kiocb × IovIter) :
    Decidable (WritesBelow clock ref m w) := by
  unfold WritesBelow
  infer_instance

/-- `hodo_read_nth_block` of the file stored under `n`. -/
def readBlock (n index : Nat) : Program Block := do
  let inode ← hodoRead n zeros
  hodoReadNthBlock inode index zeros

/-- The reader gets the block `t`. -/
def ReadsAs (clock : Nat → Timespec) (m : Machine Volume) (n index : Nat) (t : Block) : Prop :=
  ∃ m', exec (machine volumeDisk (zeroFilled clock)) (readBlock n index) m = .done (t, m')

/-- A call at `index` reads back, and what was written elsewhere stays. -/
structure Lawful (clock : Nat → Timespec) (m m' : Machine Volume) (n index : Nat) (iocb : Kiocb)
    (iter : IovIter) (earlier : List Nat) : Prop where
  written : ∃ t, ReadsAs clock m' n index t ∧ HasLevel t 0 ∧ ∀ j, j < hodoDataSize →
    byteAt t (hodoDataStart + j) =
      pieceByte (dataByte (storedBlock (onDisk m.disk) n index)) iocb iter j
  others : ∀ o ∈ earlier, o ≠ index → ∃ t, ReadsAs clock m n o t ∧ ReadsAs clock m' n o t

theorem positioned_eq (m : Machine Store) (iocb : Kiocb) :
    positioned m iocb = requestOf m iocb := by
  rw [positioned, requestOf, positionOf]
  split <;> rfl

theorem walk_rootOf {c : Nat → Option Block} {k p off : Nat} (forest : IsForest c)
    (h0 : c 0 = none) (hp : RootOf c p k) (hoff : off < numOfBlockPoses ^ k) :
    RootOf c (walk c k p off) 0 := by
  induction k generalizing p off with
  | zero => exact hp
  | succ k ih => exact ih (child_rootOf forest h0 hp (index_lt hoff)) (rest_lt off k)

/-- The blocks of a file are data blocks. -/
theorem level_of_dataAt {c : Nat → Option Block} {n index : Nat} {b t : Block}
    (forest : IsForest c) (h0 : c 0 = none) (hn : c n = some b) (hb : isDat b = false)
    (ht : dataAt c b index = some t) : HasLevel t 0 := by
  cases hf : fieldOf index with
  | none =>
    rw [dataAt_none hf h0] at ht
    cases ht
  | some f =>
    rw [dataAt_field hf] at ht
    rcases walk_rootOf forest h0 (rootOf_field forest hn hf hb) (fieldOf_spec hf).2.2.2 with
      hzero | ⟨d, hd, hlevel⟩
    · rw [hzero, h0] at ht
      cases ht
    · rw [hd] at ht
      obtain rfl := Option.some.inj ht
      exact hlevel

/-- The file under `n`, whose blocks `touched` are there. -/
structure TreeState (a : Machine Store) (ref n : Nat) (b : Block) (touched : List Nat) : Prop where
  valid : Valid a.disk
  forest : IsForest a.disk.content
  ino : (a.inodes ref).iIno = n
  inode : a.disk.content n = some b
  isInode : isDat b = false
  there : ∀ o ∈ touched, dataAt a.disk.content b o ≠ none

variable {D : Disk Store} [LikeStore D] {clock : Nat → Timespec} {a : Machine Store}

/-- One call: the block it is about is new, and the others are not. -/
theorem wp_blockCall {ref n p : Nat} {b : Block} {touched : List Nat} {iocb : Kiocb}
    {iter : IovIter} (state : TreeState a ref n b touched) (hinode : iocb.inode = ref)
    (count : 0 < iter.count) (readable : iter.count ≤ iter.readable)
    (hpos : positionOf a iocb = p) (below : p < blocksPerFile * hodoDataSize) :
    wp (plain D clock) (writeOneBlock iocb iter) (fun _ a' => ∃ b',
      TreeState a' ref n b' (touched ++ [p / hodoDataSize]) ∧
      (∀ j, j < hodoDataSize → dataByte (dataAt a'.disk.content b' (p / hodoDataSize)) j =
        pieceByte (dataByte (dataAt a.disk.content b (p / hodoDataSize)))
          (requestOf a iocb) iter j) ∧
      ∀ o, o ≠ p / hodoDataSize → dataAt a'.disk.content b' o = dataAt a.disk.content b o) a := by
  have hlt : n < 2 ^ 32 := state.valid.number_lt (state.valid.used state.inode)
  have hindex : dataBlockIndex (requestOf a iocb) = p / hodoDataSize := by
    simp only [blocksPerFile_eq, hodoDataSize_eq] at below
    rw [dataBlockIndex, requestOf, hpos, u64_ofNat (by omega)]
  apply wp_mono _
    (wp_writeOneBlock (n := n) (b := b) (by rw [hinode, state.ino, Nat.mod_eq_of_lt hlt])
    count state.valid state.forest state.inode state.isInode)
  intro r a' hr
  rw [positioned_eq] at hr
  cases hr with
  | tooBig hnone =>
    rw [hindex, fieldOf_eq_none] at hnone
    simp only [blocksPerFile_eq, hodoDataSize_eq] at below hnone
    omega
  | fault hshort =>
    have hle := pieceLen_le (requestOf a iocb) iter
    simp only [IovIter.count] at readable
    omega
  | @written _ b' f _ _ hwritten _ hresized =>
    rw [hindex] at hwritten
    refine ⟨b', ⟨hwritten.valid, hwritten.forest, ?_, hwritten.inode, hwritten.isInode, ?_⟩, ?_,
      hwritten.others⟩
    · have hsize : OnlySize a a' (requestOf a iocb).inode := ⟨_, hresized⟩
      rw [hsize.iIno, state.ino]
    · intro o ho
      by_cases heq : o = p / hodoDataSize
      · rw [heq]
        exact hwritten.there
      · rw [hwritten.others o heq]
        rcases List.mem_append.mp ho with ho | ho
        · exact state.there o ho
        · exact absurd (List.mem_singleton.mp ho) heq
    · intro j hj
      rw [hodoDataSize_eq] at hj
      exact hwritten.data j hj

section

variable {intact : Bool} {m : Machine Volume} {a : Machine Store} {ref n : Nat} {b : Block}
  {touched : List Nat}

/-- A block that is there is read, and nothing changes. -/
theorem readsAs_of_valid {n index : Nat} {b t : Block} (follows : Follows intact m a)
    (valid : Valid a.disk) (hn : a.disk.content n = some b)
    (ht : dataAt a.disk.content b index = some t) : ReadsAs clock m n index t := by
  have passive : (readBlock n index).Only Passive :=
    only_bind (passive_hodoRead n zeros) fun inode => passive_hodoReadNthBlock inode index zeros
  have safe : wp (plain storeDisk clock) (readBlock n index) (fun r _ => r = t) a := by
    rw [readBlock, wp_bind]
    apply (wp_hodoRead_some valid hn _ _).mpr
    exact wp_hodoReadNthBlock_some valid ht fun _ _ => rfl
  obtain ⟨r, m', _, hexec, _, rfl⟩ :=
    program_follows follows (guarded_of_only fits_of_passive passive m) safe
  exact ⟨m', hexec⟩

theorem readsAs_of_dataAt {index : Nat} {t : Block} (follows : Follows intact m a)
    (state : TreeState a ref n b touched) (ht : dataAt a.disk.content b index = some t) :
    ReadsAs clock m n index t :=
  readsAs_of_valid follows state.valid state.inode ht

theorem blockStep_runs {w : Kiocb × IovIter} (follows : Follows intact m a)
    (state : TreeState a ref n b touched) (call : WritesBelow clock ref m w) :
    ∃ m' a' b', blockStep volumeDisk (zeroFilled clock) m w =
        some (dataBlockIndex (requestOf m w.1), m') ∧ Follows intact m' a' ∧
      TreeState a' ref n b' (touched ++ [dataBlockIndex (requestOf m w.1)]) ∧
      (∀ j, j < hodoDataSize →
        dataByte (dataAt a'.disk.content b' (dataBlockIndex (requestOf m w.1))) j =
          pieceByte (dataByte (dataAt a.disk.content b (dataBlockIndex (requestOf m w.1))))
            (requestOf m w.1) w.2 j) ∧
      ∀ o, o ≠ dataBlockIndex (requestOf m w.1) →
        dataAt a'.disk.content b' o = dataAt a.disk.content b o := by
  obtain ⟨hinode, ⟨count, readable⟩, ⟨hnonneg, hbelow⟩, room⟩ := call
  have hposition : positionOf m w.1 = positionOf a w.1 := by
    simp only [positionOf, follows.inodes]
  have hrequest : requestOf m w.1 = requestOf a w.1 := by rw [requestOf, requestOf, hposition]
  obtain ⟨p, hp⟩ := Int.eq_ofNat_of_zero_le hnonneg
  have below : p < blocksPerFile * hodoDataSize := by
    rw [hp] at hbelow
    exact Int.ofNat_lt.mp hbelow
  have hindex : dataBlockIndex (requestOf m w.1) = p / hodoDataSize := by
    have hlt := below
    simp only [blocksPerFile_eq, hodoDataSize_eq] at hlt
    simp only [dataBlockIndex, requestOf]
    rw [hp, u64_ofNat (by omega)]
  obtain ⟨r, m', a', hexec, follows', b', state', hdata, hothers⟩ := program_follows follows room
    (wp_blockCall state hinode count readable (hposition.symm.trans hp) below)
  refine ⟨m', a', b', by rw [blockStep, hexec], follows', ?_⟩
  rw [hindex, hrequest]
  exact ⟨state', hdata, hothers⟩

theorem blockStep_run {ws : List (Kiocb × IovIter)} (follows : Follows intact m a)
    (state : TreeState a ref n b touched)
    (calls : EachCall (blockStep volumeDisk (zeroFilled clock)) (WritesBelow clock ref) ws m) :
    ∃ rs m' a' b', run (blockStep volumeDisk (zeroFilled clock)) ws m = some (rs, m') ∧
      Follows intact m' a' ∧ TreeState a' ref n b' (touched ++ rs) := by
  induction ws generalizing m a b touched with
  | nil => exact ⟨[], m, a, b, rfl, follows, by rw [List.append_nil]; exact state⟩
  | cons w ws ih =>
    obtain ⟨call, hcalls⟩ := calls
    obtain ⟨m₁, a₁, b₁, hstep, follows₁, state₁, _⟩ := blockStep_runs follows state call
    obtain ⟨rs, m', a', b', hrun, follows', state'⟩ := ih follows₁ state₁ (hcalls _ _ hstep)
    rw [List.append_assoc, List.singleton_append] at state'
    exact ⟨_ :: rs, m', a', b', by rw [run_cons hstep, hrun]; rfl, follows', state'⟩

/-- A call after a run of calls obeys the law. -/
theorem lawful_of_state {w : Kiocb × IovIter} (follows : Follows intact m a)
    (state : TreeState a ref n b touched) (call : WritesBelow clock ref m w) :
    ∃ m', blockStep volumeDisk (zeroFilled clock) m w =
        some (dataBlockIndex (requestOf m w.1), m') ∧
      Lawful clock m m' n (dataBlockIndex (requestOf m w.1)) (requestOf m w.1) w.2 touched := by
  obtain ⟨m', a', b', hstep, follows', state', hdata, hothers⟩ :=
    blockStep_runs follows state call
  obtain ⟨index, hindex⟩ : ∃ index, dataBlockIndex (requestOf m w.1) = index := ⟨_, rfl⟩
  rw [hindex] at hstep state' hdata hothers ⊢
  refine ⟨m', hstep, ?_, fun o ho hne => ?_⟩
  · obtain ⟨t, ht⟩ := Option.ne_none_iff_exists'.mp
      (state'.there index (List.mem_append_right _ (List.mem_singleton_self _)))
    refine ⟨t, readsAs_of_dataAt follows' state' ht, ?_, fun j hj => ?_⟩
    · exact level_of_dataAt state'.forest state'.valid.content_zero state'.inode state'.isInode ht
    · have hbyte := hdata j hj
      rw [ht] at hbyte
      rw [storedBlock_of_follows follows state.valid state.forest state.inode state.isInode]
      exact hbyte
  · obtain ⟨t, ht⟩ := Option.ne_none_iff_exists'.mp (state.there o ho)
    exact ⟨t, readsAs_of_dataAt follows state ht,
      readsAs_of_dataAt follows' state' ((hothers o hne).trans ht)⟩

end

/-- For every file of every state reached from a first mount and every run of calls of
`write_one_block`, a further call obeys the law of an array. -/
theorem block_index_lawful (clock : Nat → Timespec) (uid gid groups : Nat) (now : Timespec)
    (cs : List SysCall)
    (calls : EachCall (notedSysStep clock) (Admissible clock) cs
      (firstMounted uid gid groups now, true)) :
    ∃ as m intact, run (notedSysStep clock) cs (firstMounted uid gid groups now, true) =
      some (as, m, intact) ∧
      ∀ ref, (m.inodes ref).iFop = some .file → ∀ ws,
        EachCall (blockStep volumeDisk (zeroFilled clock)) (WritesBelow clock ref) ws m →
        ∃ rs m₁, run (blockStep volumeDisk (zeroFilled clock)) ws m = some (rs, m₁) ∧
          ∀ w, WritesBelow clock ref m₁ w →
            ∃ m₂, blockStep volumeDisk (zeroFilled clock) m₁ w =
                some (dataBlockIndex (requestOf m₁ w.1), m₂) ∧
              Lawful clock m₁ m₂ (m.inodes ref).iIno (dataBlockIndex (requestOf m₁ w.1))
                (requestOf m₁ w.1) w.2 rs := by
  obtain ⟨as, ⟨m, intact⟩, hrun, a, follows, inv⟩ := sys_run clock uid gid groups now calls
  refine ⟨as, m, intact, hrun, fun ref hfile ws hws => ?_⟩
  rw [follows.inodes] at hfile ⊢
  obtain ⟨b, file⟩ := fileInode_of_live inv hfile
  have start : TreeState a ref (a.inodes ref).iIno b [] :=
    ⟨inv.valid, inv.forest, rfl, file.inode, file.isInode, fun o ho => absurd ho List.not_mem_nil⟩
  obtain ⟨rs, m₁, a₁, b₁, hrun₁, follows₁, state₁⟩ := blockStep_run follows start hws
  exact ⟨rs, m₁, hrun₁, fun w call => lawful_of_state follows₁ state₁ call⟩

/-- A new file. -/
def newFileRun : List SysCall := [.call (.create ⟨0, 0⟩ rootRef [97] 0o644)]

/-- A byte in block 0, then one in block 10, the first below an index block. -/
theorem block_index_two_levels : ∃ m intact m₁ m₂,
    run (notedSysStep fun _ => ⟨0, 0⟩) newFileRun (firstMounted 0 0 0 ⟨0, 0⟩, true) =
      some ([(0, 1)], m, intact) ∧
    run (blockStep volumeDisk (zeroFilled fun _ => ⟨0, 0⟩)) [(⟨1, false, 0⟩, ⟨[7], 1⟩)] m =
      some ([0], m₁) ∧
    blockStep volumeDisk (zeroFilled fun _ => ⟨0, 0⟩) m₁ (⟨1, false, 40880⟩, ⟨[8], 1⟩) =
      some (10, m₂) ∧
    Lawful (fun _ => ⟨0, 0⟩) m₁ m₂ (m.inodes 1).iIno 10 ⟨1, false, 40880⟩ ⟨[8], 1⟩ [0] := by
  obtain ⟨as, m, intact, hrun, hlaw⟩ := block_index_lawful (fun _ => ⟨0, 0⟩) 0 0 0 ⟨0, 0⟩
    newFileRun (by decide +kernel)
  have hcall : ∃ r, run (notedSysStep fun _ => ⟨0, 0⟩) newFileRun
      (firstMounted 0 0 0 ⟨0, 0⟩, true) = some r ∧ r.1 = [(0, 1)] ∧
      (r.2.1.inodes 1).iFop = some .file ∧
      EachCall (blockStep volumeDisk (zeroFilled fun _ => ⟨0, 0⟩))
        (WritesBelow (fun _ => ⟨0, 0⟩) 1) [(⟨1, false, 0⟩, ⟨[7], 1⟩)] r.2.1 ∧
      ∃ r₁, run (blockStep volumeDisk (zeroFilled fun _ => ⟨0, 0⟩))
          [(⟨1, false, 0⟩, ⟨[7], 1⟩)] r.2.1 = some r₁ ∧ r₁.1 = [0] ∧
        WritesBelow (fun _ => ⟨0, 0⟩) 1 r₁.2 (⟨1, false, 40880⟩, ⟨[8], 1⟩) := by
    decide +kernel
  obtain ⟨r, hrun', hret, hfile, hws, r₁, hrun₁', hret₁, call⟩ := hcall
  obtain rfl := Option.some.inj (hrun'.symm.trans hrun)
  simp only at hret hfile hws hrun₁'
  subst hret
  obtain ⟨rs, m₁, hrun₁, hnext⟩ := hlaw 1 hfile _ hws
  obtain rfl := Option.some.inj (hrun₁'.symm.trans hrun₁)
  simp only at hret₁ call
  subst hret₁
  obtain ⟨m₂, hstep, lawful⟩ := hnext _ call
  have hindex : dataBlockIndex (requestOf m₁ ⟨1, false, 40880⟩) = 10 := by
    change dataBlockIndex ⟨1, false, 40880⟩ = 10
    decide +kernel
  rw [hindex] at hstep lawful
  exact ⟨m, intact, m₁, m₂, hrun, hrun₁, hstep, lawful⟩

end BlockIndex
