import HodoZns.BlockIndex

/-!
# Writes that fail

`write_one_block` adds what its helpers return to the position, whether it is a length
or an error, and stores the sum as the length of the file. So a helper that fails moves
the end of the file; a call that gives up before it has come to them leaves the file
as it was.
-/

namespace FailedWrites

open ByteBlock Layout BlockLog ZoneLog LogCalls CallRuns LogStore Programs Kernel StoreMachine
  FileBlocks
open BlockForest BlockFields SlotUpdates TreeWrites FileWrites Operations VolumeMachine FsRuns
open Ownership FileContents Erasures TreeCalls SystemRuns UnsetPointers BlockIndex

/-- Memory is zeroed, where there is any. -/
def Zeroed (E : Env) : Prop := ∀ t b, E.heap t = some b → b = zeros

/-- One of the `depth + 1` allocations from the `t`-th on fails, or the buffer ends early. -/
def HelperFails (E : Env) (t depth : Nat) (iocb : Kiocb) (iter : IovIter) : Prop :=
  (∃ i ≤ depth, E.heap (t + i) = none) ∨ iter.readable < pieceLen iocb iter

theorem helperFails_zero {E : Env} {t : Nat} {iocb : Kiocb} {iter : IovIter} :
    HelperFails E t 0 iocb iter ↔ E.heap t = none ∨ iter.readable < pieceLen iocb iter := by
  simp only [HelperFails, Nat.le_zero, exists_eq_left, Nat.add_zero]

theorem helperFails_succ {E : Env} {t depth : Nat} {iocb : Kiocb} {iter : IovIter} :
    HelperFails E t (depth + 1) iocb iter ↔
      E.heap t = none ∨ HelperFails E (t + 1) depth iocb iter := by
  rw [HelperFails, HelperFails, ← or_assoc]
  refine or_congr_left ⟨?_, ?_⟩
  · rintro ⟨i, hi, hnone⟩
    cases i with
    | zero => exact Or.inl hnone
    | succ i => exact Or.inr ⟨i, by omega, by rwa [Nat.add_assoc, Nat.add_comm 1 i]⟩
  · rintro (hnone | ⟨i, hi, hnone⟩)
    · exact ⟨0, Nat.zero_le _, hnone⟩
    · exact ⟨i + 1, by omega, by rwa [Nat.add_comm i 1, ← Nat.add_assoc]⟩

/-- What a helper returns, and the number it leaves. -/
inductive HelperResult (E : Env) (m : Machine Store) (iocb : Kiocb) (iter : IovIter) (k p : Nat) :
    Int × IovIter × Nat → Machine Store → Prop
  | failed {e : Int} {iter' : IovIter} {m' : Machine Store} : HelperFails E m.tick k iocb iter →
      e < 0 → m'.disk = m.disk → m'.inodes = m.inodes →
        HelperResult E m iocb iter k p (e, iter', p) m'
  | worked {len q : Nat} {iter' : IovIter} {m' : Machine Store} :
      ¬ HelperFails E m.tick k iocb iter → Valid m'.disk → m.disk.count ≤ m'.disk.count →
      m'.inodes = m.inodes → HelperResult E m iocb iter k p ((len : Int), iter', q) m'

variable {D : Disk Store} [LikeStore D] {E : Env} {m : Machine Store}

theorem wp_directHelper {iocb : Kiocb} {iter : IovIter} {p : Nat} {current : Block}
    (zeroed : Zeroed E) (valid : Valid m.disk) (buffers : Buffers m.disk.content 0 p current) :
    wp (machine D E) (writeOneBlockByDirectBlock iocb iter p current)
      (HelperResult E m iocb iter 0 p) m := by
  have hle := pieceLen_le iocb iter
  rw [writeOneBlockByDirectBlock, wp_bind, wp_kmalloc_heap]
  cases hheap : E.heap m.tick with
  | none =>
    rw [wp_pure]
    exact HelperResult.failed (helperFails_zero.mpr (Or.inl hheap)) (by decide) rfl rfl
  | some target =>
    obtain rfl := zeroed _ _ hheap
    simp only [IovIter.copyFrom, pieceLen_eq, List.length_take, wp_ite, wp_bind, wp_pure]
    split
    case isTrue hshort =>
      exact HelperResult.failed (helperFails_zero.mpr (Or.inr (by omega))) (by decide) rfl rfl
    case isFalse hfull =>
      have works : ¬ HelperFails E m.tick 0 iocb iter := by
        rw [helperFails_zero, hheap]
        simp only [reduceCtorEq, false_or]
        omega
      have hlen : min (min (pieceLen iocb iter) iter.readable) iter.bytes.length =
          pieceLen iocb iter := by omega
      have hblock := hasLevel_pieceBlock current (u64 iocb.kiPos % hodoDataSize)
        (iter.bytes.take (min (pieceLen iocb iter) iter.readable))
      rw [pieceBlock, List.length_take] at hblock
      apply wp_hodoWrite_dat (m := Machine.later m) valid
        (fun hp => valid.used (buffers.present hp)) hblock.dat
      intro q s' put
      exact HelperResult.worked works put.valid put.count_le rfl

/-- What an index block's writer does once its helper has returned. -/
theorem wp_aboveHelper {iocb : Kiocb} {iter : IovIter} {k p i n : Nat} {current : Block}
    {m' : Machine Store} {r : Int × IovIter × Nat} (hheap : E.heap m.tick ≠ none)
    (valid : Valid m.disk) (buffers : Buffers m.disk.content (k + 1) n current)
    (below : HelperResult E (Machine.later m) iocb iter k p r m') :
    wp (machine D E)
      (if 0 < r.1 ∧ r.2.2 ≠ 0 then do
        let (_, n) ← hodoWrite (putBlockPtr current i r.2.2) n
        pure (r.1, r.2.1, n)
      else pure (r.1, r.2.1, n))
      (HelperResult E m iocb iter (k + 1) n) m' := by
  have hshift : HelperFails E m.tick (k + 1) iocb iter ↔
      HelperFails E (Machine.later m).tick k iocb iter := by
    rw [helperFails_succ, or_iff_right hheap]
    rfl
  cases below with
  | failed fails hneg hdisk hinodes =>
    rw [if_neg (by omega), wp_pure]
    exact HelperResult.failed (hshift.mpr fails) hneg hdisk hinodes
  | worked works valid' hcount hinodes =>
    rw [← hshift] at works
    split
    case isTrue =>
      rw [wp_bind]
      apply wp_hodoWrite_dat valid'
        (fun hn => used_mono valid valid' hcount (valid.used (buffers.present hn)))
        (hasLevel_putBlockPtr buffers.level _ _).dat
      intro q' s' put
      rw [wp_pure]
      exact HelperResult.worked works put.valid (Nat.le_trans hcount put.count_le) hinodes
    case isFalse =>
      rw [wp_pure]
      exact HelperResult.worked works valid' hcount hinodes

/-- An index block's writer, once its helper for the block below is known to work. -/
theorem wp_indirectHelper_step {iocb : Kiocb} {iter : IovIter} {f : Field} {k depth p : Nat}
    {current : Block} (zeroed : Zeroed E) (hf : fieldOf (dataBlockIndex iocb) = some f)
    (hk : k + 1 ≤ Field.depth f) (valid : Valid m.disk) (forest : IsForest m.disk.content)
    (buffers : Buffers m.disk.content (k + 1) p current)
    (helper : ∀ q t, Buffers m.disk.content k q t →
      wp (machine D E)
        (if isDirectblock t then writeOneBlockByDirectBlock iocb iter q t
        else writeOneBlockByIndirectBlock depth iocb iter q t)
        (HelperResult E (Machine.later m) iocb iter k q) (Machine.later m)) :
    wp (machine D E) (writeOneBlockByIndirectBlock (depth + 1) iocb iter p current)
      (HelperResult E m iocb iter (k + 1) p) m := by
  have hroot := child_rootOf forest valid.content_zero buffers.rootOf
    (index_lt (rest_lt (dataBlockIndex iocb - Field.start f) (k + 1)))
  rw [buffers.child valid.content_zero] at hroot
  simp only [writeOneBlockByIndirectBlock, blockPosIndex_ok hf buffers.level hk, wp_bind,
    wp_kmalloc_heap, level_pred buffers.level]
  cases hheap : E.heap m.tick with
  | none =>
    rw [wp_pure]
    exact HelperResult.failed (helperFails_succ.mpr (Or.inl hheap)) (by decide) rfl rfl
  | some target =>
    obtain rfl := zeroed _ _ hheap
    have hsome : E.heap m.tick ≠ none := by
      rw [hheap]
      exact Option.some_ne_none zeros
    have hlevel := buffers.level.le
    rw [wp_bind]
    apply wp_readOrMake (m := Machine.later m) valid hroot (by omega)
    intro t ht
    have hhelper := helper _ t ht
    split at hhelper
    case isTrue hdirect =>
      rw [if_pos hdirect, wp_bind]
      exact wp_mono (fun r m' hr => wp_aboveHelper hsome valid buffers hr) hhelper
    case isFalse hindex =>
      rw [if_neg hindex, wp_bind]
      exact wp_mono (fun r m' hr => wp_aboveHelper hsome valid buffers hr) hhelper

theorem wp_indirectHelper {iocb : Kiocb} {iter : IovIter} {f : Field} {k depth p : Nat}
    {current : Block} (hdepth : k < depth) (zeroed : Zeroed E)
    (hf : fieldOf (dataBlockIndex iocb) = some f) (hk : k + 1 ≤ Field.depth f)
    (valid : Valid m.disk) (forest : IsForest m.disk.content)
    (buffers : Buffers m.disk.content (k + 1) p current) :
    wp (machine D E) (writeOneBlockByIndirectBlock depth iocb iter p current)
      (HelperResult E m iocb iter (k + 1) p) m := by
  induction k generalizing m depth p current with
  | zero =>
    obtain ⟨depth, rfl⟩ : ∃ d, depth = d + 1 := ⟨depth - 1, by omega⟩
    apply wp_indirectHelper_step zeroed hf hk valid forest buffers
    intro q t ht
    rw [if_pos ((isDirectblock_iff ht.level).mpr rfl)]
    exact wp_directHelper (m := Machine.later m) zeroed valid ht
  | succ k ih =>
    obtain ⟨depth, rfl⟩ : ∃ d, depth = d + 1 := ⟨depth - 1, by omega⟩
    apply wp_indirectHelper_step zeroed hf hk valid forest buffers
    intro q t ht
    have hindex : ¬ isDirectblock t = true := fun h => by
      have := (isDirectblock_iff ht.level).mp h
      omega
    rw [if_neg hindex]
    exact ih (m := Machine.later m) (by omega) (by omega) valid forest ht

theorem wp_fieldHelper {iocb : Kiocb} {iter : IovIter} {f : Field} {p : Nat} {current : Block}
    (zeroed : Zeroed E) (hf : fieldOf (dataBlockIndex iocb) = some f) (valid : Valid m.disk)
    (forest : IsForest m.disk.content)
    (buffers : Buffers m.disk.content (Field.depth f) p current) :
    wp (machine D E) (f.write iocb iter p current)
      (HelperResult E m iocb iter (Field.depth f) p) m := by
  have hindirect : ∀ {k}, Field.depth f = k + 1 →
      wp (machine D E) (writeOneBlockByIndirectBlock callDepth iocb iter p current)
        (HelperResult E m iocb iter (Field.depth f) p) m := by
    intro k hk
    rw [hk] at buffers ⊢
    have hle := buffers.level.le
    exact wp_indirectHelper (by simp [callDepth]; omega) zeroed hf (by omega) valid forest buffers
  cases f with
  | direct i => exact wp_directHelper zeroed valid buffers
  | singleIndirect => exact hindirect rfl
  | doubleIndirect => exact hindirect rfl
  | tripleIndirect => exact hindirect rfl

/-- The call comes to an end before its helpers are called. -/
def GivesUp (E : Env) {σ : Type} (m : Machine σ) (iocb : Kiocb) : Prop :=
  E.heap (m.tick + 1) = none ∨ fieldOf (dataBlockIndex (requestOf m iocb)) = none

/-- What `write_one_block` returns. -/
inductive CallResult (E : Env) (m : Machine Store) (iocb : Kiocb) (iter : IovIter) :
    Int × Kiocb × IovIter → Machine Store → Prop
  | gaveUp {e : Int} {m' : Machine Store} : GivesUp E m iocb → e < 0 → m'.disk = m.disk →
      m'.inodes = m.inodes → CallResult E m iocb iter (e, requestOf m iocb, iter) m'
  | failed {e : Int} {f : Field} {iocb' : Kiocb} {iter' : IovIter} {m' : Machine Store} :
      ¬ GivesUp E m iocb → fieldOf (dataBlockIndex (requestOf m iocb)) = some f →
      HelperFails E (m.tick + 2) (Field.depth f) (requestOf m iocb) iter → e < 0 →
      iocb'.kiPos = positionOf m iocb + e →
      (m'.inodes iocb.inode).iSize = positionOf m iocb + e →
      CallResult E m iocb iter (e, iocb', iter') m'
  | worked {len : Nat} {f : Field} {iocb' : Kiocb} {iter' : IovIter} {m' : Machine Store} :
      ¬ GivesUp E m iocb → fieldOf (dataBlockIndex (requestOf m iocb)) = some f →
      ¬ HelperFails E (m.tick + 2) (Field.depth f) (requestOf m iocb) iter →
      CallResult E m iocb iter ((len : Int), iocb', iter') m'

theorem wp_callResult {iocb : Kiocb} {iter : IovIter} {n : Nat} {b : Block} (zeroed : Zeroed E)
    (hino : (m.inodes iocb.inode).iIno % 2 ^ 32 = n) (valid : Valid m.disk)
    (forest : IsForest m.disk.content) (hn : m.disk.content n = some b) (hb : isDat b = false) :
    wp (machine D E) (writeOneBlock iocb iter) (CallResult E m iocb iter) m := by
  simp only [writeOneBlock, wp_bind, wp_getInode, wp_auto_stack, hino]
  apply (wp_hodoRead_some (m := Machine.later m) valid hn _ _).mpr
  have hpos : positioned (Machine.later m) iocb = requestOf m iocb := positioned_eq m iocb
  simp only [wp_startPos, wp_kmalloc_heap, hpos]
  cases hheap : E.heap (Machine.later m).tick with
  | none =>
    rw [wp_pure]
    exact CallResult.gaveUp (Or.inl hheap) (by decide) rfl rfl
  | some block =>
    obtain rfl := zeroed _ _ hheap
    cases hf : fieldOf (dataBlockIndex (requestOf m iocb)) with
    | none =>
      simp only [wp_pure]
      exact CallResult.gaveUp (Or.inr hf) (by decide) rfl rfl
    | some f =>
      have goesOn : ¬ GivesUp E m iocb := by
        rintro (hnone | hnone)
        · cases hheap.symm.trans hnone
        · cases hf.symm.trans hnone
      have hused := valid.used hn
      have own : ∀ q len, iIno (rewritten b f q len) = n := fun q len =>
        (iIno_rewritten b f q len).trans (iIno_of_inode valid hn hb)
      have hdepth : Field.depth f ≤ 3 := by cases f <;> simp [Field.depth]
      simp only [wp_bind, digit_field, field_get]
      apply wp_readOrMake (m := Machine.later (Machine.later m)) valid
        (rootOf_field forest hn hf hb) hdepth
      intro t ht
      apply wp_mono _
        (wp_fieldHelper (m := Machine.later (Machine.later m)) zeroed hf valid forest ht)
      intro r m' hr
      simp only [wp_setInode, wp_pure]
      cases hr with
      | failed fails hneg hdisk hinodes =>
        apply wp_hodoWrite_inode (by rw [hdisk]; exact valid) (by rw [hdisk]; exact hused)
          (own _ _)
        intro s' put
        refine CallResult.failed goesOn hf fails hneg rfl ?_
        rw [updateInode_inodes]
        simp only [requestOf, update_same]
      | worked works valid' hcount hinodes =>
        apply wp_hodoWrite_inode valid' (used_mono valid valid' hcount hused) (own _ _)
        intro s' put
        exact CallResult.worked goesOn hf works

/-- Pointer `i` of the stored inode. -/
def storedPtr (c : Nat → Option Block) (n i : Nat) : Nat :=
  match c n with
  | some b => inodePtr b i
  | none => 0

/-- The stored length and pointers of the file under `n`, its size in the VFS and the
position are those before the call. -/
structure LeftAlone (m m' : Machine Volume) (n : Nat) (iocb iocb' : Kiocb) : Prop where
  len : storedLen (onDisk m'.disk) n = storedLen (onDisk m.disk) n
  ptrs : ∀ i, storedPtr (onDisk m'.disk) n i = storedPtr (onDisk m.disk) n i
  size : (m'.inodes iocb.inode).iSize = (m.inodes iocb.inode).iSize
  pos : iocb'.kiPos = iocb.kiPos

/-- If the call returns an error, it leaves the file alone. -/
def FailureLeavesFile (E : Env) (m : Machine Volume) (n : Nat) (iocb : Kiocb) (iter : IovIter) :
    Prop :=
  ∃ r m', exec (machine volumeDisk E) (writeOneBlock iocb iter) m = .done (r, m') ∧
    (r.1 < 0 → LeftAlone m m' n iocb r.2.1)

/-- A call that gives up has not moved to the end of the file before, and in any other
call no helper fails. -/
def NoHelperFails (E : Env) (m : Machine Volume) (iocb : Kiocb) (iter : IovIter) : Prop :=
  if E.heap (m.tick + 1) = none then positionOf m iocb = iocb.kiPos
  else match fieldOf (dataBlockIndex (requestOf m iocb)) with
    | none => positionOf m iocb = iocb.kiPos
    | some f => ¬ HelperFails E (m.tick + 2) (Field.depth f) (requestOf m iocb) iter

/-- An error that was added to the position is seen in one of the two. -/
theorem not_leftAlone {m m' : Machine Volume} {n : Nat} {iocb iocb' : Kiocb} {e : Int} (he : e < 0)
    (hpos : iocb'.kiPos = positionOf m iocb + e)
    (hsize : (m'.inodes iocb.inode).iSize = positionOf m iocb + e) :
    ¬ LeftAlone m m' n iocb iocb' := by
  intro same
  have hpos' := same.pos
  have hsize' := same.size
  rw [hpos] at hpos'
  rw [hsize] at hsize'
  rw [positionOf] at hpos' hsize'
  split at hpos'
  case isTrue happend =>
    rw [if_pos happend] at hsize'
    omega
  case isFalse => omega

theorem failureLeavesFile_iff {intact : Bool} {v : Machine Volume} {a : Machine Store}
    {iocb : Kiocb} {iter : IovIter} {n : Nat} {b : Block} (follows : Follows intact v a)
    (zeroed : Zeroed E)
    (hino : (a.inodes iocb.inode).iIno % 2 ^ 32 = n) (valid : Valid a.disk)
    (forest : IsForest a.disk.content) (hn : a.disk.content n = some b) (hb : isDat b = false)
    (room : Guarded (machine volumeDisk E) Fits (writeOneBlock iocb iter) v) :
    FailureLeavesFile E v n iocb iter ↔ NoHelperFails E v iocb iter := by
  obtain ⟨r, v', a', hexec, follows', hr⟩ := program_follows (Q := CallResult E a iocb iter) follows
    room
    (wp_callResult zeroed hino valid forest hn hb)
  have hposition : positionOf a iocb = positionOf v iocb := by
    simp only [positionOf, follows.inodes]
  have hrequest : requestOf a iocb = requestOf v iocb := by
    rw [requestOf, requestOf, hposition]
  have honly : FailureLeavesFile E v n iocb iter ↔ (r.1 < 0 → LeftAlone v v' n iocb r.2.1) := by
    constructor
    · rintro ⟨r', v'', hexec', h⟩
      obtain ⟨rfl, rfl⟩ := Prod.mk.inj (Outcome.done.inj (hexec.symm.trans hexec'))
      exact h
    · exact fun h => ⟨r, v', hexec, h⟩
  rw [honly, NoHelperFails, follows.tick, ← hrequest]
  cases hr with
  | gaveUp gives hneg hdisk hinodes =>
    have hsame : onDisk v'.disk n = onDisk v.disk n := by
      rw [onDisk_of_follows follows hn]
      exact onDisk_of_follows follows' (hdisk ▸ hn)
    have halone : LeftAlone v v' n iocb (requestOf a iocb) ↔ positionOf v iocb = iocb.kiPos := by
      constructor
      · intro same
        rw [hrequest] at same
        exact same.pos
      · intro hpos
        refine ⟨by rw [storedLen, storedLen, hsame], fun i => by rw [storedPtr, storedPtr, hsame],
          ?_, by rw [hrequest]; exact hpos⟩
        rw [follows'.inodes, hinodes, follows.inodes]
    rw [imp_iff_right hneg, halone]
    rcases gives with hnone | hnone
    · rw [if_pos hnone]
    · rw [hnone]
      split <;> rfl
  | failed goesOn hf fails hneg hpos hsize =>
    rw [if_neg fun hnone => goesOn (Or.inl hnone), hf]
    refine iff_of_false (fun h => ?_) fun h => h fails
    exact not_leftAlone hneg (by rw [← hposition]; exact hpos)
      (by rw [follows'.inodes, ← hposition]; exact hsize) (h hneg)
  | worked goesOn hf works =>
    rw [if_neg fun hnone => goesOn (Or.inl hnone), hf]
    exact iff_of_true (fun hneg => absurd hneg (by simp)) works

/-- In every state reached from a first mount a write to a file, at any position, from any
buffer and whatever allocations fail, leaves the file as it was when it fails exactly
when no helper fails. -/
theorem failed_write_leaves_file_iff (clock : Nat → Timespec) (uid gid groups : Nat)
    (now : Timespec) (cs : List SysCall)
    (calls : EachCall (notedSysStep clock) (Admissible clock) cs
      (firstMounted uid gid groups now, true)) :
    ∃ as m intact, run (notedSysStep clock) cs (firstMounted uid gid groups now, true) =
      some (as, m, intact) ∧
      ∀ (E : Env) (iocb : Kiocb) (iter : IovIter), Zeroed E →
        (m.inodes iocb.inode).iFop = some .file →
        Guarded (machine volumeDisk E) Fits (writeOneBlock iocb iter) m →
        (FailureLeavesFile E m (m.inodes iocb.inode).iIno iocb iter ↔
          NoHelperFails E m iocb iter) := by
  obtain ⟨as, ⟨m, intact⟩, hrun, a, follows, inv⟩ := sys_run clock uid gid groups now calls
  refine ⟨as, m, intact, hrun, fun E iocb iter zeroed hfile room => ?_⟩
  rw [follows.inodes] at hfile
  obtain ⟨b, file⟩ := fileInode_of_live inv hfile
  rw [follows.inodes]
  exact failureLeavesFile_iff follows zeroed (inv.stored (Or.inr hfile)).1 file.valid file.forest
    file.inode file.isInode room

/-- Memory runs out at the `t`-th request. -/
def outOfMemoryAt (t : Nat) : Env where
  heap := fun i => if i = t then none else some zeros
  stack := fun _ => zeros
  clock := fun _ => ⟨0, 0⟩

theorem zeroed_outOfMemoryAt (t : Nat) : Zeroed (outOfMemoryAt t) := by
  intro i b hb
  simp only [outOfMemoryAt] at hb
  split at hb
  · cases hb
  · exact (Option.some.inj hb).symm

/-- A new file, and no memory for the block of `write_one_block` itself. -/
theorem failed_write_gives_up : ∃ m intact,
    run (notedSysStep fun _ => ⟨0, 0⟩) newFileRun (firstMounted 0 0 0 ⟨0, 0⟩, true) =
      some ([(0, 1)], m, intact) ∧
    (FailureLeavesFile (outOfMemoryAt (m.tick + 1)) m (m.inodes 1).iIno ⟨1, false, 0⟩ ⟨[7], 1⟩ ↔
      NoHelperFails (outOfMemoryAt (m.tick + 1)) m ⟨1, false, 0⟩ ⟨[7], 1⟩) := by
  obtain ⟨as, m, intact, hrun, hiff⟩ := failed_write_leaves_file_iff (fun _ => ⟨0, 0⟩) 0 0 0 ⟨0, 0⟩
    newFileRun (by decide +kernel)
  have hcall : ∃ r, run (notedSysStep fun _ => ⟨0, 0⟩) newFileRun
      (firstMounted 0 0 0 ⟨0, 0⟩, true) = some r ∧ r.1 = [(0, 1)] ∧
      (r.2.1.inodes 1).iFop = some .file ∧
      Guarded (machine volumeDisk (outOfMemoryAt (r.2.1.tick + 1))) Fits
        (writeOneBlock ⟨1, false, 0⟩ ⟨[7], 1⟩) r.2.1 := by
    decide +kernel
  obtain ⟨r, hrun', hret, hfile, room⟩ := hcall
  obtain rfl := Option.some.inj (hrun'.symm.trans hrun)
  simp only at hret hfile room
  subst hret
  exact ⟨m, intact, hrun, hiff _ ⟨1, false, 0⟩ ⟨[7], 1⟩ (zeroed_outOfMemoryAt _) hfile room⟩

/-- The buffer of a write to a new file cannot be read: the call returns `-EFAULT` and
moves the position, and with it the end of the file, to -14. -/
theorem failed_write_moves_end : ∃ as m intact,
    EachCall (notedSysStep fun _ => ⟨0, 0⟩) (Admissible fun _ => ⟨0, 0⟩) newFileRun
      (firstMounted 0 0 0 ⟨0, 0⟩, true) ∧
    run (notedSysStep fun _ => ⟨0, 0⟩) newFileRun (firstMounted 0 0 0 ⟨0, 0⟩, true) =
      some (as, m, intact) ∧
    (m.inodes 1).iFop = some .file ∧
    Guarded (machine volumeDisk (zeroFilled fun _ => ⟨0, 0⟩)) Fits
      (writeOneBlock ⟨1, false, 0⟩ ⟨[7], 0⟩) m ∧
    ¬ FailureLeavesFile (zeroFilled fun _ => ⟨0, 0⟩) m (m.inodes 1).iIno ⟨1, false, 0⟩
      ⟨[7], 0⟩ := by
  have hcall : ∃ r, run (notedSysStep fun _ => ⟨0, 0⟩) newFileRun
      (firstMounted 0 0 0 ⟨0, 0⟩, true) = some r ∧
      (r.2.1.inodes 1).iFop = some .file ∧
      Guarded (machine volumeDisk (zeroFilled fun _ => ⟨0, 0⟩)) Fits
        (writeOneBlock ⟨1, false, 0⟩ ⟨[7], 0⟩) r.2.1 ∧
      ∃ r', exec (machine volumeDisk (zeroFilled fun _ => ⟨0, 0⟩))
          (writeOneBlock ⟨1, false, 0⟩ ⟨[7], 0⟩) r.2.1 = .done r' ∧
        r'.1.1 = -14 ∧ r'.1.2.1.kiPos = -14 := by
    decide +kernel
  obtain ⟨⟨as, m, intact⟩, hrun, hfile, room, ⟨r', m'⟩, hexec, hret, hpos⟩ := hcall
  refine ⟨as, m, intact, by decide +kernel, hrun, hfile, room, ?_⟩
  rintro ⟨r'', m'', hexec', h⟩
  obtain ⟨rfl, rfl⟩ := Prod.mk.inj (Outcome.done.inj (hexec.symm.trans hexec'))
  simp only at hret hpos
  have hsame := (h (by omega)).pos
  rw [hpos] at hsame
  cases hsame

end FailedWrites
