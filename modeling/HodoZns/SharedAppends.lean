import Mathlib.Algebra.BigOperators.Ring.Finset
import HodoZns.FileViews
import HodoZns.Interleavings

/-!
# Appends to one file by several tasks

Each read and write of a block and each read and update of `i_size` is a step of
its own, and no lock is taken. As long as no task reads the inode while another
one is between that read and its update of `i_size`, all that was appended is in
the file. Otherwise an append can be lost.
-/

namespace SharedAppends

open ByteBlock Layout BlockLog ZoneLog LogStore CallRuns Programs Kernel StoreMachine FileBlocks
  BlockForest
open BlockFields TreeWrites FileWrites Operations VolumeMachine FsRuns Ownership FileContents
open FileReads Erasures TreeCalls SystemRuns FileViews Interleavings

/-- A section of `write_one_block` begins with the read of the inode. -/
def opensSection : Cmd → Bool
  | .startingNumber | .kmalloc | .auto | .now | .inode _ => false
  | _ => true

/-- It ends with `i_size_write`. -/
def closesSection : Cmd → Bool
  | .setInode _ _ => true
  | _ => false

section Shuffles

variable {ι : Type} [DecidableEq ι]

/-- What the task `i` has to do with a history of bytes. -/
def part (h : List (ι × UInt8)) (i : ι) : List UInt8 :=
  (h.filter fun x => x.1 = i).map Prod.snd

/-- `data` is made of the buffers, each of them in order. -/
def Shuffles (buffers : ι → List UInt8) (data : List UInt8) : Prop :=
  ∃ h : List (ι × UInt8), h.map Prod.snd = data ∧ ∀ i, part h i = buffers i

theorem part_append (h h' : List (ι × UInt8)) (i : ι) :
    part (h ++ h') i = part h i ++ part h' i := by
  rw [part, List.filter_append, List.map_append]
  rfl

theorem part_own (i : ι) (bytes : List UInt8) : part (bytes.map fun b => (i, b)) i = bytes := by
  rw [part, List.filter_eq_self.mpr, List.map_map]
  · exact List.map_id bytes
  · intro x hx
    obtain ⟨b, _, rfl⟩ := List.mem_map.mp hx
    exact decide_eq_true rfl

theorem part_other {i j : ι} (hne : j ≠ i) (bytes : List UInt8) :
    part (bytes.map fun b => (i, b)) j = [] := by
  rw [part, List.filter_eq_nil_iff.mpr, List.map_nil]
  intro x hx
  obtain ⟨b, _, rfl⟩ := List.mem_map.mp hx
  exact fun h => hne (of_decide_eq_true h).symm

theorem length_eq_sum_part [Fintype ι] (h : List (ι × UInt8)) :
    h.length = ∑ i, (part h i).length := by
  induction h with
  | nil => exact (Finset.sum_const_zero).symm
  | cons x h ih =>
    have hpart : ∀ i,
        (part (x :: h) i).length = (if x.1 = i then 1 else 0) + (part h i).length := by
      intro i
      simp only [part, List.filter_cons]
      by_cases hx : x.1 = i
      · simp only [hx, decide_true, if_true, List.map_cons, List.length_cons]
        omega
      · simp only [hx, decide_false, Bool.false_eq_true, if_false, Nat.zero_add]
    simp only [hpart, Finset.sum_add_distrib, Finset.sum_ite_eq, Finset.mem_univ, if_true, ← ih,
      List.length_cons]
    omega

theorem Shuffles.length [Fintype ι] {buffers : ι → List UInt8} {data : List UInt8}
    (h : Shuffles buffers data) : data.length = ∑ i, (buffers i).length := by
  obtain ⟨history, rfl, hparts⟩ := h
  rw [List.length_map, length_eq_sum_part]
  simp only [hparts]

end Shuffles

/-- A task whose buffer is appended up to `total`. -/
structure Remaining (ref : Nat) (whole : IovIter) (done : List UInt8) (turns total : Nat)
    (iocb : Kiocb) (rest : IovIter) : Prop where
  done : done = whole.bytes.take total
  rest : rest.bytes = whole.bytes.drop total
  total_le : total ≤ whole.count
  enough : whole.count < total + turns
  inode : iocb.inode = ref
  append : iocb.append = true

section Sections

variable {ι : Type} [DecidableEq ι]

/-- The file under `n`, as the tasks share it: `old` is there, and then what they have
appended. -/
def sharedFile (clock : Nat → Timespec) (ref n : Nat) (old : List UInt8) (iter : ι → IovIter) :
    Resource Cmd Cmd.Reply (Int × Kiocb × IovIter) (Machine Store) ι (List (ι × UInt8))
      (List UInt8) where
  handler := plain storeDisk clock
  opens := opensSection
  closes := closesSection
  Command := Writing ref
  Alike := Unchanged
  Fixed a := (a.inodes ref).iIno = n ∧ a.disk.base ≤ n ∧ n < 2 ^ 32
  Inv h a := FileAt a ref n ∧ (viewAt a ref n).bytes = old ++ h.map Prod.snd ∧
    (viewAt a ref n).size = (viewAt a ref n).len
  part := part
  Behind i done p := ∃ turns total iocb rest,
    p = writeBlocks (iter i).count turns total iocb rest ∧
      Remaining ref (iter i) done turns total iocb rest
  End i done _ := done = (iter i).bytes
  Fails r := r.1 < 0

theorem open_of_storing {α : Type} {p : Program α} (hp : p.Only Storing) :
    p.Only fun c => closesSection c = false :=
  hp.mono fun c hc => by
    cases c with
    | setInode ref f => exact hc.elim
    | _ => rfl

theorem oneSection_writeStored (iocb : Kiocb) (iter : IovIter) (n : Nat) (stack : Block) :
    OneSection closesSection (fun r => r.1 < 0) (writeStored iocb iter n stack) := by
  refine oneSection_bind (open_of_storing (storing_hodoRead _ _)) fun inode => ?_
  refine oneSection_bind ?_ fun iocb => ?_
  · exact only_ite (only_bind (only_cmd rfl) fun _ => only_pure _ _) (only_pure _ _)
  refine oneSection_bind (p := kmalloc) (only_cmd rfl) fun block => ?_
  cases block with
  | none => exact show eNoMem < 0 by decide
  | some block =>
    simp only
    cases fieldOf (dataBlockIndex iocb) with
    | none => exact show eFBig < 0 by decide
    | some f =>
      refine oneSection_bind (open_of_storing (storing_readOrMake _ _ _)) fun block => ?_
      refine oneSection_bind (open_of_storing (storing_field _ _ _ _ _)) fun r => ?_
      refine oneSection_bind (open_of_storing (storing_hodoWrite _ _)) fun _ => ?_
      exact fun _ => ⟨_, rfl⟩

end Sections

section Laws

variable {ι : Type} [DecidableEq ι] {clock : Nat → Timespec} {ref n : Nat} {a a' : Machine Store}
  {c : Cmd}

theorem base_of_put {s s' : Store} {b b' : Block} {L : Nat}
    (hput : s.put b n = some (L, b', s')) : s'.base = s.base := by
  have hchoose : ∀ {L s₁}, s.choose n = some (L, s₁) → s₁.base = s.base := by
    intro L s₁ h
    rw [Store.choose] at h
    split at h
    case isTrue =>
      split at h
      case isTrue => cases h
      case isFalse hfull =>
        rw [Store.next, if_neg hfull] at h
        exact congrArg (fun r => r.2.base) (Option.some.inj h).symm
    case isFalse =>
      split at h
      case isTrue => exact congrArg (fun r => r.2.base) (Option.some.inj h).symm
      case isFalse => cases h
  rw [Store.put] at hput
  split at hput
  case h_1 => cases hput
  case h_2 L₁ s₁ hs =>
    split at hput
    case isTrue =>
      rw [← hchoose hs]
      exact congrArg (fun r => r.2.2.base) (Option.some.inj hput).symm
    case isFalse => cases hput

theorem rel_map {α : Type} (alike : Unchanged a a') (o : Outcome (α × Store)) :
    Outcome.Rel Unchanged (o.map fun r => (r.1, a.setDisk r.2))
      (o.map fun r => (r.1, a'.setDisk r.2)) := by
  cases o with
  | done r => exact ⟨rfl, rfl, alike.inodes, alike.inodeCount⟩
  | noRoom => trivial
  | stuck => trivial

/-- The commands of a write do not look at the clock. -/
theorem writing_alike (hc : Writing ref c) (alike : Unchanged a a') :
    Outcome.Rel Unchanged (plain storeDisk clock c a) (plain storeDisk clock c a') := by
  cases c with
  | read n buf =>
    simp only [machine, alike.disk]
    exact rel_map alike _
  | write buf n =>
    simp only [machine, alike.disk]
    exact rel_map alike _
  | kmalloc => exact ⟨rfl, alike.disk, alike.inodes, alike.inodeCount⟩
  | auto => exact ⟨rfl, alike.disk, alike.inodes, alike.inodeCount⟩
  | inode r => exact ⟨by rw [alike.inodes], alike⟩
  | setInode r f =>
    refine ⟨rfl, alike.disk, ?_, alike.inodeCount⟩
    simp only [alike.inodes]
  | _ => exact hc.elim

/-- Nor do they change the number of an inode. -/
theorem writing_fixed {r : c.Reply} (hc : Writing ref c)
    (hstep : plain storeDisk clock c a = .done (r, a')) :
    a'.disk.base = a.disk.base ∧ ∀ i, (a'.inodes i).iIno = (a.inodes i).iIno := by
  cases c with
  | read n buf =>
    simp only [machine, storeDisk] at hstep
    split at hstep
    case h_1 =>
      obtain ⟨_, rfl⟩ := Prod.mk.inj (Outcome.done.inj hstep)
      exact ⟨rfl, fun _ => rfl⟩
    case h_2 => cases hstep
  | write buf n =>
    simp only [machine, storeDisk] at hstep
    split at hstep
    case isTrue => cases hstep
    case isFalse =>
      split at hstep
      case h_1 L b s' hput =>
        obtain ⟨_, rfl⟩ := Prod.mk.inj (Outcome.done.inj hstep)
        exact ⟨base_of_put hput, fun _ => rfl⟩
      case h_2 => cases hstep
  | kmalloc =>
    obtain ⟨_, rfl⟩ := Prod.mk.inj (Outcome.done.inj hstep)
    exact ⟨rfl, fun _ => rfl⟩
  | auto =>
    obtain ⟨_, rfl⟩ := Prod.mk.inj (Outcome.done.inj hstep)
    exact ⟨rfl, fun _ => rfl⟩
  | inode r =>
    obtain ⟨_, rfl⟩ := Prod.mk.inj (Outcome.done.inj hstep)
    exact ⟨rfl, fun _ => rfl⟩
  | setInode r' f =>
    obtain ⟨_, rfl⟩ := Prod.mk.inj (Outcome.done.inj hstep)
    refine ⟨rfl, fun i => ?_⟩
    by_cases hi : i = r'
    · simp only [hi, update_same, hc.2]
    · simp only [update_other _ _ hi]
  | _ => exact hc.elim

theorem FileAt.alike (file : FileAt a ref n) (alike : Unchanged a a') : FileAt a' ref n :=
  ⟨alike.disk ▸ file.valid, alike.disk ▸ file.forest, by rw [alike.inodes, file.ino],
    by rw [alike.disk]; exact file.inode⟩

theorem viewAt_alike (alike : Unchanged a a') : viewAt a' ref n = viewAt a ref n := by
  rw [viewAt, alike.disk, alike.inodes, viewAt]

/-- A size that is the length is the position of an append. -/
theorem request_append {v : View} {iocb : Kiocb} (append : iocb.append = true)
    (size : v.size = v.len) : (v.request iocb).kiPos = v.len := by
  rw [View.request, if_pos append, size]

theorem small_of_field {v : View} {iocb : Kiocb} (hpos : iocb.kiPos = v.len)
    (hlt : v.len < 2 ^ 64) (field : fieldOf (dataBlockIndex iocb) ≠ none) :
    v.len + hodoDataSize < 2 ^ 64 := by
  rw [ne_eq, fieldOf_eq_none, dataBlockIndex, hpos, u64_ofNat hlt] at field
  simp only [blocksPerFile_eq, hodoDataSize_eq] at field ⊢
  omega

theorem len_lt (file : FileAt a ref n) : (viewAt a ref n).len < 2 ^ 64 := by
  obtain ⟨b, hn, _⟩ := file.inode
  simp only [viewAt, viewOf, storedLen_eq hn]
  exact getLE_lt b _ 8

end Laws

section Turns

variable {ι : Type} [DecidableEq ι] {clock : Nat → Timespec} {ref n : Nat} {old : List UInt8}
  {iter : ι → IovIter} {i : ι} {done : List UInt8}

theorem Remaining.count {whole rest : IovIter} {turns total : Nat} {iocb : Kiocb}
    (h : Remaining ref whole done turns total iocb rest) : rest.count = whole.count - total := by
  rw [IovIter.count, h.rest, List.length_drop, IovIter.count]

/-- A piece is appended. -/
theorem Remaining.advance {whole rest : IovIter} {turns total : Nat} {iocb iocb' : Kiocb}
    (h : Remaining ref whole done (turns + 1) total iocb rest) (hlt : total < whole.count)
    (hinode : iocb'.inode = ref) (happend : iocb'.append = true) :
    Remaining ref whole (done ++ rest.bytes.take (pieceLen iocb' rest)) turns
      (total + pieceLen iocb' rest) { iocb' with kiPos := iocb'.kiPos + pieceLen iocb' rest }
      (IovIter.advance rest (pieceLen iocb' rest)) := by
  have hcount := h.count
  have hle : pieceLen iocb' rest ≤ rest.count := pieceLen_le iocb' rest
  have hpos := pieceLen_pos iocb' (show 0 < rest.count by omega)
  have henough := h.enough
  refine ⟨?_, ?_, by omega, by omega, hinode, happend⟩
  · rw [h.done, h.rest, List.take_add]
  · rw [IovIter.advance, h.rest, List.drop_drop]

/-- The piece of the task `i` is behind all that was there. -/
theorem inv_put {a a' : Machine Store} {g : List (ι × UInt8)} {iocb : Kiocb} {rest : IovIter}
    (inv : (sharedFile clock ref n old iter).Inv g a) (file' : FileAt a' ref n)
    (hpos : iocb.kiPos = (viewAt a ref n).len) (field : fieldOf (dataBlockIndex iocb) ≠ none)
    (hview : viewAt a' ref n = (viewAt a ref n).put iocb rest) :
    (sharedFile clock ref n old iter).Inv
      (g ++ (rest.bytes.take (pieceLen iocb rest)).map fun b => (i, b)) a' := by
  obtain ⟨file, hbytes, _⟩ := inv
  have hsmall := small_of_field hpos (len_lt file) field
  refine ⟨file', ?_, ?_⟩
  · rw [hview, bytes_put hpos hsmall, hbytes, List.append_assoc, List.map_append, List.map_map]
    exact congrArg (fun l => old ++ (g.map Prod.snd ++ l)) (List.map_id _).symm
  · have hpiece : pieceLen iocb rest ≤ hodoDataSize := by
      rw [pieceLen]
      omega
    rw [hview]
    change iocb.kiPos + pieceLen iocb rest = (u64 (iocb.kiPos + pieceLen iocb rest) : Nat)
    rw [hpos, ← Int.natCast_add, u64_ofNat (by omega)]

/-- A turn of the loop is one section, which appends a piece of the task's buffer. -/
theorem inside_turn {turns total : Nat} {iocb : Kiocb} {rest : IovIter} {g : List (ι × UInt8)}
    {a : Machine Store} (remaining : Remaining ref (iter i) done (turns + 1) total iocb rest)
    (hlt : total < (iter i).count) (hpart : part g i = done)
    (inv : (sharedFile clock ref n old iter).Inv g a) :
    (sharedFile clock ref n old iter).Inside i g (do
      let r ← writeStored iocb rest n zeros
      if r.1 < 0 then pure r
      else writeBlocks (iter i).count turns (total + r.1.toNat) r.2.1 r.2.2) a := by
  have hcount := remaining.count
  constructor
  · refine Prog.Within.only (Q := fun _ => True)
      (within_bind (writing_writeStored rest n zeros remaining.inode) fun r hr =>
        within_of_only ?_)
    exact only_ite (only_pure _ _) (writing_writeBlocks _ _ _ _ hr)
  refine toClose_bind (oneSection_writeStored iocb rest n zeros)
    (wp_writeStored_view inv.1 remaining.inode (by omega)) ?_ ?_
  · rintro r a' - fails
    rw [if_pos fails]
    exact fails
  · rintro r a' ⟨file', stepped⟩
    have hpos := request_append remaining.append inv.2.2
    have hinode := (request_inode (viewAt a ref n) iocb).trans remaining.inode
    have happend : ((viewAt a ref n).request iocb).append = true := by
      rw [View.request, if_pos remaining.append]
      exact remaining.append
    generalize (viewAt a ref n).request iocb = iocb' at stepped hpos hinode happend
    generalize hview : viewAt a' ref n = v' at stepped
    cases stepped with
    | tooBig => exact Or.inl ⟨_, rfl, show eFBig < 0 by decide⟩
    | fault => exact Or.inl ⟨_, rfl, show eFault < 0 by decide⟩
    | written field =>
      rw [if_neg (show ¬ (pieceLen iocb' rest : Int) < 0 by omega)]
      refine Or.inr ⟨_, inv_put (i := i) inv file' hpos field hview, fun j hj => ?_,
        turns, total + pieceLen iocb' rest, _, _, rfl, ?_⟩
      · change part _ j = part g j
        rw [part_append, part_other hj, List.append_nil]
      · change Remaining ref (iter i) (part _ i) _ _ _ _
        rw [part_append, part_own, hpart]
        exact remaining.advance hlt hinode happend

theorem outside_behind {p : Program (Int × Kiocb × IovIter)}
    (behind : (sharedFile clock ref n old iter).Behind i done p) :
    (sharedFile clock ref n old iter).Outside i done p := by
  obtain ⟨turns, total, iocb, rest, rfl, remaining⟩ := behind
  have htotal := remaining.total_le
  have henough := remaining.enough
  cases turns with
  | zero => omega
  | succ turns =>
    rw [FileBlocks.writeBlocks]
    by_cases hlt : total < (iter i).count
    · rw [if_pos hlt]
      refine Resource.outside_of_quiet rfl fun a fixed => ⟨_, a, rfl, Unchanged.refl a, ?_⟩
      refine Resource.outside_of_quiet rfl fun a' _ =>
        ⟨_, Machine.later a', rfl, unchanged_later a', ?_⟩
      have hnumber : (a.inodes iocb.inode).iIno % 2 ^ 32 = n := by
        rw [remaining.inode, fixed.1, Nat.mod_eq_of_lt fixed.2.2]
      rw [hnumber]
      refine Resource.outside_of_opens rfl fun g t hpart inv => ?_
      exact inside_turn remaining hlt hpart inv
    · rw [if_neg hlt]
      have hall : total = (iter i).count := by omega
      refine Or.inr (remaining.done.trans ?_)
      rw [hall, IovIter.count, List.take_length]

theorem lawful_sharedFile : (sharedFile clock ref n old iter).Lawful where
  opens_of_closes {c} hcloses := by
    cases c with
    | setInode r f => rfl
    | _ => cases hcloses
  alike := writing_alike
  command_fixed hc fixed hstep := by
    obtain ⟨hbase, hino⟩ := writing_fixed hc hstep
    exact ⟨(hino ref).trans fixed.1, hbase ▸ fixed.2.1, fixed.2.2⟩
  alike_fixed alike fixed :=
    ⟨by rw [alike.inodes]; exact fixed.1, by rw [alike.disk]; exact fixed.2.1, fixed.2.2⟩
  alike_inv alike inv := by
    obtain ⟨file, hbytes, hsize⟩ := inv
    refine ⟨FileAt.alike file alike, ?_⟩
    rw [viewAt_alike alike]
    exact ⟨hbytes, hsize⟩
  fixed_of_inv inv := by
    obtain ⟨file, _⟩ := inv
    obtain ⟨b, hn, _⟩ := file.inode
    have hused := file.valid.used hn
    exact ⟨file.ino, hused.1, file.valid.number_lt hused⟩
  goesOn := outside_behind

/-- The call itself, before its first turn. -/
theorem outside_start (zonefs : Kiocb → IovIter → Program (Int × Kiocb × IovIter)) {iocb : Kiocb}
    (hinode : iocb.inode = ref) (happend : iocb.append = true) :
    (sharedFile clock ref n old iter).Outside i [] (hodoFileWriteIter zonefs iocb (iter i)) := by
  refine Resource.outside_of_quiet rfl fun a fixed => ⟨_, a, rfl, Unchanged.refl a, ?_⟩
  refine Resource.outside_of_quiet rfl fun a' fixed' => ⟨_, a', rfl, Unchanged.refl a', ?_⟩
  have own : ¬ (a.inodes iocb.inode).iIno < a'.disk.base := by
    rw [hinode, fixed.1]
    exact Nat.not_lt.mpr fixed'.2.1
  change (sharedFile clock ref n old iter).Outside i []
    (if (a.inodes iocb.inode).iIno < a'.disk.base then zonefs iocb (iter i)
    else hodoSubFileWriteIter iocb (iter i))
  rw [if_neg own]
  exact outside_behind ⟨(iter i).count + 1, 0, iocb, iter i, rfl, rfl, rfl, Nat.zero_le _,
    by omega, hinode, happend⟩

end Turns

section Runs

variable {ι : Type} [DecidableEq ι]

/-- Calls of `hodo_file_write_iter`, one for each task. -/
def appendTasks (zonefs : Kiocb → IovIter → Program (Int × Kiocb × IovIter)) (iocb : ι → Kiocb)
    (iter : ι → IovIter) (m : Machine Volume) :
    Tasks Cmd Cmd.Reply (Int × Kiocb × IovIter) (Machine Volume) ι :=
  ⟨m, fun i => hodoFileWriteIter zonefs (iocb i) (iter i)⟩

/-- A step of a task, with a note of the task that is in a section. -/
def sharedStep (clock : Nat → Timespec) :
    Tasks Cmd Cmd.Reply (Int × Kiocb × IovIter) (Machine Volume) ι × Option ι → ι →
      Option (Cmd × (Tasks Cmd Cmd.Reply (Int × Kiocb × IovIter) (Machine Volume) ι × Option ι)) :=
  sectionStep (machine volumeDisk (zeroFilled clock)) opensSection closesSection

/-- The step reads no inode for a write while another task is writing, and numbers and room do
not run out. -/
def Apart (s : Tasks Cmd Cmd.Reply (Int × Kiocb × IovIter) (Machine Volume) ι × Option ι) (i : ι) :
    Prop :=
  Excludes opensSection Fits s i

instance (s : Tasks Cmd Cmd.Reply (Int × Kiocb × IovIter) (Machine Volume) ι × Option ι) (i : ι) :
    Decidable (Apart s i) :=
  inferInstanceAs (Decidable (Excludes _ _ _ _))

/-- The file has grown by the buffers, each of them in order. -/
structure AllKept [Fintype ι] (c c' : Nat → Option Block) (n : Nat) (buffers : ι → List UInt8) :
    Prop where
  length : storedLen c' n = storedLen c n + ∑ i, (buffers i).length
  bytes : ∃ data, Shuffles buffers data ∧ storedBytes c' n = storedBytes c n ++ data

theorem length_storedBytes (c : Nat → Option Block) (n : Nat) :
    (storedBytes c n).length = storedLen c n := by
  rw [storedBytes, List.length_map, List.length_range]

/-- What is appended by any number of tasks is all in the file once they have returned
success, in every interleaving in which no two writes of a block overlap. -/
theorem appends_all_kept [Fintype ι] (clock : Nat → Timespec) (uid gid groups : Nat)
    (now : Timespec) (cs : List SysCall)
    (calls : EachCall (notedSysStep clock) (Admissible clock) cs
      (firstMounted uid gid groups now, true)) :
    ∃ as m intact, run (notedSysStep clock) cs (firstMounted uid gid groups now, true) =
      some (as, m, intact) ∧
      ∀ (zonefs : Kiocb → IovIter → Program (Int × Kiocb × IovIter)) (ref : Nat)
        (iocb : ι → Kiocb) (iter : ι → IovIter) (schedule : List ι),
        (m.inodes ref).iFop = some .file →
        (m.inodes ref).iSize = storedLen (onDisk m.disk) (m.inodes ref).iIno →
        (∀ i, (iocb i).inode = ref ∧ (iocb i).append = true) →
        EachCall (sharedStep clock) Apart schedule (appendTasks zonefs iocb iter m, none) →
        ∀ given t holder,
          run (sharedStep clock) schedule (appendTasks zonefs iocb iter m, none) =
            some (given, t, holder) →
          (∀ i, ∃ r, t.answer i = some r ∧ 0 ≤ r.1) →
          AllKept (onDisk m.disk) (onDisk t.state.disk) (m.inodes ref).iIno
            fun i => (iter i).bytes := by
  obtain ⟨as, ⟨m, intact⟩, hrun, a, follows, inv⟩ := sys_run clock uid gid groups now calls
  refine ⟨as, m, intact, hrun, ?_⟩
  intro zonefs ref iocb iter schedule hfile hsize appending apart given t holder hsteps returned
  rw [follows.inodes] at hfile hsize ⊢
  have file := fileAt_of_live inv hfile
  generalize (a.inodes ref).iIno = n at file hsize ⊢
  have hbytes := storedBytes_of_follows follows file
  have start : (sharedFile clock ref n (viewAt a ref n).bytes iter).Inv [] a := by
    refine ⟨file, (List.append_nil _).symm, ?_⟩
    change (a.inodes ref).iSize = (viewOf a.disk.content (a.inodes ref).iSize n).len
    rw [hsize, ← viewOf_of_follows follows file]
    rfl
  have steady : Steady (sharedFile clock ref n (viewAt a ref n).bytes iter) (Follows intact)
      (appendTasks zonefs iocb iter m, none) := by
    refine Or.inr ⟨[], a, follows, lawful_sharedFile.fixed_of_inv start, fun i _ => ?_,
      fun _ => start, fun i hi => absurd hi (Option.some_ne_none i).symm⟩
    exact outside_start zonefs (appending i).1 (appending i).2
  obtain ⟨g, a', follows', ⟨file', hgrown, _⟩, parts⟩ := parts_done
    (steady_run lawful_sharedFile (command_follows (zeroFilled clock)) steady apart hsteps)
    fun i => by
      obtain ⟨r, hr, hsuccess⟩ := returned i
      exact ⟨r, hr, Int.not_lt.mpr hsuccess⟩
  have shuffles : Shuffles (fun i => (iter i).bytes) (g.map Prod.snd) := by
    refine ⟨g, rfl, fun i => ?_⟩
    obtain ⟨r, hr, _⟩ := returned i
    exact parts i r hr
  rw [← hbytes, ← storedBytes_of_follows follows' file'] at hgrown
  refine ⟨?_, g.map Prod.snd, shuffles, hgrown⟩
  rw [← shuffles.length, ← length_storedBytes, hgrown, List.length_append, length_storedBytes]

end Runs

/-- A file whose first block has room for one more byte. -/
def almostFullRun : List SysCall :=
  [.call (.create ⟨0, 0⟩ rootRef [97] 0o644), .call (.write ⟨1, false, 4086⟩ ⟨[9], 1⟩)]

/-- Two bytes, of which the second comes into the next block, and a third one. -/
def twoBuffers (i : Fin 2) : IovIter := if i = 0 then wholeIter [1, 2] else wholeIter [3]

/-- The second task gets ready while the first one writes its first byte, and writes before
the first one goes on. -/
def takingTurns : List (Fin 2) :=
  List.replicate 5 0 ++ List.replicate 4 1 ++ List.replicate 9 0 ++ List.replicate 7 1 ++
    List.replicate 8 0

theorem taking_turns_kept : ∃ as m intact given t holder,
    run (notedSysStep fun _ => ⟨0, 0⟩) almostFullRun (firstMounted 0 0 0 ⟨0, 0⟩, true) =
      some (as, m, intact) ∧
    run (sharedStep fun _ => ⟨0, 0⟩) takingTurns
      (appendTasks noZonefs (fun _ => ⟨1, true, 0⟩) twoBuffers m, none) =
        some (given, t, holder) ∧
    AllKept (onDisk m.disk) (onDisk t.state.disk) (m.inodes 1).iIno
      fun i => (twoBuffers i).bytes := by
  obtain ⟨as, m, intact, hrun, hkept⟩ := appends_all_kept (ι := Fin 2) (fun _ => ⟨0, 0⟩) 0 0 0
    ⟨0, 0⟩ almostFullRun (by decide +kernel)
  have hcall : ∃ r, run (notedSysStep fun _ => ⟨0, 0⟩) almostFullRun
        (firstMounted 0 0 0 ⟨0, 0⟩, true) = some r ∧ (r.2.1.inodes 1).iFop = some .file ∧
      (r.2.1.inodes 1).iSize = storedLen (onDisk r.2.1.disk) (r.2.1.inodes 1).iIno ∧
      EachCall (sharedStep fun _ => ⟨0, 0⟩) Apart takingTurns
        (appendTasks noZonefs (fun _ => ⟨1, true, 0⟩) twoBuffers r.2.1, none) ∧
      ∃ r', run (sharedStep fun _ => ⟨0, 0⟩) takingTurns
          (appendTasks noZonefs (fun _ => ⟨1, true, 0⟩) twoBuffers r.2.1, none) = some r' ∧
        ∀ i, ∃ r, r'.2.1.answer i = some r ∧ 0 ≤ r.1 := by
    decide +kernel
  obtain ⟨r, hrun', hfile, hsize, apart, ⟨given, t, holder⟩, hsteps, returned⟩ := hcall
  obtain rfl := Option.some.inj (hrun'.symm.trans hrun)
  exact ⟨as, m, intact, given, t, holder, hrun, hsteps,
    hkept noZonefs 1 (fun _ => ⟨1, true, 0⟩) twoBuffers takingTurns hfile hsize
      (fun _ => ⟨rfl, rfl⟩) apart given t holder hsteps returned⟩

/-- Both tasks have read `i_size` before one of them updates it. -/
def overlapping : List (Fin 2) :=
  List.replicate 6 0 ++ List.replicate 6 1 ++ List.replicate 5 0 ++ List.replicate 5 1

/-- Two appends of one byte to a new file: both return success, and one byte is there. -/
theorem append_lost : ∃ as m intact given t,
    run (notedSysStep fun _ => ⟨0, 0⟩) [.call (.create ⟨0, 0⟩ rootRef [97] 0o644)]
      (firstMounted 0 0 0 ⟨0, 0⟩, true) = some (as, m, intact) ∧
    run (taskStep (machine volumeDisk (zeroFilled fun _ => ⟨0, 0⟩))) overlapping
      (appendTasks noZonefs (fun _ => ⟨1, true, 0⟩)
        (fun i : Fin 2 => wholeIter (if i = 0 then [7] else [8])) m) = some (given, t) ∧
    (∀ i, ∃ r, t.answer i = some r ∧ r.1 = 1) ∧
    storedLen (onDisk m.disk) (m.inodes 1).iIno = 0 ∧
    storedBytes (onDisk t.state.disk) (m.inodes 1).iIno = [8] := by
  have hcall : ∃ r, run (notedSysStep fun _ => ⟨0, 0⟩)
        [.call (.create ⟨0, 0⟩ rootRef [97] 0o644)] (firstMounted 0 0 0 ⟨0, 0⟩, true) = some r ∧
      storedLen (onDisk r.2.1.disk) (r.2.1.inodes 1).iIno = 0 ∧
      ∃ r', run (taskStep (machine volumeDisk (zeroFilled fun _ => ⟨0, 0⟩))) overlapping
          (appendTasks noZonefs (fun _ => ⟨1, true, 0⟩)
            (fun i : Fin 2 => wholeIter (if i = 0 then [7] else [8])) r.2.1) = some r' ∧
        (∀ i, ∃ r, r'.2.answer i = some r ∧ r.1 = 1) ∧
        storedBytes (onDisk r'.2.state.disk) (r.2.1.inodes 1).iIno = [8] := by
    decide +kernel
  obtain ⟨⟨as, m, intact⟩, hrun, hlen, ⟨given, t⟩, hsteps, hanswers, hbytes⟩ := hcall
  exact ⟨as, m, intact, given, t, hrun, hsteps, hanswers, hlen, hbytes⟩

end SharedAppends
