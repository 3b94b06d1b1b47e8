import HodoZns.Emptiness

/-!
# Listing a directory in pieces

`hodo_sub_readdir` is called again and again, each time with a buffer of its own,
and goes on where the last call left its position. The position is moved behind
every entry, also behind one that the buffer did not take. So nothing is lost only
if one buffer takes all the entries.
-/

namespace Listings

open ByteBlock Layout BlockLog ZoneLog LogCalls CallRuns LogStore Programs Kernel StoreMachine
  FileBlocks
open BlockForest Directories Operations DirectoryWrites VolumeMachine FsRuns Soundness Ownership
open FileContents FileReads DirectoryBlocks DirectoryMaps DirectoryRuns Erasures Trees TreeCalls
open SystemRuns Emptiness

/-- `dir_emit` of one of the dots; when the buffer takes it the position is moved. -/
def emitDot (pos : Nat) (e : Emitted) (ctx : DirContext) : DirContext × Bool :=
  match ctx.room with
  | 0 => (ctx, false)
  | room + 1 => ({ pos := pos, room := room, emitted := ctx.emitted ++ [e] }, true)

def dotEntry (number : Nat) : Emitted := ⟨[chr '.'], number, true⟩
def dotDotEntry (number : Nat) : Emitted := ⟨[chr '.', chr '.'], number, true⟩

/-- For a directory and its parent with these numbers. -/
def dirEmitDots (number parent : Nat) (ctx : DirContext) : DirContext × Bool :=
  let (ctx, taken) :=
    if ctx.pos = 0 then emitDot 1 (dotEntry number) ctx else (ctx, true)
  if taken then
    if ctx.pos = 1 then emitDot 2 (dotDotEntry parent) ctx else (ctx, true)
  else (ctx, false)

/-- `parent` is the number of the inode of the parent's dentry. -/
def hodoSubReaddir (inode parent : Nat) (ctx : DirContext) : Program DirContext := do
  let now ← currentTime
  setInode inode fun i => i.setTimes now
  let dir ← getInode inode
  let (ctx, taken) := dirEmitDots dir.iIno parent ctx
  if taken then do
    let starting ← startingNumber
    let stored ← hodoRead ((if inode = rootRef then starting else dir.iIno) % 2 ^ 32) zeros
    let (ctx, _) ← readAllDirents stored ctx 2
    pure ctx
  else pure ctx

/-- A call with a buffer for `room` entries, at the position of the open directory; the
answer is what the buffer was given. -/
def readdirStep {σ : Type} (D : Disk σ) (E : Env) (inode parent : Nat) (s : Machine σ × Nat)
    (room : Nat) : Option (List Emitted × (Machine σ × Nat)) :=
  match exec (machine D E) (hodoSubReaddir inode parent ⟨s.2, room, []⟩) s.1 with
  | .done (ctx, m) => some (ctx.emitted, (m, ctx.pos))
  | _ => none

/-- What a call gives of a directory with the entries `es`, and where it leaves the position. -/
def piece (number parent : Nat) (es : List Emitted) (pos room : Nat) : List Emitted × Nat :=
  match dirEmitDots number parent ⟨pos, room, []⟩ with
  | (ctx, true) =>
    (ctx.emitted ++ (es.drop (ctx.pos - 2)).take ctx.room, max ctx.pos (2 + es.length))
  | (ctx, false) => (ctx.emitted, ctx.pos)

/-- Everything that is to be listed. -/
def listing (number parent : Nat) (es : List Emitted) : List Emitted :=
  dotEntry number :: dotDotEntry parent :: es

theorem pos_of_dots {number parent : Nat} {ctx ctx' : DirContext}
    (h : dirEmitDots number parent ctx = (ctx', true)) : 2 ≤ ctx'.pos := by
  obtain ⟨pos, room, emitted⟩ := ctx
  rcases pos with _ | _ | pos
  · rcases room with _ | _ | room <;> simp [dirEmitDots, emitDot] at h
    simp [← h]
  · rcases room with _ | room <;> simp [dirEmitDots, emitDot] at h
    simp [← h]
  · simp [dirEmitDots] at h
    simp [← h]

/-- The pieces that calls with these buffers give one after the other. -/
def pieces (number parent : Nat) (es : List Emitted) : Nat → List Nat → List (List Emitted)
  | _, [] => []
  | pos, room :: rooms =>
    (piece number parent es pos room).1 ::
      pieces number parent es (piece number parent es pos room).2 rooms

/-- The buffer that takes the second of the dots takes all of `len` entries with it. -/
def TakesAll (len : Nat) : List Nat → Prop
  | [] => False
  | 1 :: room :: _ => 1 + len ≤ room
  | room :: _ => 2 + len ≤ room

instance (len : Nat) : (rooms : List Nat) → Decidable (TakesAll len rooms)
  | [] => isFalse id
  | 1 :: room :: _ => inferInstanceAs (Decidable (1 + len ≤ room))
  | [1] => inferInstanceAs (Decidable (2 + len ≤ 1))
  | 0 :: _ => inferInstanceAs (Decidable (2 + len ≤ 0))
  | (room + 2) :: _ => inferInstanceAs (Decidable (2 + len ≤ room + 2))

section Pieces

variable {number parent : Nat} {es : List Emitted}

theorem piece_first {room : Nat} (h : 2 ≤ room) :
    piece number parent es 0 room =
      (dotEntry number :: dotDotEntry parent :: es.take (room - 2), 2 + es.length) := by
  obtain ⟨room, rfl⟩ : ∃ r, room = r + 2 := ⟨room - 2, by omega⟩
  simp [piece, dirEmitDots, emitDot]

theorem piece_dot : piece number parent es 0 1 = ([dotEntry number], 1) := by
  simp [piece, dirEmitDots, emitDot]

theorem piece_second {room : Nat} (h : 1 ≤ room) :
    piece number parent es 1 room = (dotDotEntry parent :: es.take (room - 1), 2 + es.length) := by
  obtain ⟨room, rfl⟩ : ∃ r, room = r + 1 := ⟨room - 1, by omega⟩
  simp [piece, dirEmitDots, emitDot]

/-- Behind the last entry nothing is given any more. -/
theorem piece_behind (room : Nat) :
    piece number parent es (2 + es.length) room = ([], 2 + es.length) := by
  have h : dirEmitDots number parent ⟨2 + es.length, room, []⟩ =
    (⟨2 + es.length, room, []⟩, true) := by
    have hone : 2 + es.length ≠ 1 := by omega
    simp [dirEmitDots, hone]
  simp [piece, h]

theorem pieces_behind (rooms : List Nat) :
    (pieces number parent es (2 + es.length) rooms).flatten = [] := by
  induction rooms with
  | nil => rfl
  | cons room rooms ih =>
    rw [pieces, piece_behind, List.flatten_cons, ih]
    rfl

theorem take_eq_self_iff {α : Type} (xs : List α) (k : Nat) : xs.take k = xs ↔ xs.length ≤ k := by
  constructor
  · intro h
    have hlen := congrArg List.length h
    rw [List.length_take] at hlen
    omega
  · exact List.take_of_length_le

theorem pieces_complete_iff {rooms : List Nat} (h : ∀ room ∈ rooms, 1 ≤ room) :
    (pieces number parent es 0 rooms).flatten = listing number parent es ↔
      TakesAll es.length rooms := by
  cases rooms with
  | nil => exact iff_of_false (by simp [pieces, listing]) id
  | cons room rooms =>
    by_cases hone : room = 1
    · subst hone
      rw [pieces, piece_dot]
      cases rooms with
      | nil =>
        refine iff_of_false (by simp [pieces, listing]) ?_
        rw [TakesAll]
        · omega
        · intro _ _ _ hrooms
          cases hrooms
      | cons room rooms =>
        have hroom : 1 ≤ room := h room (by simp)
        rw [pieces, piece_second hroom, List.flatten_cons, List.flatten_cons, pieces_behind,
          List.append_nil]
        simp only [listing, List.cons_append, List.nil_append, List.cons.injEq, true_and,
          take_eq_self_iff, TakesAll]
        omega
    · have hroom : 1 ≤ room := h room (by simp)
      rw [pieces, piece_first (by omega), List.flatten_cons, pieces_behind, List.append_nil]
      simp only [listing, List.cons.injEq, true_and, take_eq_self_iff]
      rw [TakesAll]
      · omega
      · intro _ _ hroom _
        exact hone hroom

end Pieces

section Runs

variable {D : Disk Store} [LikeStore D] {clock : Nat → Timespec} {a : Machine Store} {n : Nat}
  {inode parent : Nat}

/-- The directory that `hodo_sub_readdir` reads for a VFS inode. -/
def readNumber (m : Machine Volume) (inode : Nat) : Nat :=
  (if inode = rootRef then m.disk.info.startingLogicalNumber else (m.inodes inode).iIno) % 2 ^ 32

theorem wp_hodoSubReaddir {b : Block} {ds : List (List Entry)} (valid : Valid a.disk)
    (forest : IsForest a.disk.content) (h : HasBlocks a.disk n b ds)
    (hn : (if inode = rootRef then a.disk.base else (a.inodes inode).iIno) % 2 ^ 32 = n)
    (pos room : Nat) :
    wp (plain D clock) (hodoSubReaddir inode parent ⟨pos, room, []⟩)
      (fun ctx a' => (ctx.emitted, ctx.pos) =
          piece (a.inodes inode).iIno parent (ds.flatten.map Entry.emitted) pos room ∧
        a'.disk = a.disk ∧ (a'.inodes inode).iIno = (a.inodes inode).iIno) a := by
  have hino : ((Machine.updateInode (Machine.later a) inode
      fun i => i.setTimes (clock a.tick)).inodes inode).iIno = (a.inodes inode).iIno := by
    simp only [updateInode_inodes, later_inodes, update_same]
    rfl
  simp only [hodoSubReaddir, wp_bind, wp_currentTime, wp_setInode, wp_getInode, hino, piece]
  rcases hdots : dirEmitDots (a.inodes inode).iIno parent ⟨pos, room, []⟩ with ⟨ctx, taken⟩
  cases taken with
  | false =>
    rw [if_neg Bool.false_ne_true, wp_pure]
    exact ⟨rfl, rfl, hino⟩
  | true =>
    have hpos : 2 ≤ ctx.pos := pos_of_dots hdots
    rw [if_pos rfl, wp_bind, wp_startingNumber, wp_bind]
    simp only [updateInode_disk, later_disk, hn]
    apply (wp_hodoRead_some
      (m := Machine.updateInode (Machine.later a) inode _) valid h.inode _ _).mpr
    rw [wp_bind]
    apply wp_mono _
      (wp_readAllDirents (m := Machine.updateInode (Machine.later a) inode _) valid forest
      h ctx 2)
    rintro r a' ⟨rfl, rfl⟩
    rw [wp_pure, listEntries_eq _ hpos]
    refine ⟨?_, rfl, hino⟩
    rw [List.length_map, List.map_take, List.map_drop]

theorem readNumber_eq {intact : Bool} {m : Machine Volume} (follows : Follows intact m a)
    (valid : Valid a.disk) (inode : Nat) :
    readNumber m inode =
      (if inode = rootRef then a.disk.base else (a.inodes inode).iIno) % 2 ^ 32 := by
  rw [readNumber, follows.inodes, starting_of_follows follows, valid.base]

theorem passive_hodoSubReaddir (inode parent : Nat) (ctx : DirContext) :
    (hodoSubReaddir inode parent ctx).Only Passive := by
  refine only_bind (only_cmd trivial) fun now => only_bind (only_cmd trivial) fun _ => ?_
  refine only_bind (only_cmd trivial) fun dir => only_ite ?_ (only_pure _ _)
  refine only_bind (only_cmd trivial) fun starting =>
    only_bind (passive_hodoRead _ zeros) fun stored => ?_
  exact only_bind (passive_readAllDirents stored _ 2) fun _ => only_pure _ _

/-- The pieces of a run of calls are those of its buffers. -/
theorem pieces_run {b : Block} {ds : List (List Entry)} {intact : Bool} {m : Machine Volume}
    (follows : Follows intact m a) (valid : Valid a.disk) (forest : IsForest a.disk.content)
    (h : HasBlocks a.disk n b ds)
    (hn : readNumber m inode = n) (pos : Nat) (rooms : List Nat) :
    ∃ s, run (readdirStep volumeDisk (zeroFilled clock) inode parent) rooms (m, pos) =
      some (pieces (m.inodes inode).iIno parent (ds.flatten.map Entry.emitted) pos rooms, s) := by
  induction rooms generalizing m a pos with
  | nil => exact ⟨_, rfl⟩
  | cons room rooms ih =>
    obtain ⟨ctx, m₁, a₁, hexec, follows₁, hpiece, hdisk, hino⟩ := program_follows follows
      (guarded_of_only fits_of_passive (passive_hodoSubReaddir inode parent ⟨pos, room, []⟩) m)
      (wp_hodoSubReaddir valid forest h
        ((readNumber_eq follows valid inode).symm.trans hn) pos room)
    rw [← follows.inodes] at hpiece hino
    rw [← follows₁.inodes] at hino
    have hn₁ : readNumber m₁ inode = n := by
      rw [readNumber_eq follows₁ (hdisk ▸ valid), hdisk, ← follows₁.inodes, hino, ← hn,
        readNumber_eq follows valid, follows.inodes]
    have hstep : readdirStep volumeDisk (zeroFilled clock) inode parent (m, pos) room =
        some (ctx.emitted, (m₁, ctx.pos)) := by
      rw [readdirStep, hexec]
    obtain ⟨s, hrun⟩ := ih follows₁ (hdisk ▸ valid) (hdisk ▸ forest) (hdisk ▸ h) hn₁ ctx.pos
    refine ⟨s, ?_⟩
    rw [run_cons hstep, hrun, hino, pieces, ← hpiece]
    rfl

end Runs

/-- In every state reached from a first mount a directory that started without blocks is,
after any additions and removals, listed completely by calls with buffers of any sizes
exactly when one of the buffers takes all its entries. -/
theorem listed_in_pieces_iff (clock : Nat → Timespec) (uid gid groups : Nat) (now : Timespec)
    (fs : List SysCall)
    (calls : EachCall (notedSysStep clock) (Admissible clock) fs
      (firstMounted uid gid groups now, true)) :
    ∃ as m intact, run (notedSysStep clock) fs (firstMounted uid gid groups now, true) =
      some (as, m, intact) ∧
      ∀ n b, InUse (m, intact) n → onDisk m.disk n = some b → isDat b = false →
        (∀ i, i < 13 → inodePtr b i = 0) →
        ∀ cs : List DirCall, (∀ sub e, .add sub e ∈ cs → Describes sub e) →
          EachCall (dirStep volumeDisk (zeroFilled clock) n) (DirRoom clock n) cs m →
          ∃ as m', run (dirStep volumeDisk (zeroFilled clock) n) cs m = some (as, m') ∧
            ∀ inode parent rooms, readNumber m' inode = n → (∀ room ∈ rooms, 1 ≤ room) →
              ∃ ps s, run (readdirStep volumeDisk (zeroFilled clock) inode parent) rooms (m', 0) =
                some (ps, s) ∧
                (ps.getLast? = some [] →
                  (ps.flatten = listing (m'.inodes inode).iIno parent
                      ((direntsOf (onDisk m'.disk) n).map Dirent.emitted) ↔
                    TakesAll (direntsOf (onDisk m'.disk) n).length rooms)) := by
  obtain ⟨as, ⟨m, intact⟩, hrun, a, follows, inv⟩ := sys_run clock uid gid groups now calls
  refine ⟨as, m, intact, hrun, fun n b inUse hb hdat hptrs cs desc room => ?_⟩
  replace hb := stored_of_inUse follows inv inUse hb
  have blocks : Blocks a n :=
    ⟨inv.valid, inv.forest, b, [], (entries_nil inv.valid inv.forest hb hdat hptrs).blocks⟩
  obtain ⟨as', m', hrun', a', follows', valid', forest', b', ds, h⟩ :=
    blocks_run follows blocks desc room
  refine ⟨as', m', hrun', fun inode parent rooms hn hrooms => ?_⟩
  obtain ⟨s, hpieces⟩ : ∃ s, run (readdirStep volumeDisk (zeroFilled clock) inode parent) rooms
      (m', 0) =
        some (pieces (m'.inodes inode).iIno parent (ds.flatten.map Entry.emitted) 0 rooms, s) :=
    pieces_run follows' valid' forest' h hn 0 rooms
  have hemitted : (direntsOf (onDisk m'.disk) n).map Dirent.emitted =
    ds.flatten.map Entry.emitted := by
    rw [direntsOf_eq h valid' forest' (onDisk_zero follows') (onDisk_of_follows follows'),
      List.map_map]
    exact List.map_congr_left fun e _ => emitted_record e
  refine ⟨_, s, hpieces, fun _ => ?_⟩
  rw [← List.length_map (f := Dirent.emitted), hemitted]
  exact pieces_complete_iff hrooms

/-- A directory `d` with an entry `a`, listed with these buffers. -/
def oneEntry : List DirCall := [.add (letterInode entryA) entryA]

theorem oneEntry_listed : ∃ as m intact as' m' ps s,
    run (notedSysStep fun _ => ⟨0, 0⟩) newDirRun (firstMounted 0 0 0 ⟨0, 0⟩, true) =
      some (as, m, intact) ∧
    run (dirStep volumeDisk (zeroFilled fun _ => ⟨0, 0⟩) 17) oneEntry m = some (as', m') ∧
    run (readdirStep volumeDisk (zeroFilled fun _ => ⟨0, 0⟩) 1 16) [3, 1] (m', 0) = some (ps, s) ∧
    ps.flatten = listing (m'.inodes 1).iIno 16
      ((direntsOf (onDisk m'.disk) 17).map Dirent.emitted) := by
  obtain ⟨as, m, intact, hrun, listed⟩ := listed_in_pieces_iff (fun _ => ⟨0, 0⟩) 0 0 0 ⟨0, 0⟩
    newDirRun (by decide +kernel)
  have hcall : ∃ r, run (notedSysStep fun _ => ⟨0, 0⟩) newDirRun
      (firstMounted 0 0 0 ⟨0, 0⟩, true) = some r ∧ r.2.2 = true ∧
      (∃ b, onDisk r.2.1.disk 17 = some b ∧ isDat b = false ∧ ∀ i, i < 13 → inodePtr b i = 0) ∧
      EachCall (dirStep volumeDisk (zeroFilled fun _ => ⟨0, 0⟩) 17)
        (DirRoom (fun _ => ⟨0, 0⟩) 17) oneEntry r.2.1 ∧
      ∃ q, run (dirStep volumeDisk (zeroFilled fun _ => ⟨0, 0⟩) 17) oneEntry r.2.1 = some q ∧
        readNumber q.2 1 = 17 ∧ (direntsOf (onDisk q.2.disk) 17).length = 1 ∧
        ∃ p, run (readdirStep volumeDisk (zeroFilled fun _ => ⟨0, 0⟩) 1 16) [3, 1] (q.2, 0) =
          some p ∧ p.1.getLast? = some [] := by
    decide +kernel
  obtain ⟨r, hrun', hintact, ⟨b, hb, hdat, hptrs⟩, room, q, hq, hnumber, hlen, p, hp, hlast⟩ :=
    hcall
  obtain rfl := Option.some.inj (hrun'.symm.trans hrun)
  have desc : Describes (letterInode entryA) entryA := by decide +kernel
  obtain ⟨as', m', hcalls, hlist⟩ := listed 17 b (Or.inl hintact) hb hdat hptrs oneEntry
    (fun sub e hmem => by
      simp only [oneEntry, List.mem_singleton, DirCall.add.injEq] at hmem
      obtain ⟨rfl, rfl⟩ := hmem
      exact desc) room
  obtain rfl := Option.some.inj (hq.symm.trans hcalls)
  obtain ⟨ps, s, hps, hiff⟩ := hlist 1 16 [3, 1] hnumber (by decide)
  obtain rfl := Option.some.inj (hp.symm.trans hps)
  refine ⟨as, m, intact, as', m', ps, s, hrun, hcalls, hps, (hiff hlast).mpr ?_⟩
  rw [hlen]
  decide

/-- A buffer for the two dots alone: the entry is passed over, and the next call finds the end. -/
theorem oneEntry_lost :
    EachCall (notedSysStep fun _ => ⟨0, 0⟩) (Admissible fun _ => ⟨0, 0⟩) newDirRun
      (firstMounted 0 0 0 ⟨0, 0⟩, true) ∧
    ∃ r, run (notedSysStep fun _ => ⟨0, 0⟩) newDirRun (firstMounted 0 0 0 ⟨0, 0⟩, true) = some r ∧
    ∃ q, run (dirStep volumeDisk (zeroFilled fun _ => ⟨0, 0⟩) 17) oneEntry r.2.1 = some q ∧
      readNumber q.2 1 = 17 ∧ (direntsOf (onDisk q.2.disk) 17).length = 1 ∧
      ∃ p, run (readdirStep volumeDisk (zeroFilled fun _ => ⟨0, 0⟩) 1 16) [2, 1] (q.2, 0) = some p ∧
        p.1 = [[dotEntry 17, dotDotEntry 16], []] ∧
        p.1.flatten ≠ listing (q.2.inodes 1).iIno 16
          ((direntsOf (onDisk q.2.disk) 17).map Dirent.emitted) := by
  decide +kernel

end Listings
