import HodoZns.DirectoryRuns
import HodoZns.TreeRuns

/-!
# The test for an empty directory

`check_directory_empty` looks at the bytes of the blocks, the listing at the
fields of the slots. Under any additions and removals the bytes behind the
entries stay zero, also when one name is entered more than once, and so both
see the same.
-/

namespace Emptiness

open ByteBlock Layout BlockLog ZoneLog LogCalls CallRuns LogStore Programs Kernel StoreMachine
  FileBlocks BlockForest
open Directories Operations DirectoryWrites VolumeMachine FsRuns Soundness Ownership FileContents
  FileReads
open DirectoryBlocks DirectoryMaps DirectoryRuns IndexWalks Erasures Trees TreeCalls SystemRuns
  TreeRuns

/-- The test on the stored inode, which is read as `hodo_rmdir` does. -/
def testEmpty (n : Nat) : Program Bool := do
  let stack ← auto
  let inode ← hodoRead n stack
  checkDirectoryEmpty inode

/-- The test, the listing and `hodo_rmdir` tell alike whether directory `n` has an entry. -/
structure AgreeOnEmpty (clock : Nat → Timespec) (m : Machine Volume) (n : Nat) : Prop where
  test : ∃ r m', exec (machine volumeDisk (zeroFilled clock)) (testEmpty n) m = .done (r, m') ∧
    (r = true ↔ direntsOf (onDisk m.disk) n = [])
  listing : ∀ ctx : DirContext, ctx.pos = 2 → 0 < ctx.room →
    ∃ ctx' m', exec (machine volumeDisk (zeroFilled clock)) (listDirectory n ctx) m =
        .done (ctx', m') ∧
      (ctx'.emitted = ctx.emitted ↔ direntsOf (onDisk m.disk) n = [])
  refused : ∀ dir dentry, (m.inodes dentry.inode).iIno = n → dentry.inode ≠ rootRef →
    isZoneGroup dentry.name = false → direntsOf (onDisk m.disk) n ≠ [] →
    ∃ m', exec (machine volumeDisk (zeroFilled clock)) (hodoRmdir dir dentry) m =
      .done (eNotEmpty, m')
  deleted : ∀ dir dentry, (m.inodes dentry.inode).iIno = n → dentry.inode ≠ rootRef →
    isZoneGroup dentry.name = false → direntsOf (onDisk m.disk) n = [] →
    ∀ r m', exec (machine volumeDisk (zeroFilled clock)) (hodoRmdir dir dentry) m = .done (r, m') →
      r = 0

variable {D : Disk Store} [LikeStore D] {clock : Nat → Timespec} {a : Machine Store} {n : Nat}

/-- Directory `n` of the map has entries behind which its blocks are zero. -/
def Blocks (a : Machine Store) (n : Nat) : Prop :=
  Valid a.disk ∧ IsForest a.disk.content ∧ ∃ b ds, HasBlocks a.disk n b ds

theorem wp_anyCall {c : DirCall} (h : Blocks a n)
    (desc : ∀ sub e, c = .add sub e → Describes sub e) :
    wp (plain D clock) (c.program n) (fun _ a' => Blocks a' n) a := by
  obtain ⟨valid, forest, b, ds, h⟩ := h
  cases c with
  | add sub e =>
    have hn : n % 2 ^ 32 = n := Nat.mod_eq_of_lt (valid.number_lt (valid.used h.inode))
    apply wp_mono _ (wp_addDirent hn valid forest h.inode h.isInode)
    intro r a' hadd
    obtain ⟨valid', forest'⟩ := added_disk valid forest hadd
    cases h.added (desc sub e rfl) hadd with
    | inserted h' => exact ⟨valid', forest', _, _, h'⟩
    | full hdisk => exact ⟨valid', forest', b, ds, by rw [hdisk]; exact h⟩
  | remove name =>
    simp only [DirCall.program, wp_bind, wp_pure]
    apply wp_mono _ (wp_removeEntry valid forest h.inode h.isInode h.noIndex)
    intro r a' hremove
    obtain ⟨valid', forest'⟩ := removed_disk valid forest hremove
    have htaken := h.taken hremove
    generalize r.1 = x at htaken
    cases htaken with
    | removed _ h' => exact ⟨valid', forest', _, _, h'⟩
    | absent hdisk => exact ⟨valid', forest', b, ds, by rw [hdisk]; exact h⟩

theorem wp_testEmpty (valid : Valid a.disk) (forest : IsForest a.disk.content) {b : Block}
    {ds : List (List Entry)} (h : HasBlocks a.disk n b ds) :
    wp (plain D clock) (testEmpty n) (fun r _ => r = ds.flatten.isEmpty) a := by
  simp only [testEmpty, wp_bind, wp_auto]
  apply (wp_hodoRead_some (m := Machine.later a) valid h.inode _ _).mpr
  exact wp_mono (fun _ _ hr => hr.1) (wp_checkDirectoryEmpty (m := Machine.later a) valid forest h)

theorem passive_checkDirectoryEmpty (inode : Block) : (checkDirectoryEmpty inode).Only Passive :=
  only_checkDirectoryEmpty (fun _ _ => trivial) trivial inode

theorem passive_testEmpty (n : Nat) : (testEmpty n).Only Passive :=
  only_bind (only_cmd trivial) fun stack => only_bind (passive_hodoRead n stack) fun inode =>
    passive_checkDirectoryEmpty inode

theorem passive_targetEmpty (dentry : Dentry) : (targetEmpty dentry).Only Passive :=
  only_targetEmpty trivial (fun _ => trivial) trivial (fun _ _ => trivial) trivial dentry

/-- Whatever it did, `hodo_unlink` returns 0. -/
theorem hodoUnlink_returns {σ : Type} {D : Disk σ} {E : Env} {m m' : Machine σ} {dir : Nat}
    {dentry : Dentry} {r : Int}
    (he : exec (machine D E) (hodoUnlink dir dentry) m = .done (r, m')) :
    r = 0 := by
  rw [hodoUnlink] at he
  iterate 2 obtain ⟨_, _, _, he⟩ := exec_bind_eq_done he
  split at he
  · exact (Prod.mk.inj (Outcome.done.inj he)).1.symm
  · iterate 9 obtain ⟨_, _, _, he⟩ := exec_bind_eq_done he
    exact (Prod.mk.inj (Outcome.done.inj he)).1.symm

theorem agreeOnEmpty_of_blocks {intact : Bool} {m : Machine Volume} (follows : Follows intact m a)
    (h : Blocks a n) : AgreeOnEmpty clock m n := by
  obtain ⟨valid, forest, b, ds, h⟩ := h
  have hn : n % 2 ^ 32 = n := Nat.mod_eq_of_lt (valid.number_lt (valid.used h.inode))
  have hdirents : direntsOf (onDisk m.disk) n = [] ↔ ds.flatten = [] := by
    rw [direntsOf_eq h valid forest (onDisk_zero follows) (onDisk_of_follows follows),
      List.map_eq_nil_iff]
  have target : ∀ dentry, (m.inodes dentry.inode).iIno = n → dentry.inode ≠ rootRef →
      ∃ m', exec (machine volumeDisk (zeroFilled clock)) (targetEmpty dentry) m =
        .done (ds.flatten.isEmpty, m') := by
    intro dentry hino hroot
    have hwp : wp (machine storeDisk (zeroFilled clock)) (targetEmpty dentry)
        (fun r _ => r = ds.flatten.isEmpty) a := by
      rw [follows.inodes] at hino
      simp only [targetEmpty, wp_bind, wp_startingNumber, wp_getInode, wp_auto,
        if_neg hroot, hino, hn]
      apply (wp_hodoRead_some (m := Machine.later a) valid h.inode _ _).mpr
      exact wp_mono (fun _ _ hr => hr.1)
        (wp_checkDirectoryEmpty (m := Machine.later a) valid forest h)
    obtain ⟨r, m', _, hexec, _, rfl⟩ := program_follows follows
      (guarded_of_only fits_of_passive (passive_targetEmpty dentry) m) hwp
    exact ⟨m', hexec⟩
  refine ⟨?_, fun ctx hpos hroom => ?_, fun dir dentry hino hroot hzone hsome => ?_,
    fun dir dentry hino hroot hzone hnone r m' he => ?_⟩
  · obtain ⟨r, m', _, hexec, _, rfl⟩ := program_follows follows
      (guarded_of_only fits_of_passive (passive_testEmpty n) m) (wp_testEmpty valid forest h)
    exact ⟨_, m', hexec, by rw [hdirents, List.isEmpty_iff]⟩
  · obtain ⟨ctx', m', _, hexec, _, rfl⟩ := program_follows follows
      (guarded_of_only fits_of_passive (passive_listDirectory n ctx) m)
      (wp_listDirectory valid forest h ctx)
    refine ⟨_, m', hexec, ?_⟩
    rw [listEntries_eq _ (by omega), hdirents, hpos, Nat.sub_self, List.drop_zero,
      List.append_right_eq_self, List.map_eq_nil_iff, List.take_eq_nil_iff]
    exact or_iff_right (by omega)
  · obtain ⟨m', hexec⟩ := target dentry hino hroot
    have hfull : ds.flatten.isEmpty = false := by
      rw [← Bool.not_eq_true, List.isEmpty_iff]
      exact fun hempty => hsome (hdirents.mpr hempty)
    refine ⟨m', ?_⟩
    rw [hodoRmdir_eq dir hzone, exec_bind, hexec, hfull]
    rfl
  · obtain ⟨m₁, hexec⟩ := target dentry hino hroot
    rw [List.isEmpty_iff.mpr (hdirents.mp hnone)] at hexec
    rw [hodoRmdir_eq dir hzone, exec_bind, hexec] at he
    obtain ⟨_, _, _, he⟩ := exec_bind_eq_done (by simpa only [if_pos] using he)
    exact hodoUnlink_returns he

theorem blocks_run {intact : Bool} {m : Machine Volume} (follows : Follows intact m a)
    (h : Blocks a n) {cs : List DirCall} (desc : ∀ sub e, .add sub e ∈ cs → Describes sub e)
    (room : EachCall (dirStep volumeDisk (zeroFilled clock) n) (DirRoom clock n) cs m) :
    ∃ as m', run (dirStep volumeDisk (zeroFilled clock) n) cs m = some (as, m') ∧
      ∃ a', Follows intact m' a' ∧ Blocks a' n := by
  refine run_total _ (fun m => ∃ a, Follows intact m a ∧ Blocks a n) (fun m c hm hc => ?_)
    ⟨a, follows, h⟩
    (room.and_mem (Q := fun c => ∀ sub e, c = .add sub e → Describes sub e)
      fun c hc sub e heq => desc sub e (heq ▸ hc))
  obtain ⟨a, follows, h⟩ := hm
  obtain ⟨r, m', a', hexec, follows', h'⟩ := program_follows follows hc.1 (wp_anyCall h hc.2)
  exact ⟨r, m', by rw [dirStep, hexec], a', follows', h'⟩

/-- In every state reached from a first mount a directory inode without blocks is, after
additions and removals under any names, found empty exactly when it has no valid entry. -/
theorem emptiness_agrees (clock : Nat → Timespec) (uid gid groups : Nat) (now : Timespec)
    (fs : List SysCall)
    (calls : EachCall (notedSysStep clock) (Admissible clock) fs
      (firstMounted uid gid groups now, true)) :
    ∃ as m intact, run (notedSysStep clock) fs (firstMounted uid gid groups now, true) =
      some (as, m, intact) ∧
      ∀ n b, InUse (m, intact) n → onDisk m.disk n = some b → isDat b = false →
        (∀ i, i < 13 → inodePtr b i = 0) →
        ∀ cs : List DirCall, (∀ sub e, .add sub e ∈ cs → Describes sub e) →
          EachCall (dirStep volumeDisk (zeroFilled clock) n) (DirRoom clock n) cs m →
          ∃ as m', run (dirStep volumeDisk (zeroFilled clock) n) cs m = some (as, m') ∧
            AgreeOnEmpty clock m' n := by
  obtain ⟨as, ⟨m, intact⟩, hrun, a, follows, inv⟩ := sys_run clock uid gid groups now calls
  refine ⟨as, m, intact, hrun, fun n b inUse hb hdat hptrs cs desc room => ?_⟩
  replace hb := stored_of_inUse follows inv inUse hb
  have blocks : Blocks a n :=
    ⟨inv.valid, inv.forest, b, [], (entries_nil inv.valid inv.forest hb hdat hptrs).blocks⟩
  obtain ⟨as', m', hrun', a', follows', blocks'⟩ := blocks_run follows blocks desc room
  exact ⟨as', m', hrun', agreeOnEmpty_of_blocks follows' blocks'⟩

/-- One name is entered twice and removed twice. -/
def sameNames : List DirCall :=
  [.add (letterInode entryA) entryA, .add (letterInode entryA) entryA, .remove entryA.name,
    .remove entryA.name]

theorem sameNames_emptied : ∃ as m intact as' m',
    run (notedSysStep fun _ => ⟨0, 0⟩) newDirRun (firstMounted 0 0 0 ⟨0, 0⟩, true) =
      some (as, m, intact) ∧
    run (dirStep volumeDisk (zeroFilled fun _ => ⟨0, 0⟩) 17) sameNames m = some (as', m') ∧
    AgreeOnEmpty (fun _ => ⟨0, 0⟩) m' 17 := by
  obtain ⟨as, m, intact, hrun, agree⟩ := emptiness_agrees (fun _ => ⟨0, 0⟩) 0 0 0 ⟨0, 0⟩
    newDirRun (by decide +kernel)
  have hcall : ∃ r, run (notedSysStep fun _ => ⟨0, 0⟩) newDirRun
      (firstMounted 0 0 0 ⟨0, 0⟩, true) = some r ∧ r.2.2 = true ∧
      (∃ b, onDisk r.2.1.disk 17 = some b ∧ isDat b = false ∧ ∀ i, i < 13 → inodePtr b i = 0) ∧
      EachCall (dirStep volumeDisk (zeroFilled fun _ => ⟨0, 0⟩) 17)
        (DirRoom (fun _ => ⟨0, 0⟩) 17) sameNames r.2.1 := by
    decide +kernel
  obtain ⟨r, hrun', hintact, ⟨b, hb, hdat, hptrs⟩, room⟩ := hcall
  obtain rfl := Option.some.inj (hrun'.symm.trans hrun)
  have desc : Describes (letterInode entryA) entryA := by decide +kernel
  obtain ⟨as', m', hcalls, agreeOnEmpty⟩ := agree 17 b (Or.inl hintact) hb hdat hptrs sameNames
    (fun sub e hmem => by
      simp only [sameNames, List.mem_cons, DirCall.add.injEq, reduceCtorEq, List.not_mem_nil,
        or_false, or_self] at hmem
      obtain ⟨rfl, rfl⟩ := hmem
      exact desc) room
  exact ⟨as, m, intact, as', m', hrun, hcalls, agreeOnEmpty⟩

end Emptiness
