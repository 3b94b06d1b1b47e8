import HodoZns.Emptiness
import HodoZns.Lookups
import HodoZns.Numbering
import HodoZns.Spending

/-!
# What a deletion leaves behind

`hodo_unlink` erases the entry of the target from the mapping table, and then writes
the inode of the target back under its number: the number is mapped once more, and no
operation but another erasure would change that.
-/

namespace Deletions

open ByteBlock Layout BlockLog ZoneLog NumberAllocator Collector LogCalls CallRuns Consistency
  Programs Kernel
open VolumeMachine Directories Operations FsRuns Erasures IndexWalks DirectoryRuns TreeCalls
open SystemRuns TreeRuns Emptiness Lookups Numbering Spending WritePointers

/-- Of the inode that was stored under number `n` at `p` nothing is held any more. -/
structure GivenUp (v : Volume) (n : Nat) (p : BlockPos) : Prop where
  dead : live v.info p.zoneId p.blockIndex = false
  unmapped : (tableEntry v.info n).zoneId = 0
  free : allocated v.info (tableIndex v.info n) = false

/-- The operation ends, and the inode is given up. -/
def GivesUp (E : Env) (m : Machine Volume) (op : Program Int) (n : Nat) (p : BlockPos) : Prop :=
  ∃ r m', exec (machine volumeDisk E) op m = .done (r, m') ∧ GivenUp m'.disk n p

/-- Number `n` has an entry in the table, whatever stands there. -/
structure Holds (n : Nat) (v : Volume) : Prop where
  numbered : Numbered v
  mapped : (tableEntry v.info n).zoneId ≠ 0

/-- A command that takes no entry out of the table. -/
def Holding : Cmd → Prop
  | .erase _ | .gc _ => False
  | _ => True

section

variable {v : Volume} {n : Nat}

theorem entry_write (v : Volume) (b : Block) (k n : Nat) :
    tableEntry
      (hodoWriteStruct standardGeometry ioOk v (some b) hodoDatablockSize k).volume.info n =
      if tableIndex v.info n = tableIndex v.info (recordWrite v.info k).1 then v.info.wp
      else tableEntry v.info n := by
  have hinfo : tableEntry
      (hodoWriteStruct standardGeometry ioOk v (some b) hodoDatablockSize k).volume.info n =
      tableEntry (recordWrite v.info k).2 n := by
    simp only [hodoWriteStruct_some]
    split
    case isTrue hlen => exact absurd hlen (by decide)
    case isFalse => split <;> rfl
  rw [hinfo, tableEntry, tableIndex, recordWrite_starting]
  by_cases hk : k = 0
  · simp only [recordWrite, if_pos hk, setTableEntry, update, getNext_mappingTable, tableIndex,
      getNext_starting]
    rfl
  · simp only [recordWrite, if_neg hk, setTableEntry, update]
    rfl

theorem Holds.write (h : Holds n v) (b : Block) (k : Nat) :
    Holds n (hodoWriteStruct standardGeometry ioOk v (some b) hodoDatablockSize k).volume := by
  refine ⟨h.numbered.write ioOk b k, ?_⟩
  rw [entry_write]
  split
  · exact Nat.ne_of_gt h.numbered.zone_pos
  · exact h.mapped

/-- A block written under the number maps it, whatever was there before. -/
theorem holds_written (h : Numbered v) (hn : n ≠ 0) (b : Block) :
    Holds n (hodoWriteStruct standardGeometry ioOk v (some b) hodoDatablockSize n).volume := by
  refine ⟨h.write ioOk b n, ?_⟩
  rw [entry_write, if_pos (by rw [recordWrite_number v.info hn])]
  exact Nat.ne_of_gt h.zone_pos

theorem holds_command {E : Env} {m m' : Machine Volume} {c : Cmd} {r : c.Reply} (hc : Holding c)
    (h : Holds n m.disk) (hstep : machine volumeDisk E c m = .done (r, m')) : Holds n m'.disk := by
  refine ⟨numbered_command h.numbered hstep, ?_⟩
  cases c with
  | erase n | gc temp => exact hc.elim
  | next =>
    obtain ⟨_, rfl⟩ := Prod.mk.inj (Outcome.done.inj hstep)
    simp only [Machine.setDisk, tableEntry, tableIndex, getNext_starting, getNext_mappingTable]
    exact h.mapped
  | write buf k =>
    rw [disk_of_write hstep]
    exact (h.write buf k).mapped
  | read k buf =>
    rw [disk_of_read hstep]
    exact h.mapped
  | startingNumber | kmalloc | auto | now | newInode | inode ref | setInode ref f =>
    obtain ⟨_, rfl⟩ := Prod.mk.inj (Outcome.done.inj hstep)
    exact h.mapped

theorem holding_hodoWrite (b : Block) (k : Nat) : (hodoWrite b k).Only Holding :=
  only_bind (only_cmd trivial) fun _ => only_pure _ _

theorem holding_kmallocUnchecked : kmallocUnchecked.Only Holding := by
  apply only_bind (only_cmd trivial)
  intro b
  cases b with
  | none => exact .crash
  | some b => exact only_pure _ _

theorem holding_touched (b : Block) : (touched b).Only Holding :=
  only_bind (only_cmd trivial) fun _ => only_bind (only_cmd trivial) fun _ =>
    only_bind (only_cmd trivial) fun _ => only_pure _ _

theorem holding_removeFromDirect (b : Block) (name : Name) (k : Nat) :
    (removeDirentFromDirectBlock b name k).Only Holding := by
  rw [removeDirentFromDirectBlock]
  cases findName b name with
  | none => exact only_pure _ _
  | some j =>
    refine only_bind (only_bind holding_kmallocUnchecked fun temp => ?_) fun _ => only_pure _ _
    exact holding_hodoWrite _ _

theorem holding_removeFromIndirect (name : Name) (depth : Nat) (b : Block) (k : Nat) :
    (removeDirentFromIndirectBlock name depth b k).Only Holding := by
  induction depth generalizing b k with
  | zero => exact .crash
  | succ depth ih =>
    refine only_bind (p := kmalloc) (only_cmd trivial) fun temp => ?_
    cases temp with
    | none => exact only_pure _ _
    | some temp =>
      refine only_bind (only_walkBlocks (fun _ _ => trivial) (fun j p t _ => ?_) _ _ _)
        fun removed => ?_
      · refine only_ite (only_bind (holding_removeFromDirect _ _ _) fun removed => ?_)
          (only_bind (ih _ _) fun removed => ?_)
        all_goals
          cases removed with
          | none => exact only_pure _ _
          | some q =>
            exact only_ite (only_pure _ _)
              (only_bind (holding_hodoWrite _ _) fun _ => only_pure _ _)
      · cases removed with
        | inl _ => exact only_pure _ _
        | inr _ => exact only_pure _ _

theorem holding_removeDirent (b : Block) (name : Name) (k : Nat) :
    (removeDirent b name k).Only Holding := by
  refine only_bind (p := kmalloc) (only_cmd trivial) fun buf => ?_
  cases buf with
  | none => exact only_pure _ _
  | some buf =>
    refine only_bind (only_walkBlocks (fun _ _ => trivial) (fun i p t _ => ?_) _ _ _)
      fun removed => ?_
    · refine only_bind (holding_removeFromDirect _ _ _) fun removed => ?_
      cases removed with
      | none => exact only_pure _ _
      | some q =>
        refine only_bind (holding_touched _) fun inode => ?_
        exact only_bind (holding_hodoWrite _ _) fun _ => only_bind (holding_hodoWrite _ _) fun _ =>
          only_pure _ _
    · cases removed with
      | inr _ => exact only_pure _ _
      | inl r =>
        refine only_bind (only_walkBlocks (fun _ _ => trivial) (fun _ p t _ => ?_) _ _ _)
          fun removed => ?_
        · refine only_bind (holding_removeFromIndirect _ _ _ _) fun removed => ?_
          cases removed with
          | none => exact only_pure _ _
          | some q =>
            exact only_bind (holding_touched _) fun inode => only_bind (holding_hodoWrite _ _)
              fun _ => only_pure _ _
        · cases removed with
          | inr _ => exact only_pure _ _
          | inl _ => exact only_pure _ _

theorem holding_removeEntry (k : Nat) (name : Name) : (removeEntry k name).Only Holding :=
  only_bind (only_cmd trivial) fun _ => only_bind (only_bind (only_cmd trivial) fun _ =>
    only_pure _ _) fun parent => holding_removeDirent parent name k

end

section

variable {E : Env} {m m' : Machine Volume} {dir n : Nat} {dentry : Dentry} {r : Int}

/-- The numbers are found without the log. -/
theorem unlinkNumbers_target {q : Nat × Nat}
    (he : exec (machine volumeDisk E) (unlinkNumbers dir dentry) m = .done (q, m')) :
    q.2 = (m.inodes dentry.inode).iIno % 2 ^ 32 ∧ m'.disk = m.disk := by
  obtain ⟨rfl, rfl⟩ := Prod.mk.inj (Outcome.done.inj he)
  refine ⟨?_, rfl⟩
  by_cases hdir : dentry.inode = dir
  · simp only [hdir, update_same]
    rfl
  · simp only [update_other _ _ hdir]

/-- Whatever was erased before, the inode is written back under its number. -/
theorem holds_unlinkInode {x : Unit} (h : Numbered m.disk) (hn : n ≠ 0)
    (he : exec (machine volumeDisk E) (unlinkInode n) m = .done (x, m')) : Holds n m'.disk := by
  obtain ⟨_, m₁, herase, he⟩ := exec_bind_eq_done he
  obtain ⟨_, m₂, hauto, he⟩ := exec_bind_eq_done he
  obtain ⟨c, m₃, hread, he⟩ := exec_bind_eq_done he
  have numbered := numbered_exec (numbered_exec (numbered_exec h herase) hauto) hread
  obtain ⟨_, m₄, hwrite, he⟩ := exec_bind_eq_done he
  obtain ⟨_, m₅, hcmd, hret⟩ := exec_bind_eq_done hwrite
  obtain ⟨_, rfl⟩ := Prod.mk.inj (Outcome.done.inj he)
  obtain ⟨_, rfl⟩ := Prod.mk.inj (Outcome.done.inj hret)
  rw [Cmd.give, exec_cmd] at hcmd
  rw [disk_of_write hcmd]
  exact holds_written numbered hn _

theorem holds_unlink (h : Holds n m.disk) (hn : n ≠ 0)
    (htarget : (m.inodes dentry.inode).iIno % 2 ^ 32 = n)
    (he : exec (machine volumeDisk E) (hodoUnlink dir dentry) m = .done (r, m')) :
    Holds n m'.disk := by
  by_cases hzone : isZoneGroup dentry.parentName = true
  · simp only [hodoUnlink, hzone, if_true] at he
    obtain ⟨_, rfl⟩ := Prod.mk.inj (Outcome.done.inj he)
    exact h
  · rw [hodoUnlink_eq dir (Bool.not_eq_true _ ▸ hzone)] at he
    obtain ⟨q, m₁, he₁, he⟩ := exec_bind_eq_done he
    obtain ⟨hq, _⟩ := unlinkNumbers_target he₁
    obtain ⟨_, m₂, he₂, he⟩ := exec_bind_eq_done he
    rw [hq, htarget] at he₂
    obtain ⟨_, m₃, he₃, he⟩ := exec_bind_eq_done he
    obtain ⟨_, m₄, he₄, he⟩ := exec_bind_eq_done he
    have written : Holds n m₂.disk := holds_unlinkInode (numbered_exec h.numbered he₁) hn he₂
    have removed : Holds n m₃.disk :=
      exec_keeps (h := machine volumeDisk E) (I := fun x => Holds n x.disk)
      (fun _ _ _ _ hc hx hstep => holds_command hc hx hstep) (holding_removeEntry _ _) written he₃
    obtain ⟨_, rfl⟩ := Prod.mk.inj (Outcome.done.inj he)
    obtain ⟨_, rfl⟩ := Prod.mk.inj (Outcome.done.inj he₄)
    exact removed

/-- What `hodo_rmdir` does before it goes on to `hodo_unlink`. -/
def Looking : Cmd → Prop := fun c => Idle c ∧ Quiet c

theorem looking_targetEmpty (dentry : Dentry) : (targetEmpty dentry).Only Looking :=
  only_targetEmpty ⟨trivial, trivial⟩ (fun _ => ⟨trivial, trivial⟩) ⟨trivial, trivial⟩
    (fun _ _ => ⟨trivial, trivial⟩) ⟨trivial, trivial⟩ dentry

theorem holds_rmdir (h : Holds n m.disk) (hn : n ≠ 0)
    (htarget : (m.inodes dentry.inode).iIno % 2 ^ 32 = n)
    (he : exec (machine volumeDisk E) (hodoRmdir dir dentry) m = .done (r, m')) :
    Holds n m'.disk := by
  by_cases hzone : isZoneGroup dentry.name = true
  · simp only [hodoRmdir, hzone, if_true] at he
    obtain ⟨_, rfl⟩ := Prod.mk.inj (Outcome.done.inj he)
    exact h
  · rw [hodoRmdir_eq dir (Bool.not_eq_true _ ▸ hzone)] at he
    obtain ⟨empty, m₁, he₁, he⟩ := exec_bind_eq_done he
    have same : m₁.disk = m.disk ∧ m₁.inodes = m.inodes :=
      exec_keeps (h := machine volumeDisk E) (I := fun x => x.disk = m.disk ∧ x.inodes = m.inodes)
        (fun _ _ _ _ hc hx hstep => ⟨(disk_of_idle hc.1 hstep).trans hx.1,
          (inodes_of_quiet hc.2 hstep).1.trans hx.2⟩) (looking_targetEmpty dentry) ⟨rfl, rfl⟩ he₁
    cases empty with
    | false =>
      obtain ⟨_, rfl⟩ := Prod.mk.inj (Outcome.done.inj he)
      rwa [same.1]
    | true =>
      obtain ⟨_, m₂, hset, he⟩ := exec_bind_eq_done he
      obtain ⟨_, rfl⟩ := Prod.mk.inj (Outcome.done.inj hset)
      refine holds_unlink (m := { m₁ with inodes := _ }) (same.1 ▸ h) hn ?_ he
      rw [← htarget, ← same.2]
      by_cases hdir : dentry.inode = dir
      · simp only [hdir, update_same]
      · simp only [update_other _ _ hdir]

end

section

variable {E : Env}

theorem numbered_run {cs : List TreeCall} {m m' : Machine Volume} {as : List (Int × Nat)}
    (h : Numbered m.disk) (hrun : run (treeStep volumeDisk E) cs m = some (as, m')) :
    Numbered m'.disk := by
  refine run_keeps (fun m : Machine Volume => Numbered m.disk) (fun m c a m' hm hstep => ?_) h hrun
  rw [treeStep] at hstep
  split at hstep
  case h_1 r hexec =>
    obtain rfl := Option.some.inj hstep
    exact numbered_exec hm hexec
  case h_2 => cases hstep

/-- In every state reached from a first mount, whatever memory holds and whichever of its
allocations fail: no deletion gives up an inode that is stored. -/
theorem deletion_never_gives_up (E : Env) (uid gid groups : Nat) (now : Timespec)
    (cs : List TreeCall) (as : List (Int × Nat)) (m : Machine Volume)
    (hrun : run (treeStep volumeDisk E) cs (firstMounted uid gid groups now) = some (as, m))
    (dir : Nat) (dentry : Dentry) (p : BlockPos)
    (mapped : Mapped m.disk.info (m.inodes dentry.inode).iIno p) :
    ¬ GivesUp E m (hodoUnlink dir dentry) (m.inodes dentry.inode).iIno p ∧
      ¬ GivesUp E m (hodoRmdir dir dentry) (m.inodes dentry.inode).iIno p := by
  have numbered := numbered_run (numbered_mounted uid gid groups now) hrun
  obtain ⟨⟨hlt, hidx⟩, hentry, hzone⟩ := mapped
  have hmod : (m.inodes dentry.inode).iIno % 2 ^ 32 = (m.inodes dentry.inode).iIno :=
    Nat.mod_eq_of_lt hlt
  have hn : (m.inodes dentry.inode).iIno ≠ 0 := by
    intro hzero
    rw [hzero, tableIndex, numbered.starting, numberMappingTableEntry_eq] at hidx
    omega
  have holds : Holds (m.inodes dentry.inode).iIno m.disk := ⟨numbered, by rwa [hentry]⟩
  constructor
  · rintro ⟨r, m', he, given⟩
    exact (holds_unlink holds hn hmod he).mapped given.unmapped
  · rintro ⟨r, m', he, given⟩
    exact (holds_rmdir holds hn hmod he).mapped given.unmapped

/-- A file `a` in the root. -/
def rootFile : List TreeCall := [.create ⟨0, 0⟩ rootRef [97] 0o644]

theorem rootFile_not_given_up : ∃ as m p,
    run (treeStep volumeDisk (zeroFilled fun _ => ⟨0, 0⟩)) rootFile (firstMounted 0 0 0 ⟨0, 0⟩) =
      some (as, m) ∧ Mapped m.disk.info (m.inodes 1).iIno p ∧
    ¬ GivesUp (zeroFilled fun _ => ⟨0, 0⟩) m (hodoUnlink rootRef ⟨[97], [47], 1⟩)
      (m.inodes 1).iIno p := by
  have hcall : ∃ r, run (treeStep volumeDisk (zeroFilled fun _ => ⟨0, 0⟩)) rootFile
      (firstMounted 0 0 0 ⟨0, 0⟩) = some r ∧ InTable r.2.disk.info (r.2.inodes 1).iIno ∧
      (tableEntry r.2.disk.info (r.2.inodes 1).iIno).zoneId ≠ 0 := by
    decide +kernel
  obtain ⟨⟨as, m⟩, hrun, hin, hzone⟩ := hcall
  have mapped := mapped_entry hin hzone
  exact ⟨as, m, _, hrun, mapped, (deletion_never_gives_up _ 0 0 0 ⟨0, 0⟩ rootFile as m hrun rootRef
    ⟨[97], [47], 1⟩ _ mapped).1⟩

/-- The file is unlinked: its number is mapped to a new position, and the old one is live too. -/
theorem rootFile_unlinked : ∃ x,
    run (treeStep volumeDisk (zeroFilled fun _ => ⟨0, 0⟩)) rootFile (firstMounted 0 0 0 ⟨0, 0⟩) =
      some x ∧
    (∃ q, exec (machine volumeDisk (zeroFilled fun _ => ⟨0, 0⟩))
      (hodoUnlink rootRef ⟨[97], [47], 1⟩) x.2 = .done q ∧ q.1 = 0 ∧
      tableEntry x.2.disk.info 17 = ⟨1, 1⟩ ∧ tableEntry q.2.disk.info 17 = ⟨1, 4⟩ ∧
      live q.2.disk.info 1 1 = true) ∧
    ¬ GivesUp (zeroFilled fun _ => ⟨0, 0⟩) x.2 (hodoUnlink rootRef ⟨[97], [47], 1⟩) 17 ⟨1, 1⟩ := by
  have unlinked : ∃ x,
      run (treeStep volumeDisk (zeroFilled fun _ => ⟨0, 0⟩)) rootFile
        (firstMounted 0 0 0 ⟨0, 0⟩) = some x ∧
      ∃ q, exec (machine volumeDisk (zeroFilled fun _ => ⟨0, 0⟩))
        (hodoUnlink rootRef ⟨[97], [47], 1⟩) x.2 = .done q ∧ q.1 = 0 ∧
        tableEntry x.2.disk.info 17 = ⟨1, 1⟩ ∧ tableEntry q.2.disk.info 17 = ⟨1, 4⟩ ∧
        live q.2.disk.info 1 1 = true := by
    decide +kernel
  obtain ⟨x, hrun, q, hexec, found⟩ := unlinked
  refine ⟨x, hrun, ⟨q, hexec, found⟩, ?_⟩
  rintro ⟨r, m', he, given⟩
  obtain rfl := Outcome.done.inj (hexec.symm.trans he)
  rw [GivenUp.dead given] at found
  exact absurd found.2.2.2 Bool.false_ne_true

end

end Deletions
