import HodoZns.Soundness

/-!
# Ownership of blocks

In every state reached from a first mount the pointers on the disk form a
forest over the inodes, so a write to one file changes nothing that another
inode reaches.
-/

namespace Ownership

open ByteBlock Layout BlockLog ZoneLog NumberAllocator LogCalls CallRuns Consistency LogStore
  Programs Kernel
open FileBlocks Ancestry BlockForest FileWrites Operations StoreMachine VolumeMachine FsRuns
open Soundness

/-- The block that the log holds under a number. -/
def onDisk (v : Volume) (n : Nat) : Option Block :=
  if InTable v.info n then stored v n else none

/-- `PointsTo c a i p k` tells that pointer `i` of block `a` is `p`, and that the place
of the pointer calls for a block of level `k`. -/
structure Owned (v : Volume) : Prop where
  target : ∀ a i p k, PointsTo (onDisk v) a i p k → allocated v.info (tableIndex v.info p) = true ∧
    (∃ q, Mapped v.info p q) ∧ Holds (onDisk v) p k
  once : ∀ a i p k a' i' k', PointsTo (onDisk v) a i p k → PointsTo (onDisk v) a' i' p k' →
    a = a' ∧ i = i'
  inode : ∀ n b, onDisk v n = some b → isDat b = false → Orphan (onDisk v) n

/-- What the inodes other than `n` reach, and all of its bytes, is the same in both. -/
def Isolated (v v' : Volume) (n : Nat) : Prop :=
  ∀ x b, onDisk v x = some b → isDat b = false → x ≠ n → ∀ y,
    (Reach (Edge (onDisk v')) x y ↔ Reach (Edge (onDisk v)) x y) ∧
    (Reach (Edge (onDisk v)) x y → onDisk v' y = onDisk v y)

theorem Represents.onDisk {v : Volume} {s : Store} (h : Represents v s) : onDisk v = s.content := by
  funext n
  rw [Ownership.onDisk]
  split
  case isTrue hn => exact h.content n hn
  case isFalse hn =>
    cases hc : s.content n with
    | none => rfl
    | some b => exact absurd (h.inTable_of_used (h.used n b hc)) hn

theorem owned_of_forest {v : Volume} {s : Store} (h : Represents v s)
    (forest : IsForest s.content) : Owned v := by
  rw [← Represents.onDisk h] at forest
  refine ⟨fun a i p k hp => ?_, fun _ _ _ _ _ _ _ => forest.owner,
    fun _ _ => forest.orphan_of_inode⟩
  obtain ⟨d, hd, hlevel⟩ := forest.target hp
  have hcontent := hd
  rw [Represents.onDisk h] at hcontent
  obtain ⟨q, hm, _⟩ := h.stored_names hcontent
  exact ⟨Represents.mapped_allocated h hm, ⟨q, hm⟩, d, hd, hlevel⟩

theorem isolated_of_fileWritten {v v' : Volume} {s s' : Store} {n : Nat} {b b' : Block}
    (h : Represents v s) (h' : Represents v' s') (forest : IsForest s.content)
    (hn : s.content n = some b) (hb : isDat b = false) (hwritten : FileWritten s s' n b b') :
    Isolated v v' n := by
  intro x d hx hd hne y
  rw [Represents.onDisk h] at hx ⊢
  rw [Represents.onDisk h']
  have same := FileWritten.isolated hwritten forest hn hb hx hd hne
  exact ⟨reach_iff_of_same same y, same y⟩

/-- A call of `hodo_sub_file_write_iter` leaves the other inodes alone. -/
theorem write_isolated {clock : Nat → Timespec} {m : Machine Volume} {a : Machine Store}
    (agrees : Agrees m a) (inv : FsInv a) {iocb : Kiocb} {iter : IovIter}
    (admitted : Admitted clock m (.write iocb iter)) :
    ∃ r m', fsStep volumeDisk (zeroFilled clock) m (.write iocb iter) = some (r, m') ∧
      Isolated m.disk m'.disk (m.inodes iocb.inode).iIno := by
  obtain ⟨dispatched, fits⟩ := admitted
  simp only [Dispatched, agrees.inodes] at dispatched
  obtain ⟨b, hb, hdat, _⟩ := inv.fileInode dispatched
  have hlt := ((inv.vfs.backed iocb.inode).file dispatched).1
  have safe : wp (plain storeDisk clock) (FsCall.program (.write iocb iter))
      (fun _ a' => ∃ b', FileWritten a.disk a'.disk ((a.inodes iocb.inode).iIno % 2 ^ 32) b b')
      a := by
    simp only [FsCall.program, wp_bind, wp_pure]
    exact wp_mono (fun _ _ h => h.1) (wp_hodoSubFileWriteIter rfl inv.valid inv.forest hb hdat)
  obtain ⟨r, m', a', hexec, agrees', b', hwritten⟩ := program_runs agrees fits safe
  refine ⟨r, m', by rw [fsStep, hexec], ?_⟩
  rw [agrees.inodes, ← Nat.mod_eq_of_lt hlt]
  exact isolated_of_fileWritten agrees.represents agrees'.represents inv.forest hb hdat hwritten

/-- The blocks of every reached state are owned as in a forest, and a write to a file
there is isolated. -/
theorem reached_owned (clock : Nat → Timespec) (uid gid groups : Nat) (now : Timespec)
    (cs : List FsCall)
    (calls : EachCall (fsStep volumeDisk (zeroFilled clock)) (Admitted clock) cs
      (firstMounted uid gid groups now)) :
    ∃ as m, run (fsStep volumeDisk (zeroFilled clock)) cs (firstMounted uid gid groups now) =
      some (as, m) ∧ Owned m.disk ∧
      ∀ iocb iter, Admitted clock m (.write iocb iter) →
        ∃ r m', fsStep volumeDisk (zeroFilled clock) m (.write iocb iter) = some (r, m') ∧
          Isolated m.disk m'.disk (m.inodes iocb.inode).iIno := by
  obtain ⟨as, m, hrun, a, agrees, inv⟩ := fs_run clock uid gid groups now calls
  exact ⟨as, m, hrun, owned_of_forest agrees.represents inv.forest,
    fun iocb iter admitted => write_isolated agrees inv admitted⟩

/-- Two files, each of them written to. -/
def twoFiles : List FsCall :=
  [.create ⟨0, 0⟩ rootRef [97] 0o644, .create ⟨0, 0⟩ rootRef [98] 0o644,
    .write ⟨1, false, 0⟩ ⟨[1, 2, 3], 3⟩]

theorem twoFiles_owned : ∃ as m r m', run (fsStep volumeDisk (zeroFilled fun _ => ⟨0, 0⟩)) twoFiles
    (firstMounted 0 0 0 ⟨0, 0⟩) = some (as, m) ∧ Owned m.disk ∧
    fsStep volumeDisk (zeroFilled fun _ => ⟨0, 0⟩) m (.write ⟨2, false, 0⟩ ⟨[4], 1⟩) =
      some (r, m') ∧ Isolated m.disk m'.disk (m.inodes 2).iIno := by
  obtain ⟨as, m, hrun, howned, hwrites⟩ := reached_owned (fun _ => ⟨0, 0⟩) 0 0 0 ⟨0, 0⟩ twoFiles
    (by decide +kernel)
  have calls : EachCall (fsStep volumeDisk (zeroFilled fun _ => ⟨0, 0⟩)) (Admitted fun _ => ⟨0, 0⟩)
      (twoFiles ++ [.write ⟨2, false, 0⟩ ⟨[4], 1⟩]) (firstMounted 0 0 0 ⟨0, 0⟩) := by
    decide +kernel
  obtain ⟨r, m', hstep, hiso⟩ := hwrites _ _ (calls.after hrun).1
  exact ⟨as, m, r, m', hrun, howned, hstep, hiso⟩

end Ownership
