import HodoZns.FsRuns

/-!
# Bitmap, table and headers in every state

Creations, writes and removals leave the GC bitmap, the mapping table, the
block headers and the number bitmap in agreement.
-/

namespace Soundness

open ByteBlock Layout BlockLog ZoneLog NumberAllocator Collector LogCalls CallRuns Consistency
  LogStore
open Programs Kernel FileBlocks Operations VolumeMachine FsRuns

/-- A position that the log has not come to yet. -/
def AtOrAfter (wp p : BlockPos) : Prop :=
  wp.zoneId < p.zoneId ∨ wp.zoneId = p.zoneId ∧ wp.blockIndex ≤ p.blockIndex

structure Sound (v : Volume) : Prop where
  live_iff : ∀ p : BlockPos, 1 ≤ p.zoneId → p.zoneId ≤ 13 → p.blockIndex < blocksPerZone →
    (live v.info p.zoneId p.blockIndex = true ↔ ∃ n, Mapped v.info n p)
  inj : ∀ n n' p, Mapped v.info n p → Mapped v.info n' p → n = n'
  names : ∀ n p, Mapped v.info n p → ∃ b, blockAt v.dev p = some b ∧ ownNumber b = n
  allocated : ∀ n p, Mapped v.info n p → allocated v.info (tableIndex v.info n) = true
  unmapped_ahead : ∀ n p, AtOrAfter v.info.wp p → ¬ Mapped v.info n p
  dead_ahead : ∀ p : BlockPos, 1 ≤ p.zoneId → p.zoneId ≤ 14 → p.blockIndex < blocksPerZone →
    AtOrAfter v.info.wp p → live v.info p.zoneId p.blockIndex = false

theorem unmapped_ahead {v : Volume} {s : Store} (h : Represents v s) {n : Nat} {p : BlockPos}
    (hp : AtOrAfter v.info.wp p) : ¬ Mapped v.info n p := by
  intro hm
  have hlt := h.consistent.index_lt_length hm
  have hend := h.aligned.at_wp
  obtain ⟨hz, _⟩ := h.consistent.inZones hm
  rcases hp with hafter | ⟨hzone, hidx⟩
  · rw [h.aligned.ahead p.zoneId hafter hz] at hlt
    exact absurd hlt (Nat.not_lt_zero _)
  · rw [hzone] at hend
    omega

theorem Represents.mapped_allocated {v : Volume} {s : Store} (h : Represents v s) {n : Nat}
    {p : BlockPos} (hm : Mapped v.info n p) : allocated v.info (tableIndex v.info n) = true := by
  obtain ⟨b, hb, _⟩ := h.consistent.stored_eq_some hm
  rw [h.content n hm.1] at hb
  obtain ⟨hlo, hhi⟩ := h.used n b hb
  have hlt := hm.1.1
  have hidx := hm.1.2
  refine (h.allocated_iff _ hidx).mpr ?_
  rw [h.base] at hlo hhi
  simp only [tableIndex, h.consistent.starting]
  omega

theorem Represents.sound {v : Volume} {s : Store} (h : Represents v s) : Sound v where
  live_iff p hlo hhi hi := h.consistent.live_iff (by omega) (by omega) hi
  inj _ _ _ := h.consistent.inj
  names _ _ := h.consistent.content
  allocated _ _ := Represents.mapped_allocated h
  unmapped_ahead _ _ := unmapped_ahead h
  dead_ahead p hlo hhi hi hp := by
    rw [Bool.eq_false_iff]
    intro hlive
    obtain ⟨n, hm⟩ := (h.consistent.live_iff (by omega) hhi hi).mp hlive
    exact unmapped_ahead h hp hm

/-- Every state reached from a first mount is sound. -/
theorem reached_sound (clock : Nat → Timespec) (uid gid groups : Nat) (now : Timespec)
    (cs : List FsCall)
    (calls : EachCall (fsStep volumeDisk (zeroFilled clock)) (Admitted clock) cs
      (firstMounted uid gid groups now)) :
    ∃ as m, run (fsStep volumeDisk (zeroFilled clock)) cs (firstMounted uid gid groups now) =
      some (as, m) ∧ Sound m.disk := by
  obtain ⟨as, m, hrun, a, agrees, _⟩ := fs_run clock uid gid groups now calls
  exact ⟨as, m, hrun, Represents.sound agrees.represents⟩

/-- A file `a` is made, written to, and its entry removed. -/
def shortRun : List FsCall :=
  [.create ⟨0, 0⟩ rootRef [97] 0o644, .write ⟨1, false, 0⟩ ⟨[1, 2, 3], 3⟩,
    .remove rootRef (nameArg [97])]

theorem shortRun_sound : ∃ as m, run (fsStep volumeDisk (zeroFilled fun _ => ⟨0, 0⟩)) shortRun
    (firstMounted 0 0 0 ⟨0, 0⟩) = some (as, m) ∧ Sound m.disk :=
  reached_sound _ 0 0 0 ⟨0, 0⟩ shortRun (by decide +kernel)

end Soundness
