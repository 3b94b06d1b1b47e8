import HodoZns.FsRuns

/-!
# The numbers of a running system

No command moves the first number, or takes the write pointer back into the zone of
the super block. So whatever is done and whatever goes wrong, the allocator never
hands out a number that a zone file has.
-/

namespace Numbering

open ByteBlock Layout BlockLog ZoneLog NumberAllocator LogCalls WritePointers Collector LogStore
  Programs Kernel
open Operations VolumeMachine FsRuns

structure Numbered (v : Volume) : Prop where
  starting : v.info.startingLogicalNumber = 16
  zone_pos : 1 ≤ v.info.wp.zoneId
  zone_le : v.info.wp.zoneId ≤ 15

variable {v : Volume}

theorem Numbered.of_info {v' : Volume} (h : Numbered v)
    (starting : v'.info.startingLogicalNumber = v.info.startingLogicalNumber)
    (wp : v'.info.wp = v.info.wp) : Numbered v' := by
  refine ⟨starting.trans h.starting, ?_, ?_⟩
  · rw [wp]
    exact h.zone_pos
  · rw [wp]
    exact h.zone_le

theorem nextWp_zone {wp : BlockPos} (hz : wp.zoneId ≤ 14) (G : Geometry) (len : Nat) :
    wp.zoneId ≤ (nextWp G wp len).zoneId ∧ (nextWp G wp len).zoneId ≤ 15 := by
  rw [nextWp]
  split
  · simp only [u16_of_lt (show wp.zoneId + 1 < 65536 by omega)]
    exact ⟨Nat.le_succ _, Nat.succ_le_succ hz⟩
  · exact ⟨Nat.le_refl _, Nat.le_succ_of_le hz⟩

/-- The file of zone 15 is not there. -/
theorem zone_le_of_open {r : IoResult} {zone : Nat}
    (h : filpOpen standardGeometry r zone = none) : zone ≤ 14 := by
  rw [filpOpen] at h
  split at h
  · cases h
  · split at h
    case isTrue hlt =>
      rw [standardGeometry_nrZones] at hlt
      omega
    case isFalse => cases h

theorem Numbered.write (h : Numbered v) (r : IoResult) (b : Block) (n : Nat) :
    Numbered (hodoWriteStruct standardGeometry r v (some b) hodoDatablockSize n).volume := by
  simp only [hodoWriteStruct_some]
  split
  · exact h
  · split
    · exact h.of_info (recordWrite_starting _ _) (recordWrite_wp _ _)
    case h_2 hopen =>
      obtain ⟨hlo, hhi⟩ := nextWp_zone (zone_le_of_open hopen) standardGeometry hodoDatablockSize
      exact ⟨(recordWrite_starting _ _).trans h.starting, Nat.le_trans h.zone_pos hlo, hhi⟩

theorem undisturbed : Undisturbed standardGeometry Numbered where
  start v h := ⟨h.starting, Nat.le_refl 1, Nat.le_add_left 1 14⟩
  write v b n h := h.write ioOk b n
  move v b n h := by
    simp only [hodoGCWriteStruct_some]
    split
    · exact h
    · split
      · exact h.of_info rfl rfl
      · exact h.of_info rfl rfl
  truncate v zone h := by
    rw [truncateZone]
    split
    · exact h.of_info rfl rfl
    · exact h
  swapWp v pos h := h.of_info rfl rfl

theorem Numbered.getNext (h : Numbered v) :
    Numbered { v with info := (hodoGetNextLogicalNumber v.info).2 } :=
  h.of_info (getNext_starting _) (getNext_wp _)

theorem Numbered.erase (h : Numbered v) (n : Nat) :
    Numbered { v with info := hodoEraseTableEntry v.info n } :=
  h.of_info (erase_starting _ _) (erase_wp _ _)

/-- A number that the allocator returns, also when there is none left. -/
theorem Numbered.number (h : Numbered v) :
    16 ≤ (hodoGetNextLogicalNumber v.info).1 ∧ (hodoGetNextLogicalNumber v.info).1 < 2 ^ 32 := by
  rcases getNext_cases v.info with ⟨k, hk, _, _, heq⟩ | ⟨_, heq⟩
  · rw [heq, h.starting]
    rw [numberMappingTableEntry_eq] at hk
    constructor <;> omega
  · rw [heq]
    exact (by decide : 16 ≤ 2 ^ 32 - 1 ∧ 2 ^ 32 - 1 < 2 ^ 32)

/-- Every command keeps the numbering. -/
theorem numbered_command {E : Env} {m m' : Machine Volume} {c : Cmd} {r : c.Reply}
    (h : Numbered m.disk) (hstep : machine volumeDisk E c m = .done (r, m')) :
    Numbered m'.disk := by
  cases c with
  | next =>
    obtain ⟨_, rfl⟩ := Prod.mk.inj (Outcome.done.inj hstep)
    exact h.getNext
  | write buf n =>
    rw [disk_of_write hstep]
    exact h.write ioOk buf n
  | erase n =>
    rw [disk_of_erase hstep]
    exact h.erase n
  | gc temp => exact undisturbed.collection h (disk_of_gc hstep)
  | read n buf =>
    rw [disk_of_read hstep]
    exact h
  | startingNumber | kmalloc | auto | now | newInode | inode ref | setInode ref f =>
    obtain ⟨_, rfl⟩ := Prod.mk.inj (Outcome.done.inj hstep)
    exact h

/-- And with them every program. -/
theorem numbered_exec {α : Type} {E : Env} {m m' : Machine Volume} {p : Program α} {r : α}
    (h : Numbered m.disk) (he : exec (machine volumeDisk E) p m = .done (r, m')) :
    Numbered m'.disk :=
  exec_keeps (h := machine volumeDisk E) (I := fun m : Machine Volume => Numbered m.disk)
    (fun _ _ _ _ _ h hstep => numbered_command h hstep) (only_any p) h he

theorem starting_stays (k : Nat) :
    Undisturbed standardGeometry fun v => v.info.startingLogicalNumber = k where
  start _ h := h
  write v b n h := (hodoWriteStruct_starting _ ioOk v (some b) _ n).trans h
  move v b n h := by
    simp only [hodoGCWriteStruct_some]
    split
    · exact h
    · split
      · exact h
      · exact h
  truncate v zone h := by
    rw [truncateZone]
    split
    · exact h
    · exact h
  swapWp _ _ h := h

/-- No program moves the first number, wherever the write pointer is. -/
theorem starting_exec {α : Type} {E : Env} {m m' : Machine Volume} {p : Program α} {r : α}
    (he : exec (machine volumeDisk E) p m = .done (r, m')) :
    m'.disk.info.startingLogicalNumber = m.disk.info.startingLogicalNumber := by
  refine exec_keeps (h := machine volumeDisk E) (I := fun m' : Machine Volume =>
    m'.disk.info.startingLogicalNumber = m.disk.info.startingLogicalNumber) ?_ (only_any p) rfl he
  intro m₁ c r m₂ _ h hstep
  cases c with
  | next =>
    obtain ⟨_, rfl⟩ := Prod.mk.inj (Outcome.done.inj hstep)
    exact (getNext_starting _).trans h
  | write buf n =>
    rw [disk_of_write hstep]
    exact (starting_stays _).write _ buf n h
  | erase n =>
    rw [disk_of_erase hstep]
    exact (erase_starting _ _).trans h
  | gc temp => exact (starting_stays _).collection h (disk_of_gc hstep)
  | read n buf =>
    rw [disk_of_read hstep]
    exact h
  | startingNumber | kmalloc | auto | now | newInode | inode ref | setInode ref f =>
    obtain ⟨_, rfl⟩ := Prod.mk.inj (Outcome.done.inj hstep)
    exact h

theorem numbered_mounted (uid gid groups : Nat) (now : Timespec) :
    Numbered (firstMounted uid gid groups now).disk := by
  have start : Numbered SequentialWrites.unwritten := ⟨rfl, Nat.le_refl 1, Nat.le_add_left 1 14⟩
  have written := start.getNext.write ioOk
    (rootInode zeros (hodoGetNextLogicalNumber SequentialWrites.unwritten.info).1 uid gid)
    (hodoGetNextLogicalNumber SequentialWrites.unwritten.info).1
  rwa [← SequentialWrites.firstMount_eq] at written

end Numbering
