import HodoZns.TreeCalls

/-!
# Blocks found in the log

A number that leads to a block leads to it also after blocks are written under
other numbers, and after other numbers are erased. What else the log notes, live
bits and numbers handed out, does not matter for that.
-/

namespace StoredBlocks

open ByteBlock Layout BlockLog ZoneLog NumberAllocator LogCalls WritePointers Consistency Relocation
open BlockPacking LogStore Programs Kernel VolumeMachine Ownership Erasures

/-- Number `n` leads to block `b`. -/
structure Stores (v : Volume) (n : Nat) (b : Block) : Prop where
  inTable : InTable v.info n
  mapped : (tableEntry v.info n).zoneId ≠ 0
  zone_le : (tableEntry v.info n).zoneId ≤ 14
  index_lt : (tableEntry v.info n).blockIndex < blocksPerZone
  block : blockAt v.dev (tableEntry v.info n) = some b

/-- The log ends where the write pointer is; how it came there is left out. -/
structure Ready (v : Volume) : Prop extends Aligned { v with trace := [] } where
  unnumbered : ¬ InTable v.info 0
  inside : v.info.strayStores = 0
  zones : ∀ n, InTable v.info n → (tableEntry v.info n).zoneId < numberZones

/-- The volume after a block was written under a number. -/
def withBlock (v : Volume) (b : Block) (n : Nat) : Volume :=
  (hodoWriteStruct standardGeometry ioOk v (some b) hodoDatablockSize n).volume

section

variable {v : Volume} {n k : Nat} {b c : Block}

theorem Stores.onDisk (h : Stores v n b) : onDisk v n = some b := by
  rw [Ownership.onDisk, if_pos h.inTable, stored, if_neg h.mapped]
  exact h.block

theorem Stores.read (h : Stores v n b) (buf : Block) :
    hodoReadStruct standardGeometry ioOk v n (some buf) hodoDatablockSize =
      some (4096, some b) := by
  rw [hodoReadStruct_eq, if_pos h.inTable, readAt_ok v h.zone_le h.index_lt, h.block]

theorem stores_of_follows {intact : Bool} {m : Machine Volume} {a : Machine Store}
    (h : Follows intact m a) (hb : a.disk.content n = some b) : Stores m.disk n b := by
  obtain ⟨w, _, near, rep⟩ := h.near
  obtain ⟨p, hm, hblock⟩ := rep.stored_names hb
  obtain ⟨hzone, hindex⟩ := rep.consistent.inZones hm
  have hentry : tableEntry m.disk.info n = p := by
    rw [tableEntry, near.index_eq, near.entry]
    · exact hm.2.1
    · rw [← tableEntry, hm.2.1]
      exact hm.2.2
  refine ⟨⟨hm.1.1, by rw [near.index_eq]; exact hm.1.2⟩, ?_, ?_, ?_, ?_⟩
  all_goals rw [hentry]
  · exact hm.2.2
  · exact hzone
  · exact hindex
  · rw [near.dev]
    exact hblock

theorem ready_of_follows {intact : Bool} {m : Machine Volume} {a : Machine Store}
    (h : Follows intact m a) : Ready m.disk := by
  obtain ⟨w, _, near, rep⟩ := h.near
  have aligned := rep.aligned
  refine ⟨⟨?_, ?_, ?_, fun z hlo hhi => ?_, fun e he => absurd he List.not_mem_nil⟩, ?_,
    near.strayed.trans rep.inside, near.zones⟩
  · rw [near.wp]
    exact aligned.zone_pos
  · rw [near.wp]
    exact aligned.index_lt
  · rw [near.wp, near.dev]
    exact aligned.at_wp
  · rw [near.wp] at hlo
    rw [near.dev]
    exact aligned.ahead z hlo hhi
  · rintro ⟨_, hidx⟩
    rw [near.index_eq] at hidx
    simp [tableIndex, rep.consistent.starting] at hidx

theorem Ready.onDisk_zero (ready : Ready v) : onDisk v 0 = none :=
  if_neg ready.unnumbered

theorem withBlock_eq (ready : Ready v) (hz : v.info.wp.zoneId ≤ 14) (hn : n ≠ 0) :
    hodoWriteStruct standardGeometry ioOk v (some b) hodoDatablockSize n =
      ⟨4096, n, some (stamp b n), withBlock v b n⟩ ∧
    withBlock v b n = setWp (appended v (recordWrite v.info n).2 v.info.wp.zoneId n (stamp b n))
      (nextWp standardGeometry v.info.wp hodoDatablockSize) := by
  have hwrite := hodoWriteStruct_ok b n hz ready.at_wp ready.index_lt
  have hnumber := recordWrite_number v.info hn
  simp only [hnumber] at hwrite
  rw [withBlock, hwrite]
  exact ⟨rfl, rfl⟩

theorem withBlock_inTable (ready : Ready v) (hz : v.info.wp.zoneId ≤ 14) (hn : n ≠ 0) :
    InTable (withBlock v b n).info k ↔ InTable v.info k := by
  rw [(withBlock_eq ready hz hn).2, recordWrite, if_neg hn]
  rfl

theorem withBlock_entry (ready : Ready v) (hz : v.info.wp.zoneId ≤ 14) (hn : n ≠ 0)
    (hin : InTable v.info n) (hk : InTable v.info k) :
    tableEntry (withBlock v b n).info k = if k = n then v.info.wp else tableEntry v.info k := by
  have hentry : tableEntry (withBlock v b n).info k =
      if tableIndex v.info k = tableIndex v.info n then v.info.wp else tableEntry v.info k := by
    rw [(withBlock_eq ready hz hn).2, recordWrite, if_neg hn]
    rfl
  rw [hentry]
  by_cases heq : k = n
  · rw [heq, if_pos rfl, if_pos rfl]
  · rw [if_neg heq, if_neg fun hidx => heq (tableIndex_inj hk.1 hin.1 hidx)]

theorem withBlock_dev (ready : Ready v) (hz : v.info.wp.zoneId ≤ 14) (hn : n ≠ 0) :
    (withBlock v b n).dev =
      update v.dev v.info.wp.zoneId (v.dev v.info.wp.zoneId ++ [stamp b n]) := by
  rw [(withBlock_eq ready hz hn).2]
  rfl

/-- All stores of the write are inside the tables. -/
theorem withBlock_strayStores (ready : Ready v) (hz : v.info.wp.zoneId ≤ 14) (hn : n ≠ 0)
    (hin : InTable v.info n) : (withBlock v b n).info.strayStores = 0 := by
  have hwp : v.info.wp.zoneId < numberZones := by
    rw [numberZones_eq]
    omega
  have hnumber := recordWrite_number v.info hn
  have hkept : (recordWrite v.info n).2.strayStores = v.info.strayStores :=
    recordWrite_strayStores hwp (fun _ => ready.zones n hin) (by rw [hnumber]; exact hin.2)
  rw [(withBlock_eq ready hz hn).2]
  exact hkept.trans ready.inside

theorem stores_written (ready : Ready v) (hz : v.info.wp.zoneId ≤ 14) (hn : n ≠ 0)
    (hin : InTable v.info n) : Stores (withBlock v b n) n (stamp b n) := by
  have hentry : tableEntry (withBlock v b n).info n = v.info.wp := by
    rw [withBlock_entry ready hz hn hin hin, if_pos rfl]
  have hpos : 1 ≤ v.info.wp.zoneId := ready.zone_pos
  refine ⟨(withBlock_inTable ready hz hn).mpr hin, ?_, ?_, ?_, ?_⟩
  all_goals rw [hentry]
  · omega
  · exact hz
  · exact ready.index_lt
  · rw [withBlock_dev ready hz hn, blockAt_append_end ready.at_wp]

/-- Other numbers are left alone by a write. -/
theorem Stores.written (h : Stores v k c) (ready : Ready v) (hz : v.info.wp.zoneId ≤ 14)
    (hn : n ≠ 0) (hin : InTable v.info n) (hne : k ≠ n) : Stores (withBlock v b n) k c := by
  have hentry : tableEntry (withBlock v b n).info k = tableEntry v.info k := by
    rw [withBlock_entry ready hz hn hin h.inTable, if_neg hne]
  have hlt : (tableEntry v.info k).blockIndex < (v.dev (tableEntry v.info k).zoneId).length := by
    have hblock := h.block
    rw [blockAt] at hblock
    exact (List.getElem?_eq_some_iff.mp hblock).1
  refine ⟨(withBlock_inTable ready hz hn).mpr h.inTable, ?_, ?_, ?_, ?_⟩
  all_goals rw [hentry]
  · exact h.mapped
  · exact h.zone_le
  · exact h.index_lt
  · rw [withBlock_dev ready hz hn, blockAt_append hlt]
    exact h.block

theorem Ready.withBlock (ready : Ready v) (hz : v.info.wp.zoneId ≤ 13) (hn : n ≠ 0)
    (hin : InTable v.info n) : Ready (withBlock v b n) := by
  have hz' : v.info.wp.zoneId ≤ 14 := Nat.le_succ_of_le hz
  have hinside := withBlock_strayStores (b := b) ready hz' hn hin
  have hzones : ∀ k, InTable (StoredBlocks.withBlock v b n).info k →
      (tableEntry (StoredBlocks.withBlock v b n).info k).zoneId < numberZones := by
    intro k hk
    have hk' := (withBlock_inTable ready hz' hn).mp hk
    rw [withBlock_entry ready hz' hn hin hk']
    split
    · rw [numberZones_eq]
      omega
    · exact ready.zones k hk'
  have hzero : ¬ InTable (StoredBlocks.withBlock v b n).info 0 := fun hin =>
    ready.unnumbered ((withBlock_inTable ready (Nat.le_succ_of_le hz) hn).mp hin)
  have aligned := aligned_write ready.toAligned hz b n
  have hwrite := hodoWriteStruct_ok (v := { v with trace := [] }) b n (Nat.le_succ_of_le hz)
    ready.at_wp ready.index_lt
  rw [hwrite] at aligned
  rw [(withBlock_eq ready (Nat.le_succ_of_le hz) hn).2] at hzero hinside hzones ⊢
  have hnumber := recordWrite_number v.info hn
  simp only [hnumber] at aligned
  exact ⟨⟨aligned.zone_pos, aligned.index_lt, aligned.at_wp, aligned.ahead,
    fun e he => absurd he List.not_mem_nil⟩, hzero, hinside, hzones⟩

theorem erased_inTable : InTable (hodoEraseTableEntry v.info n) k ↔ InTable v.info k := by
  rw [InTable, tableIndex, erase_starting]
  rfl

theorem Ready.erased (ready : Ready v) (hin : InTable v.info n) :
    Ready { v with info := hodoEraseTableEntry v.info n } where
  toAligned := aligned_of_info ready.toAligned (erase_wp _ _)
  unnumbered := fun hzero => ready.unnumbered (erased_inTable.mp hzero)
  inside := (erase_strayStores hin.2).trans ready.inside
  zones k hk := by
    simp only [erase_tableEntry]
    split
    · exact Nat.succ_pos 15
    · exact ready.zones k (erased_inTable.mp hk)

/-- And by an erasure. -/
theorem Stores.erased (h : Stores v k c) (hin : InTable v.info n) (hne : k ≠ n) :
    Stores { v with info := hodoEraseTableEntry v.info n } k c := by
  have hentry : tableEntry (hodoEraseTableEntry v.info n) k = tableEntry v.info k := by
    rw [erase_tableEntry, if_neg fun hidx => hne (tableIndex_inj h.inTable.1 hin.1 hidx)]
  refine ⟨erased_inTable.mpr h.inTable, ?_, ?_, ?_, ?_⟩
  all_goals simp only [hentry]
  · exact h.mapped
  · exact h.zone_le
  · exact h.index_lt
  · exact h.block

end

section

variable {α β : Type} {E : Env} {m m' : Machine Volume} {n : Nat} {b : Block}

/-- A program that goes on after `p` has ended. -/
theorem after_done {p : Program α} {f : α → Program β} {r : α}
    (he : exec (machine volumeDisk E) p m = .done (r, m'))
    (fits : Guarded (machine volumeDisk E) Fits (p >>= f) m) :
    exec (machine volumeDisk E) (p >>= f) m = exec (machine volumeDisk E) (f r) m' ∧
      Guarded (machine volumeDisk E) Fits (f r) m' :=
  ⟨exec_bind_done he f, (guarded_bind.mp fits).2 r m' he⟩

theorem exec_hodoRead (h : Stores m.disk n b) (buf : Block) :
    exec (machine volumeDisk E) (hodoRead n buf) m = .done (b, m) := by
  simp only [hodoRead, Cmd.give, exec_bind, exec_cmd, machine, volumeDisk, h.read, Outcome.map,
    exec_pure, Option.getD_some, Machine.setDisk_self]

theorem exec_hodoWrite (ready : Ready m.disk) (hz : m.disk.info.wp.zoneId ≤ 14) (hn : n ≠ 0)
    (hin : InTable m.disk.info n) (b : Block) :
    exec (machine volumeDisk E) (hodoWrite b n) m =
      .done ((4096, n), m.setDisk (withBlock m.disk b n)) := by
  simp only [hodoWrite, Cmd.give, exec_bind, exec_cmd, machine, volumeDisk,
    (withBlock_eq ready hz hn).1, unlessStrayed, if_pos (withBlock_strayStores ready hz hn hin),
    Outcome.map, exec_pure]

/-- A write under a number leaves the log ready, and the other numbers alone. -/
theorem after_write {f : Int × Nat → Program β} (ready : Ready m.disk) (hn : n ≠ 0)
    (hin : InTable m.disk.info n)
    (fits : Guarded (machine volumeDisk E) Fits (hodoWrite b n >>= f) m) :
    ∃ m', m' = m.setDisk (withBlock m.disk b n) ∧
      exec (machine volumeDisk E) (hodoWrite b n >>= f) m =
        exec (machine volumeDisk E) (f (4096, n)) m' ∧
      Guarded (machine volumeDisk E) Fits (f (4096, n)) m' ∧ Ready m'.disk ∧
      Stores m'.disk n (stamp b n) ∧
      ∀ k c, k ≠ n → Stores m.disk k c → Stores m'.disk k c := by
  have data : WpInData m.disk := (guarded_bind.mp fits).1.1.1
  have hz : m.disk.info.wp.zoneId ≤ 14 := Nat.le_succ_of_le data.2
  obtain ⟨hexec, fits'⟩ := after_done (exec_hodoWrite ready hz hn hin b) fits
  exact ⟨_, rfl, hexec, fits', ready.withBlock data.2 hn hin, stores_written ready hz hn hin,
    fun k c hne h => h.written ready hz hn hin hne⟩

end

end StoredBlocks
