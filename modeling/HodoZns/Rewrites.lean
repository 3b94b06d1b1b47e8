import HodoZns.BlockPacking
import HodoZns.Termination

/-!
# What the writers change

Both writers, and the loops of the collector that call them, enter a number at a
pointer and give the zone there a block. A zone that does not end at the pointer
refuses the block; table and bits are changed all the same.
-/

namespace Rewrites

open Layout BlockLog ZoneLog Collector LogCalls WritePointers SequentialWrites Consistency
  Relocation
open Termination Geometries

section

variable {G : Geometry} {v v' : Volume} {n : Nat} {p q : BlockPos} {b temp : Block}

/-- `m'` is `m` with number `n` entered at `q`; the bit of its old position is cleared last. -/
structure Entered (m m' : MappingInfo) (n : Nat) (q : BlockPos) : Prop where
  starting : m'.startingLogicalNumber = m.startingLogicalNumber
  table : m'.mappingTable = update m.mappingTable (tableIndex m n) q
  live_iff : ∀ x : BlockPos, live m' x.zoneId x.blockIndex = true ↔
    x ≠ tableEntry m n ∧ (x = q ∨ live m x.zoneId x.blockIndex = true)

theorem Entered.inTable {m m' : MappingInfo} {n n' : Nat} {q : BlockPos} (h : Entered m m' n q) :
    InTable m' n' ↔ InTable m n' := by
  simp only [InTable, tableIndex, h.starting]

theorem Entered.entry {m m' : MappingInfo} {n n' : Nat} {q : BlockPos} (h : Entered m m' n q)
    (hn : InTable m n) (hn' : InTable m n') :
    tableEntry m' n' = if n' = n then q else tableEntry m n' :=
  entry_of_update h.starting h.table hn hn'

theorem Entered.mapped_iff {m m' : MappingInfo} {n n' : Nat} {p q : BlockPos}
    (h : Entered m m' n q) (hn : InTable m n) (hq : q.zoneId ≠ 0) :
    Mapped m' n' p ↔ if n' = n then p = q else Mapped m n' p := by
  simp only [Mapped, h.inTable]
  by_cases hn' : InTable m n'
  · simp only [h.entry hn hn']
    split
    case isTrue hne => exact ⟨fun hp => hp.2.1.symm, fun hp => ⟨hn', hp.symm, hp ▸ hq⟩⟩
    case isFalse => rfl
  · have hne : n' ≠ n := fun he => hn' (he ▸ hn)
    simp only [if_neg hne, hn', false_and]

theorem entered_recordMove (m : MappingInfo) (n : Nat) : Entered m (recordMove m n) n m.swapWp :=
  ⟨rfl, rfl, live_set_unset m n m.swapWp⟩

theorem entered_recordWrite (m : MappingInfo) {n : Nat} (hn : n ≠ 0) :
    (recordWrite m n).1 = n ∧ Entered m (recordWrite m n).2 n m.wp := by
  rw [recordWrite, if_neg hn]
  exact ⟨rfl, rfl, rfl, live_set_unset m n m.wp⟩

/-- What `hodo_GC_write_struct` and `hodo_write_struct` have in common. -/
structure Rewritten (v v' : Volume) (n : Nat) (q : BlockPos) (b : Block) : Prop where
  entered : Entered v.info v'.info n q
  dev : v'.dev = update v.dev q.zoneId (grown (v.dev q.zoneId) q.blockIndex b)

theorem Rewritten.other (h : Rewritten v v' n q b) {z : Nat} (hz : z ≠ q.zoneId) :
    v'.dev z = v.dev z := by
  rw [h.dev, update_other _ _ hz]

theorem Rewritten.grown (h : Rewritten v v' n q b)
    (hend : (v.dev q.zoneId).length = q.blockIndex) :
    v'.dev q.zoneId = v.dev q.zoneId ++ [b] := by
  rw [h.dev, update_same, Geometries.grown, if_pos hend]

theorem Rewritten.blockAt_end (h : Rewritten v v' n q b)
    (hend : (v.dev q.zoneId).length = q.blockIndex) : blockAt v'.dev q = some b := by
  rw [h.dev, Geometries.grown, if_pos hend]
  exact blockAt_append_end hend

theorem Rewritten.refused (h : Rewritten v v' n q b)
    (hfull : (v.dev q.zoneId).length ≠ q.blockIndex) : v'.dev = v.dev := by
  rw [h.dev, Geometries.grown, if_neg hfull, update_self]

/-- Blocks are only added. -/
theorem Rewritten.blockAt_of_some (h : Rewritten v v' n q b) {x : BlockPos} {c : Block}
    (hx : blockAt v.dev x = some c) : blockAt v'.dev x = some c := by
  by_cases hend : (v.dev q.zoneId).length = q.blockIndex
  · have hlt := (List.getElem?_eq_some_iff.mp hx).1
    rw [h.dev, Geometries.grown, if_pos hend, blockAt_append hlt, hx]
  · rw [h.refused hend, hx]

/-- A block that was read goes to the swap zone, or is refused there. -/
theorem swapInOne_rewrites (fits : FitsTables G) {pos : BlockPos}
    (hread : gcRead G v pos temp = b) (hz : v.info.swapWp.zoneId = swapZone G)
    (hi : v.info.swapWp.blockIndex < zoneBlocks G) :
    Rewritten v (swapInOne G pos temp v).2 (ownNumber b) v.info.swapWp b ∧
      (swapInOne G pos temp v).2.info.wp = v.info.wp ∧
      (swapInOne G pos temp v).2.info.swapWp = nextSwapWp G v.info.swapWp hodoDatablockSize := by
  have hlen : ¬ (hodoDatablockSize = 0 ∨ hodoDatablockSize < hodoDatablockSize) := by decide
  have hdev := zoneWrite_dev fits { v with info := recordMove v.info (ownNumber b) }
    v.info.swapWp.zoneId (ownNumber b) b hi
  simp only [swapInOne_eq, hread, hodoGCWriteStruct_some, if_neg hlen, setSwapWp,
    filpOpen_of_le fits (Nat.le_of_eq hz)]
  have entered := entered_recordMove v.info (ownNumber b)
  exact ⟨⟨⟨entered.starting, entered.table, entered.live_iff⟩, hdev⟩, rfl, trivial⟩

/-- A block written under a given number goes to the log. -/
theorem hodoWriteStruct_rewrites (fits : FitsTables G) (b : Block) (hn : n ≠ 0)
    (hz : v.info.wp.zoneId ≤ swapZone G) (hi : v.info.wp.blockIndex < zoneBlocks G) :
    Rewritten v (hodoWriteStruct G ioOk v (some b) hodoDatablockSize n).volume n v.info.wp
      (stamp b n) ∧
      (hodoWriteStruct G ioOk v (some b) hodoDatablockSize n).volume.info.wp =
        nextWp G v.info.wp hodoDatablockSize ∧
      (hodoWriteStruct G ioOk v (some b) hodoDatablockSize n).volume.info.swapWp = v.info.swapWp ∧
      (hodoWriteStruct G ioOk v (some b) hodoDatablockSize n).buf = some (stamp b n) := by
  have hlen : ¬ (hodoDatablockSize = 0 ∨ hodoDatablockSize < hodoDatablockSize) := by decide
  obtain ⟨hfirst, entered⟩ := entered_recordWrite v.info hn
  have hdev := zoneWrite_dev fits { v with info := (recordWrite v.info n).2 }
    v.info.wp.zoneId n (stamp b n) hi
  simp only [hodoWriteStruct_some, if_neg hlen, setWp, filpOpen_of_le fits hz, hfirst]
  exact ⟨⟨⟨entered.starting, entered.table, entered.live_iff⟩, hdev⟩, trivial,
    recordWrite_swapWp _ _, trivial⟩

/-- A block that was read goes to the log. -/
theorem swapOutOne_rewrites (fits : FitsTables G) {ptr : BlockPos}
    (hread : gcRead G v ptr temp = b) (hn : ownNumber b ≠ 0) (hz : v.info.wp.zoneId ≤ swapZone G)
    (hi : v.info.wp.blockIndex < zoneBlocks G) :
    (swapOutOne G ptr temp v).1 = b ∧
      Rewritten v (swapOutOne G ptr temp v).2 (ownNumber b) v.info.wp b ∧
      (swapOutOne G ptr temp v).2.info.wp = nextWp G v.info.wp hodoDatablockSize ∧
      (swapOutOne G ptr temp v).2.info.swapWp = v.info.swapWp := by
  obtain ⟨hrew, hwp, hswapWp, hbuf⟩ := hodoWriteStruct_rewrites fits b hn hz hi
  rw [stamp_own] at hrew hbuf
  simp only [swapOutOne_eq, hread]
  exact ⟨by rw [hbuf]; rfl, hrew, hwp, hswapWp⟩

theorem resetZones_frame (G : Geometry) (turns i : Nat) (v : Volume) :
    (resetZones G turns i v).info = v.info ∧
      ∀ z, z < i ∨ i + turns ≤ z → (resetZones G turns i v).dev z = v.dev z := by
  induction turns generalizing i v with
  | zero => exact ⟨rfl, fun _ _ => rfl⟩
  | succ turns ih =>
    obtain ⟨hinfo, hdev⟩ := ih (i + 1) (truncateZone G v i)
    rw [resetZones_succ, hinfo, truncateZone_info]
    refine ⟨rfl, fun z hz => ?_⟩
    rw [hdev z (by omega), truncateZone_dev G v (by omega)]

/-- The resets behind the log leave the zones of the log alone. -/
theorem resetBehind_frame (G : Geometry) (prev : BlockPos) (v : Volume) :
    (resetBehind G prev v).info = v.info ∧
      ∀ z, z < firstBehind v.info.wp ∨ prev.zoneId < z ∧ firstBehind v.info.wp ≤ z →
        (resetBehind G prev v).dev z = v.dev z := by
  obtain ⟨hinfo, hdev⟩ := resetZones_frame G (prev.zoneId + 1 - firstBehind v.info.wp)
    (firstBehind v.info.wp) v
  exact ⟨hinfo, fun z hz => hdev z (by omega)⟩

end

end Rewrites
