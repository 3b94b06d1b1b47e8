import HodoZns.PackedLog
import Mathlib.Data.List.Sort

/-!
# Collecting twice

A collected log is laid out in the order of its positions, one dead block in each
full zone. A second collection finds the same numbers in the same order and few
enough of them in front of every zone, so it packs the log to where it was.
-/

namespace Idempotence

open ByteBlock BitmapWords Layout BlockLog ZoneLog NumberAllocator Collector CallRuns LogCalls
open WritePointers SequentialWrites Consistency Relocation BlockPacking GCOutcome LogStore PackedLog

/-- The same numbers in the order of the same positions are the same list. -/
theorem liveOrder_unique {m : MappingInfo} {ns ns' : List Nat} (h : LiveOrder m ns)
    (h' : LiveOrder m ns') : ns = ns' := by
  have irrefl : Std.Irrefl fun n n' => Before (tableEntry m n) (tableEntry m n') :=
    ⟨fun _ => before_irrefl _⟩
  have antisymm : Std.Antisymm fun n n' => Before (tableEntry m n) (tableEntry m n') :=
    ⟨fun _ _ hb hb' => absurd (before_trans hb hb') (before_irrefl _)⟩
  exact h.sorted.eq_of_mem_iff h'.sorted fun n => (h.mapped n).trans (h'.mapped n).symm

theorem collectedPos_before {N j k : Nat} (hjk : j < k) :
    Before (collectedPos N j) (collectedPos N k) := by
  simp only [Before, collectedPos, blocksPerZone_eq]
  by_cases hzone : j / 65535 = k / 65535
  · refine Or.inr ⟨by rw [hzone], ?_⟩
    rw [hzone]
    split <;> split <;> omega
  · have : j / 65535 ≤ k / 65535 := Nat.div_le_div_right (Nat.le_of_lt hjk)
    exact Or.inl (by omega)

section

variable {v₀ v₁ v₂ : Volume} {ns ns' : List Nat}

/-- A collection leaves its numbers in the order in which it found them. -/
theorem packed_order_after (h : Packed v₀ ns v₁) (hpos : 1 ≤ v₁.info.wp.zoneId) :
    LiveOrder v₁.info ns := by
  refine ⟨fun n => ⟨fun hn => ?_, fun ⟨p, hm⟩ => ?_⟩, ?_⟩
  · obtain ⟨k, hk, rfl⟩ := List.getElem_of_mem hn
    have hin := h.same.inTable.mpr (h.wasMapped _ hn).1
    refine ⟨_, mapped_entry hin ?_⟩
    rw [packed_placed_eq h hpos hk]
    simp [collectedPos]
  · have hin := h.same.inTable.mp hm.1
    by_contra hnot
    have hold := (h.rest n hin hnot).symm.trans hm.2.1
    exact hnot (h.complete n p ⟨hin, hold, hm.2.2⟩)
  · refine List.pairwise_iff_getElem.mpr fun j k hj hk hjk => ?_
    rw [packed_placed_eq h hpos hj, packed_placed_eq h hpos hk]
    exact collectedPos_before hjk

theorem packed_zone_le (h : Packed v₀ ns v₁) (hpos : 1 ≤ v₁.info.wp.zoneId)
    (hcount : ns.length < 13 * (blocksPerZone - 1)) : v₁.info.wp.zoneId ≤ 13 := by
  rw [packed_wp_eq h hpos]
  simp only [blocksPerZone_eq] at hcount ⊢
  omega

/-- The first `r` zones of a collected log hold at most `r` batches. -/
theorem packed_sparse (h : Packed v₀ ns v₁) (hpos : 1 ≤ v₁.info.wp.zoneId)
    (ready : Collectable v₁) : Sparse v₁.info := by
  intro r _ hr
  have hcount : liveCount v₁.info r ≤ (ns.take (r * (blocksPerZone - 1))).length :=
    liveCount_le ready hr ?_
  · exact Nat.le_trans hcount (List.length_take_le _ _)
  · intro n p hm hz
    obtain ⟨k, hk, rfl⟩ :=
      List.getElem_of_mem (((packed_order_after h hpos).mapped n).mpr ⟨p, hm⟩)
    refine List.mem_take_iff_getElem.mpr ⟨k, ?_, rfl⟩
    have hzone := congrArg BlockPos.zoneId (hm.2.1.symm.trans (packed_placed_eq h hpos hk))
    simp only [collectedPos, blocksPerZone_eq] at hzone ⊢
    omega

/-- What a collection leaves may be collected again. -/
theorem packed_collectable (h : Packed v₀ ns v₁) (aligned : Aligned v₁)
    (hcount : ns.length < 13 * (blocksPerZone - 1)) : Collectable v₁ :=
  ⟨aligned.clearAhead, h.same.consistent, packed_zone_le h aligned.zone_pos hcount⟩

/-- The same table, bitmaps, write pointer and contents. -/
structure SameLog (v w : Volume) : Prop where
  table : ∀ i, i < numberMappingTableEntry → w.info.mappingTable i = v.info.mappingTable i
  gcBitmap : ∀ z i, z < numberZones → i < blocksPerZone → live w.info z i = live v.info z i
  logicalEntryBitmap : w.info.logicalEntryBitmap = v.info.logicalEntryBitmap
  wp : w.info.wp = v.info.wp
  contents : ∀ n p, Mapped v.info n p → stored w n = stored v n

theorem packed_again_table (h : Packed v₀ ns v₁) (h' : Packed v₁ ns v₂)
    (hpos : 1 ≤ v₁.info.wp.zoneId) (hpos' : 1 ≤ v₂.info.wp.zoneId) {n : Nat}
    (hn : InTable v₁.info n) : tableEntry v₂.info n = tableEntry v₁.info n := by
  by_cases hmem : n ∈ ns
  · obtain ⟨k, hk, rfl⟩ := List.getElem_of_mem hmem
    rw [packed_placed_eq h hpos hk, packed_placed_eq h' hpos' hk]
  · exact h'.rest n hn hmem

theorem packed_again (h : Packed v₀ ns v₁) (h' : Packed v₁ ns' v₂)
    (hpos : 1 ≤ v₁.info.wp.zoneId) (hpos' : 1 ≤ v₂.info.wp.zoneId)
    (outside : ∀ z i, z = 0 ∨ z = 15 → i < blocksPerZone → live v₁.info z i = false) :
    SameLog v₁ v₂ := by
  obtain rfl := liveOrder_unique (packed_order_after h hpos) (packed_order h')
  constructor
  · intro i hi
    have hidx := tableIndex_number v₁.info hi
    have hin : InTable v₁.info ((v₁.info.startingLogicalNumber + i) % 2 ^ 32) :=
      ⟨Nat.mod_lt _ (by decide), by rw [hidx]; exact hi⟩
    have hentry := packed_again_table h h' hpos hpos' hin
    have hidx' : tableIndex v₂.info ((v₁.info.startingLogicalNumber + i) % 2 ^ 32) = i := by
      rw [tableIndex, h'.same.starting]
      exact hidx
    rwa [tableEntry, tableEntry, hidx, hidx'] at hentry
  · intro z i hz hi
    simp only [numberZones_eq] at hz
    by_cases hin : z = 0 ∨ z = 15
    · have hclear := outside z i hin hi
      rw [hclear, Bool.eq_false_iff]
      intro hset
      rw [h'.same.outside z i (by omega) hset] at hclear
      cases hclear
    · have hne : z ≠ 0 := fun hzero => hin (Or.inl hzero)
      rw [Bool.eq_iff_iff]
      calc live v₂.info z i = true
          ↔ ∃ n, Mapped v₂.info n ⟨z, i⟩ :=
            h'.same.consistent.live_iff (p := ⟨z, i⟩) hne (by simp only; omega) hi
        _ ↔ ∃ k, k < ns.length ∧ collectedPos ns.length k = ⟨z, i⟩ := packed_mapped_iff h' hpos'
        _ ↔ ∃ n, Mapped v₁.info n ⟨z, i⟩ := (packed_mapped_iff h hpos).symm
        _ ↔ live v₁.info z i = true :=
            (h.same.consistent.live_iff (p := ⟨z, i⟩) hne (by simp only; omega) hi).symm
  · exact h'.same.bitmap
  · rw [packed_wp_eq h hpos, packed_wp_eq h' hpos']
  · exact fun n p hm => h'.same.stored_eq n hm.1

end

/-- No bit is set but for a mapped number, and not every zone is needed for the
live blocks. -/
structure RoomyInput (info : MappingInfo) (dev : Nat → List Block) : Prop
    extends CollectorInput info dev where
  marks : ∀ z i, z < numberZones → i < blocksPerZone → live info z i = true →
    ∃ n, Mapped info n ⟨z, i⟩
  room : liveCount info 13 < 13 * (blocksPerZone - 1)

theorem RoomyInput.outside {info : MappingInfo} {dev : Nat → List Block}
    (h : RoomyInput info dev) {z i : Nat} (hz : z = 0 ∨ z = 15) (hi : i < blocksPerZone) :
    live info z i = false := by
  rw [Bool.eq_false_iff]
  intro hset
  obtain ⟨n, hm⟩ := h.marks z i (by simp only [numberZones_eq]; omega) hi hset
  have hne := hm.2.2
  have hle := (h.inZones n _ hm).1
  simp only at hne hle
  omega

/-- A second collection changes nothing. -/
theorem GC_idempotent {info : MappingInfo} {dev : Nat → List Block} (h : RoomyInput info dev)
    (kmem kmem' : Block) :
    ∃ v₁ v₂, GC standardGeometry kmem ⟨info, dev, []⟩ = some v₁ ∧
      GC standardGeometry kmem' v₁ = some v₂ ∧ SameLog v₁ v₂ := by
  have ready := h.toCollectorInput.collectable
  obtain ⟨v₁, hgc, aligned, ⟨_, ns, packed⟩ | ⟨crowded, _⟩⟩ := GC_outcome ready kmem
  swap
  · exact absurd h.sparse crowded
  have hcount : ns.length < 13 * (blocksPerZone - 1) := by
    refine Nat.lt_of_le_of_lt (oldPositions_live ready ns 13 (fun n hn =>
      ⟨packed.wasMapped n hn, (h.inZones _ _ (packed.wasMapped n hn)).1⟩) ?_) h.room
    exact packed.sorted.imp fun {n n'} hb (he : n = n') => before_irrefl _ (he ▸ hb)
  have ready₁ := packed_collectable packed aligned hcount
  obtain ⟨v₂, hgc', aligned', ⟨_, ns', packed'⟩ | ⟨crowded, _⟩⟩ := GC_outcome ready₁ kmem'
  swap
  · exact absurd (packed_sparse packed aligned.zone_pos ready₁) crowded
  refine ⟨v₁, v₂, hgc, hgc', ?_⟩
  refine packed_again packed packed' aligned.zone_pos aligned'.zone_pos fun z i hz hi => ?_
  rw [Bool.eq_false_iff]
  intro hset
  have hclear := h.outside hz hi
  rw [packed.same.outside z i (by omega) hset] at hclear
  cases hclear

/-- Entering a block sets no bit but its own. -/
theorem live_recordWrite {m : MappingInfo} {n : Nat} {q : BlockPos}
    (h : live (recordWrite m n).2 q.zoneId q.blockIndex = true) :
    q = m.wp ∨ live m q.zoneId q.blockIndex = true := by
  by_cases hn : n = 0
  · have hrec : live (recordWrite m n).2 q.zoneId q.blockIndex =
        live (hodoSetGCBitmap m m.wp) q.zoneId q.blockIndex := by
      rw [recordWrite, if_pos hn, live, live, ← getNext_gcBitmap (hodoSetGCBitmap m m.wp)]
      rfl
    rw [hrec, live_setGCBitmap] at h
    simpa only [Bool.or_eq_true, decide_eq_true_eq] using h
  · rw [recordWrite, if_neg hn] at h
    exact ((live_set_unset m n m.wp q).mp h).2

/-- The only live block of a fresh log is the root inode in zone 1. -/
theorem live_firstMount {stack : Block} {uid gid : Nat} {q : BlockPos}
    (h : live (firstMount standardGeometry stack uid gid).info q.zoneId q.blockIndex = true) :
    q = ⟨1, 0⟩ := by
  have hnumber : (hodoGetNextLogicalNumber unwritten.info).1 = 16 := by decide +kernel
  have aligned := aligned_of_info aligned_unwritten (getNext_wp unwritten.info)
  have hwp : (hodoGetNextLogicalNumber unwritten.info).2.wp = ⟨1, 0⟩ := getNext_wp _
  rw [firstMount_eq, hnumber, hodoWriteStruct_ok _ 16 (by rw [hwp]; decide) aligned.at_wp
    aligned.index_lt] at h
  simp only [live, setWp, appended] at h
  rcases live_recordWrite h with he | hold
  · rw [he, hwp]
  · have hclear : live unwritten.info q.zoneId q.blockIndex = false :=
      testBit_full false (q.blockIndex % 32)
    rw [live, getNext_gcBitmap] at hold
    rw [live, hold] at hclear
    cases hclear

/-- No bit belongs to a zone the log never reaches. -/
def Unmarked (v : Volume) : Prop :=
  ∀ q : BlockPos, q.zoneId = 0 ∨ 15 ≤ q.zoneId → live v.info q.zoneId q.blockIndex = false

theorem unmarked_firstMount (stack : Block) (uid gid : Nat) :
    Unmarked (firstMount standardGeometry stack uid gid) := by
  intro q hq
  rw [Bool.eq_false_iff]
  intro hset
  obtain rfl := live_firstMount hset
  simp only at hq
  omega

/-- What the map takes, the log enters in a data zone; a collection sets no bit outside. -/
theorem unmarked_call {v : Volume} {s s' : Store} {c : LogCall} {a : Answer}
    (h : Represents v s ∧ Unmarked v) (room : RoomFor v c) (hstep : storeStep s c = some (a, s')) :
    ∃ v', callStep standardGeometry v c = some (a, v') ∧ Represents v' s' ∧ Unmarked v' := by
  obtain ⟨represents, unmarked⟩ := h
  obtain ⟨v', hcall, represents'⟩ := call_simulates represents room hstep
  refine ⟨v', hcall, represents', fun q hq => ?_⟩
  rw [Bool.eq_false_iff]
  intro hset
  have hold : live v.info q.zoneId q.blockIndex = true := by
    cases c with
    | next =>
      rw [callStep_next] at hcall
      obtain ⟨_, rfl⟩ := Prod.mk.inj (Option.some.inj hcall)
      rwa [live, getNext_gcBitmap] at hset
    | write buf len n =>
      cases buf with
      | none => cases hstep
      | some b =>
        rw [storeStep] at hstep
        split at hstep
        case isFalse => cases hstep
        case isTrue hlen =>
        have hwp : v.info.wp.zoneId ≤ 13 := room.2
        rw [callStep_write, hlen, hodoWriteStruct_ok b n (Nat.le_succ_of_le hwp)
          represents.aligned.at_wp represents.aligned.index_lt] at hcall
        obtain ⟨_, rfl⟩ := Prod.mk.inj (Option.some.inj hcall)
        rcases live_recordWrite hset with rfl | hold
        · have hpos := represents.aligned.zone_pos
          omega
        · exact hold
    | read n outBuf len =>
      cases hread : hodoReadStruct standardGeometry ioOk v n outBuf len with
      | none =>
        rw [callStep, hread] at hcall
        cases hcall
      | some r =>
        rw [callStep, hread] at hcall
        obtain ⟨_, rfl⟩ := Prod.mk.inj (Option.some.inj hcall)
        exact hset
    | erase n => cases hstep
    | gc kmem =>
      have ready : Collectable v :=
        ⟨represents.aligned.clearAhead, represents.consistent, room.1.2⟩
      obtain ⟨v₁, hgc, _, ⟨_, _, packed⟩ | ⟨crowded, _⟩⟩ := GC_outcome ready kmem
      · rw [callStep, hgc] at hcall
        obtain ⟨_, rfl⟩ := Prod.mk.inj (Option.some.inj hcall)
        exact packed.same.outside _ _ hq hset
      · exact absurd room.2 crowded
  rw [unmarked q hq] at hold
  cases hold

/-- What a run leaves behind may be collected twice. -/
theorem roomyInput_of_run {stack : Block} {uid gid : Nat} {cs : List LogCall} {as : List Answer}
    {s : Store}
    (room : EachCall (callStep standardGeometry) RoomFor cs
      (firstMount standardGeometry stack uid gid))
    (answers : run storeStep cs (mountedStore stack uid gid) = some (as, s))
    (hcount : s.count ≤ blocksPerZone - 1) {v : Volume}
    (hrun : run (callStep standardGeometry) cs (firstMount standardGeometry stack uid gid) =
      some (as, v)) (hz : WpInData v) : RoomyInput v.info v.dev := by
  obtain ⟨v', hrun', represents, unmarked⟩ := run_simulates RoomFor
    (fun v s => Represents v s ∧ Unmarked v)
    (fun v s c a s' h room hstep => unmarked_call h room hstep)
    ⟨represents_firstMount stack uid gid, unmarked_firstMount stack uid gid⟩ room answers
  obtain ⟨_, rfl⟩ := Prod.mk.inj (Option.some.inj (hrun'.symm.trans hrun))
  refine ⟨collectorInput_of_represents represents hz (sparse_of_count represents hz hcount),
    fun z i hzone hi hlive => ?_, ?_⟩
  · by_cases hin : z = 0 ∨ 15 ≤ z
    · have hclear := unmarked ⟨z, i⟩ hin
      rw [hlive] at hclear
      cases hclear
    · simp only [numberZones_eq] at hzone
      exact (represents.consistent.live_iff (p := ⟨z, i⟩) (by simp only; omega)
        (by simp only; omega) hi).mp hlive
  · have hle := liveCount_le_count represents hz (Nat.le_refl 13)
    simp only [blocksPerZone_eq] at hcount ⊢
    omega

theorem GC_idempotent_scattered : ∃ v v₁ v₂, Scattered v ∧
    GC standardGeometry zeros ⟨v.info, v.dev, []⟩ = some v₁ ∧
    GC standardGeometry zeros v₁ = some v₂ ∧ SameLog v₁ v₂ := by
  obtain ⟨as, v, hrun, scattered⟩ := scatteredRun_scattered
  obtain ⟨⟨as', s⟩, answers, hcount⟩ := scatteredRun_answers
  obtain ⟨v', hrun', _⟩ := run_simulates RoomFor Represents
    (fun v s c a s' h room hstep => call_simulates h room hstep)
    (represents_firstMount zeros 0 0) scatteredRun_room answers
  obtain ⟨rfl, rfl⟩ := Prod.mk.inj (Option.some.inj (hrun'.symm.trans hrun))
  have few : s.count ≤ blocksPerZone - 1 := by
    rw [hcount, blocksPerZone_eq]
    decide
  obtain ⟨v₁, v₂, hgc, hgc', same⟩ := GC_idempotent
    (roomyInput_of_run scatteredRun_room answers few hrun scattered.wp) zeros zeros
  exact ⟨v', v₁, v₂, scattered, hgc, hgc', same⟩

end Idempotence
