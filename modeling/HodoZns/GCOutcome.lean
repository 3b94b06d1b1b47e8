import HodoZns.BlockPacking

/-!
# The outcome of a collection

Either no prefix of the zones holds too many live blocks; then every reset meets
an unused zone, and the log holds the same blocks, packed. Or some prefix does;
then a reset hits a zone that is still in use.
-/

namespace GCOutcome

open ByteBlock BitmapWords Layout BlockLog ZoneLog NumberAllocator Collector LogCalls WritePointers
open SequentialWrites Consistency Relocation BlockPacking

theorem truncateZone_kept (G : Geometry) (v : Volume) (zone : Nat) :
    ∀ e ∈ v.trace, e ∈ (truncateZone G v zone).trace := by
  intro e he
  rw [truncateZone]
  split
  · exact List.mem_cons_of_mem _ he
  · exact he

theorem swapOutOne_kept {v : Volume} (ptr : BlockPos) (temp : Block) (hz : v.info.wp.zoneId ≤ 14)
    (hlen : (v.dev v.info.wp.zoneId).length = v.info.wp.blockIndex)
    (hi : v.info.wp.blockIndex < blocksPerZone) :
    ∀ e ∈ v.trace, e ∈ (swapOutOne standardGeometry ptr temp v).2.trace := by
  rw [swapOutOne_ok ptr temp hz hlen hi]
  exact fun e he => List.mem_cons_of_mem _ he

theorem swapInOne_kept {prev : Nat} {v : Volume} (h : Collecting prev v)
    (room : v.info.swapWp.blockIndex + 1 < blocksPerZone) (pos : BlockPos) (temp : Block) :
    ∀ e ∈ v.trace, e ∈ (swapInOne standardGeometry pos temp v).2.trace := by
  rw [swapInOne_ok pos temp (by rw [h.swap_zone]) (by rw [h.swap_zone]; exact h.at_swap) room]
  exact fun e he => List.mem_cons_of_mem _ he

/-- A drain starts with a reset of the write pointer's zone. -/
theorem drainFull_kept {prev : Nat} {v v' : Volume} {temp temp' : Block} (h : Collecting prev v)
    (hz : v.info.wp.zoneId ≤ 13) (hdrain : drainFull standardGeometry temp v = some (temp', v')) :
    (∀ e ∈ v.trace, e ∈ v'.trace) ∧
    ⟨.reset v.info.wp.zoneId, v.info.mappingTable, v.dev⟩ ∈ v'.trace := by
  let v₁ := truncateZone standardGeometry v v.info.wp.zoneId
  obtain ⟨temp₂, v₂, hloop, _, hkept⟩ := swapOutFull_total standardGeometry
    (fun i _ w => SwappingOut v₁ v.info.wp.zoneId i w ∧ ∀ e ∈ v₁.trace, e ∈ w.trace)
    (fun i temp w hi hp => by
      have hwp := hp.1.wp_of_lt hi
      refine ⟨swappingOut_turn hz hi hp.1 ⟨14, i⟩ temp, fun e he => ?_⟩
      exact swapOutOne_kept ⟨14, i⟩ temp (by rw [hwp]; simp only; omega)
        (by rw [hwp]; exact hp.1.filled) (by rw [hwp]; exact hi) e (hp.2 e he))
    temp ⟨swappingOut_start h hz, fun _ he => he⟩
  simp only [drainFull_eq, hloop, Option.map_some] at hdrain
  obtain ⟨_, rfl⟩ := Prod.mk.inj (Option.some.inj hdrain)
  have hlast := truncateZone_kept standardGeometry v₂ v₂.info.swapWp.zoneId
  refine ⟨fun e he => hlast e (hkept e (truncateZone_kept _ v _ e he)), hlast _ (hkept _ ?_)⟩
  simp only [v₁, truncateZone_ok v (show v.info.wp.zoneId ≤ 14 by omega)]
  exact List.mem_cons_self

theorem drainRest_kept {prev : Nat} {v v' : Volume} {temp temp' : Block} (h : Collecting prev v)
    (hrest : drainRest standardGeometry temp v = some (temp', v')) :
    ∀ e ∈ v.trace, e ∈ v'.trace := by
  let v₁ := truncateZone standardGeometry v v.info.wp.zoneId
  have hlt := h.swap_lt
  rcases drainRest_total
      (fun i w => SwappingOut v₁ v.info.wp.zoneId i w ∧ ∀ e ∈ v₁.trace, e ∈ w.trace) temp hlt
      (fun i w hw => by simp only [hw.1.swapWp, v₁, truncateZone_ok v h.zone_le])
      (fun i temp w hi hw => by
        have hz := h.data_zone (by omega)
        have hwp := hw.1.wp_of_lt (show i < blocksPerZone by omega)
        refine ⟨swappingOut_turn hz (by omega) hw.1 ⟨14, i⟩ temp, fun e he => ?_⟩
        exact swapOutOne_kept ⟨14, i⟩ temp (by rw [hwp]; simp only; omega)
          (by rw [hwp]; exact hw.1.filled) (by rw [hwp]; simp only; omega) e (hw.2 e he))
      (fun hne => ⟨swappingOut_start h (h.data_zone hne), fun _ he => he⟩) with
    ⟨_, heq⟩ | ⟨_, temp₂, v₂, ⟨_, hkept⟩, heq⟩
  · rw [hrest] at heq
    obtain ⟨_, rfl⟩ := Prod.mk.inj (Option.some.inj heq)
    exact fun _ he => he
  · rw [hrest] at heq
    obtain ⟨_, rfl⟩ := Prod.mk.inj (Option.some.inj heq)
    exact fun e he => truncateZone_kept _ _ _ e (hkept e (truncateZone_kept _ v _ e he))

theorem resetZones_kept (G : Geometry) (turns i : Nat) (v : Volume) :
    ∀ e ∈ v.trace, e ∈ (resetZones G turns i v).trace := by
  induction turns generalizing i v with
  | zero => exact fun _ he => he
  | succ turns ih => exact fun e he => ih (i + 1) _ e (truncateZone_kept G v i e he)

/-- As long as no reset has gone wrong the moved blocks are packed. -/
def Scanned (v₀ v : Volume) : Prop :=
  (∃ done, Packing v₀ done v ∧ ∀ r, 1 ≤ r → r < v.info.wp.zoneId →
    liveCount v₀.info r ≤ r * (blocksPerZone - 1)) ∨
  (¬ Sparse v₀.info ∧ ∃ e ∈ v.trace, ¬ SafeReset e)

theorem scanned_swapIn {prev : Nat} {v₀ v : Volume} (ready : Collectable v₀) (h : Scanned v₀ v)
    (hc : Collecting prev v) (room : v.info.swapWp.blockIndex + 1 < blocksPerZone)
    (found : (hodoGetNextGCValid v.info).zoneId ≠ 0) (hz : v.info.wp.zoneId ≤ 13) (temp : Block) :
    Scanned v₀ (swapInOne standardGeometry (hodoGetNextGCValid v.info) temp v).2 := by
  obtain ⟨_, hwp, _⟩ := collecting_swapIn hc room hz (hodoGetNextGCValid v.info) temp
  rcases h with ⟨done, hp, hcount⟩ | ⟨hcrowded, e, he, hbad⟩
  · obtain ⟨n, hp'⟩ := packing_swapIn ready hp hc room found temp
    exact Or.inl ⟨_, hp', by rw [hwp]; exact hcount⟩
  · exact Or.inr ⟨hcrowded, e, swapInOne_kept hc room _ temp e he, hbad⟩

theorem scanned_drain {prev : Nat} {v₀ v v' : Volume} {temp temp' : Block}
    (ready : Collectable v₀) (h : Scanned v₀ v) (hc : Collecting prev v)
    (hz : v.info.wp.zoneId ≤ 13) (full : v.info.swapWp.blockIndex = blocksPerZone - 1)
    (hdrain : drainFull standardGeometry temp v = some (temp', v')) : Scanned v₀ v' := by
  obtain ⟨hkept, hreset⟩ := drainFull_kept hc hz hdrain
  have hwp : v'.info.wp = ⟨v.info.wp.zoneId + 1, 0⟩ := by
    obtain ⟨temp₂, v₂, hdrain', _, hwp', _⟩ := collecting_drainFull hc hz temp
    rw [hdrain] at hdrain'
    obtain ⟨_, rfl⟩ := Prod.mk.inj (Option.some.inj hdrain')
    exact hwp'
  rcases h with ⟨done, hp, hcount⟩ | ⟨hcrowded, e, he, hbad⟩
  · have hiff := hp.unused_iff ready hc.zone_pos hz full
    by_cases unused : ∀ n p, Mapped v.info n p → p.zoneId ≠ v.info.wp.zoneId
    · refine Or.inl ⟨done, packing_drain ready hp hc hz full unused hdrain, fun r hr hlt => ?_⟩
      rw [hwp] at hlt
      rcases Nat.lt_succ_iff_lt_or_eq.mp hlt with hlt | heq
      · exact hcount r hr hlt
      · rw [heq]
        exact hiff.mp unused
    · refine Or.inr ⟨fun sparse => ?_, _, hreset, fun safe => unused fun n p hm => ?_⟩
      · exact unused (hiff.mpr (sparse _ hc.zone_pos hz))
      · exact unused_of_safeReset safe hm
  · exact Or.inr ⟨hcrowded, e, hkept e he, hbad⟩

theorem collect_scanned {v : Volume} (ready : Collectable v) (kmem : Block) :
    ∃ temp v', collect standardGeometry kmem (startGC standardGeometry v) = some (temp, v') ∧
      Scanned v v' ∧ Collecting v.info.wp.zoneId v' ∧
      v'.info.swapWp.blockIndex + 1 < blocksPerZone ∧ (hodoGetNextGCValid v'.info).zoneId = 0 := by
  refine collect_total (Scanned v) ?_ ?_ (Or.inl ⟨[], packing_start ready, ?_⟩)
    (collecting_start ready.clear ready.wp_le) (by simp [startGC, setSwapWp, setWp]) kmem
  · intro temp w h hc room found hz
    exact scanned_swapIn ready h hc (by omega) found hz temp
  · intro temp w temp' w' h hc full found hz hdrain
    have room : w.info.swapWp.blockIndex + 1 < blocksPerZone := by omega
    obtain ⟨hc', hwp, hswap⟩ := collecting_swapIn hc room hz (hodoGetNextGCValid w.info) temp
    exact scanned_drain ready (scanned_swapIn ready h hc room found hz temp) hc'
      (by rw [hwp]; exact hz) (by rw [hswap]; simp only; omega) hdrain
  · intro r hr hlt
    simp only [startGC, setSwapWp, setWp] at hlt
    omega

/-- Where block `j` is in the end: in a full batch, or in the short last one. -/
def finalPos (a j : Nat) : BlockPos :=
  if j < (a - 1) * (blocksPerZone - 1) then batchPos j
  else ⟨a, j - (a - 1) * (blocksPerZone - 1)⟩

/-- All blocks have been moved into the log that ends at the write pointer. -/
structure Packed (v₀ : Volume) (done : List Nat) (v : Volume) : Prop where
  same : SameData v₀ v
  complete : ∀ n p, Mapped v₀.info n p → n ∈ done
  length : done.length = (v.info.wp.zoneId - 1) * (blocksPerZone - 1) + v.info.wp.blockIndex
  index_lt : v.info.wp.blockIndex < blocksPerZone - 1
  wasMapped : ∀ n ∈ done, Mapped v₀.info n (tableEntry v₀.info n)
  sorted : done.Pairwise fun n n' => Before (tableEntry v₀.info n) (tableEntry v₀.info n')
  rest : ∀ n, InTable v₀.info n → n ∉ done → tableEntry v.info n = tableEntry v₀.info n
  placed : ∀ j (h : j < done.length), tableEntry v.info done[j] = finalPos v.info.wp.zoneId j
  safe : ∀ e ∈ v.trace, e ∈ v₀.trace ∨ SafeReset e

theorem packing_complete {prev : Nat} {v₀ v : Volume} {done : List Nat} (ready : Collectable v₀)
    (h : Packing v₀ done v) (hc : Collecting prev v)
    (exhausted : (hodoGetNextGCValid v.info).zoneId = 0) {n : Nat} {p : BlockPos}
    (hm : Mapped v₀.info n p) : n ∈ done := by
  by_contra hnot
  have hpos := hc.zone_pos
  have hle := ready.zone_le hm
  have hwp := ready.wp_le
  have hm' := (h.mapped_iff hnot).mpr hm
  have hidx := (h.same.consistent.inZones hm').2
  rcases getNextGCValid_cases v.info with ⟨_, hdead⟩ | ⟨hlo, _⟩
  · have hlive := (h.same.consistent.live_iff hm.2.2 (by omega) hidx).mpr ⟨n, hm'⟩
    rw [hdead _ _ (h.restZone n p hm hnot) (by omega) hidx] at hlive
    cases hlive
  · omega

/-- Nothing is mapped into the zones from the write pointer's on. -/
theorem packing_unused_behind {v₀ v : Volume} {done : List Nat} (h : Packing v₀ done v)
    (complete : ∀ n p, Mapped v₀.info n p → n ∈ done) (hwp : 1 ≤ v.info.wp.zoneId) {n : Nat}
    {p : BlockPos} (hm : Mapped v.info n p) : p.zoneId < v.info.wp.zoneId ∨ p.zoneId = 14 := by
  by_cases hmem : n ∈ done
  · obtain ⟨j, hj, rfl⟩ := List.getElem_of_mem hmem
    have hpos := (packPos_zone (j := j) hwp).2
    rwa [← h.placed j hj, hm.2.1] at hpos
  · exact absurd (complete n p ((h.mapped_iff hmem).mp hm)) hmem

theorem packed_drainRest {prev : Nat} {v₀ v : Volume} {done : List Nat} (temp : Block)
    (ready : Collectable v₀) (h : Packing v₀ done v) (hc : Collecting prev v)
    (room : v.info.swapWp.blockIndex + 1 < blocksPerZone)
    (complete : ∀ n p, Mapped v₀.info n p → n ∈ done) :
    ∃ temp' v', drainRest standardGeometry temp v = some (temp', v') ∧ Packed v₀ done v' := by
  have hpos := hc.zone_pos
  by_cases hzero : v.info.swapWp.blockIndex = 0
  · refine ⟨temp, v, by rw [drainRest_eq, if_neg (not_not.mpr hzero)], h.same, complete, ?_, ?_,
      h.wasMapped, h.sorted, h.rest, fun j hj => ?_, h.safe⟩
    · rw [h.length, hzero, hc.index_zero]
    · rw [hc.index_zero, blocksPerZone_eq]
      omega
    · have hlen := h.length
      rw [h.placed j hj, packPos, finalPos, if_pos (by omega), if_pos (by omega)]
  · have hle := hc.data_zone hzero
    have unused : ∀ n p, Mapped v.info n p → p.zoneId ≠ v.info.wp.zoneId := by
      intro n p hm
      have := packing_unused_behind h complete hpos hm
      omega
    obtain ⟨hsame, start, spill₀⟩ := packing_spills h hc hle unused temp
    have hinfo : (truncateZone standardGeometry v v.info.wp.zoneId).info = v.info := by
      rw [truncateZone_ok v (by omega)]
    have hlen := h.batch_length
    obtain ⟨temp₂, v₂, hloop, spilled⟩ := swapOutRest_total standardGeometry
      (Spilling (truncateZone standardGeometry v v.info.wp.zoneId) v.info.wp.zoneId
        (batchOf done v.info.wp.zoneId)) (k := v.info.swapWp.blockIndex) (by omega)
      (fun i _ w hw => by rw [hw.out.swapWp, hinfo])
      (fun i _ w hi hw => spilling_within start (by omega) (by omega) hw) temp spill₀
    have hwp : v₂.info.wp = ⟨v.info.wp.zoneId, v.info.swapWp.blockIndex⟩ :=
      spilled.out.wp_of_lt (by omega)
    have hswap : v₂.info.swapWp.zoneId = 14 := by rw [spilled.out.swapWp, hinfo, hc.swap_zone]
    have hfree := spilled_unused ready h hle hinfo spilled (by omega)
    have hdata := (hsame.trans spilled.same).trans
      (sameData_truncate spilled.same.consistent 14 (by omega) hfree)
    have hrest : drainRest standardGeometry temp v =
        some (temp₂, truncateZone standardGeometry v₂ 14) := by
      simp only [drainRest_eq, if_pos hzero, hloop, Option.map_some, hswap]
    have hentry : ∀ n, InTable v₀.info n → n ∉ batchOf done v.info.wp.zoneId →
        tableEntry v₂.info n = tableEntry v.info n := by
      intro n hn hnot
      rw [spilled.others n (hsame.inTable.mpr hn) hnot, hinfo]
    have hinfo' : (truncateZone standardGeometry v₂ 14).info = v₂.info := by
      rw [truncateZone_ok v₂ (by omega)]
    refine ⟨temp₂, _, hrest, hdata, complete, ?_, ?_, h.wasMapped, h.sorted, fun n hn hnot => ?_,
      fun j hj => ?_, fun e he => ?_⟩
    · rw [hinfo', hwp]
      exact h.length
    · rw [hinfo', hwp]
      simp only
      omega
    · rw [hinfo', hentry n hn fun hmem => hnot (mem_of_mem_batch hmem)]
      exact h.rest n hn hnot
    · rw [hinfo', hwp]
      show _ = finalPos v.info.wp.zoneId j
      have hin := (h.wasMapped _ (List.getElem_mem hj)).1
      by_cases hbatch : done[j] ∈ batchOf done v.info.wp.zoneId
      · obtain ⟨j', hj', he⟩ := List.getElem_of_mem hbatch
        have hjj : j = (v.info.wp.zoneId - 1) * (blocksPerZone - 1) + j' := by
          simp only [batchOf, List.getElem_drop] at he
          exact ((h.nodup.getElem_inj_iff).mp he).symm
        rw [← he, spilled.moved j' hj', spillPos, if_neg (by omega), if_neg (by omega), finalPos,
          if_neg (by omega), hjj, Nat.add_sub_cancel_left]
      · obtain ⟨j', hj', he, hlt, hpos'⟩ := h.zone_lt_of_not_batch (List.getElem_mem hj) hbatch
        obtain rfl := (h.nodup.getElem_inj_iff).mp he
        rw [hentry _ hin hbatch, hpos', finalPos, if_pos hlt]
    · rw [truncateZone_ok v₂ (by omega)] at he
      rcases List.mem_cons.mp he with rfl | he
      · exact Or.inr (safeReset_of_unused (by omega) hfree _)
      · rcases spilled.safe e he with he | he
        · rw [truncateZone_ok v (by omega)] at he
          rcases List.mem_cons.mp he with rfl | he
          · exact Or.inr (safeReset_of_unused (by omega) unused _)
          · exact h.safe e he
        · exact Or.inr he

/-- Packed blocks lie before the first zone behind the log. -/
theorem Packed.zone_lt {v₀ v : Volume} {done : List Nat} (h : Packed v₀ done v)
    (hwp : 1 ≤ v.info.wp.zoneId) {n : Nat} {p : BlockPos} (hm : Mapped v.info n p) :
    p.zoneId < firstBehind v.info.wp := by
  have hin := h.same.inTable.mp hm.1
  by_cases hmem : n ∈ done
  · obtain ⟨j, hj, rfl⟩ := List.getElem_of_mem hmem
    have hlen := h.length
    have hpos := h.placed j hj
    rw [hm.2.1, finalPos] at hpos
    split at hpos
    case isTrue hlt =>
      have hz : p.zoneId < v.info.wp.zoneId := by
        simp only [blocksPerZone_eq] at hlt
        simp only [hpos, batchPos, blocksPerZone_eq]
        omega
      rw [firstBehind]
      split <;> omega
    case isFalse hge =>
      have hne : v.info.wp.blockIndex ≠ 0 := by omega
      rw [firstBehind, if_neg hne, hpos]
      exact Nat.lt_succ_self _
  · have hentry := h.rest n hin hmem
    rw [hm.2.1] at hentry
    exact absurd (h.complete n p ⟨hin, hentry.symm, hm.2.2⟩) hmem

theorem packed_resetBehind {v₀ v : Volume} {done : List Nat} {prev : BlockPos}
    (h : Packed v₀ done v) (hwp : 1 ≤ v.info.wp.zoneId) (hle : v.info.wp.zoneId ≤ 14)
    (hprev : prev.zoneId ≤ 13) : Packed v₀ done (resetBehind standardGeometry prev v) := by
  have hfirst : firstBehind v.info.wp ≤ v.info.wp.zoneId + 1 ∧
      v.info.wp.zoneId ≤ firstBehind v.info.wp := by
    rw [firstBehind]
    split <;> omega
  have hreset : resetBehind standardGeometry prev v =
      resetZones standardGeometry (prev.zoneId + 1 - firstBehind v.info.wp)
        (firstBehind v.info.wp) v := rfl
  obtain ⟨hinfo, hdev, htrace⟩ :=
    resetZones_ok (prev.zoneId + 1 - firstBehind v.info.wp) (firstBehind v.info.wp) v
      (show firstBehind v.info.wp + (prev.zoneId + 1 - firstBehind v.info.wp) ≤ 15 by omega)
  rw [hreset]
  have hsame : SameData v (resetZones standardGeometry
      (prev.zoneId + 1 - firstBehind v.info.wp) (firstBehind v.info.wp) v) := by
    refine sameData_of_blocks h.same.consistent hinfo fun n p hm => ?_
    have := h.zone_lt hwp hm
    rw [blockAt, blockAt, hdev, if_neg (by omega)]
  refine ⟨h.same.trans hsame, h.complete, ?_, ?_, h.wasMapped, h.sorted, ?_, ?_, ?_⟩
  · rw [hinfo]
    exact h.length
  · rw [hinfo]
    exact h.index_lt
  · rw [hinfo]
    exact h.rest
  · rw [hinfo]
    exact h.placed
  · refine htrace (fun e => e ∈ v₀.trace ∨ SafeReset e) (fun z dev hz _ => Or.inr ?_) h.safe
    refine safeReset_of_unused (by omega) (fun n p hm => ?_) dev
    have := h.zone_lt hwp hm
    omega

theorem sparse_of_complete {prev : Nat} {v₀ v : Volume} {done : List Nat} (ready : Collectable v₀)
    (h : Packing v₀ done v) (hc : Collecting prev v)
    (room : v.info.swapWp.blockIndex + 1 < blocksPerZone)
    (complete : ∀ n p, Mapped v₀.info n p → n ∈ done)
    (hcount : ∀ r, 1 ≤ r → r < v.info.wp.zoneId →
      liveCount v₀.info r ≤ r * (blocksPerZone - 1)) : Sparse v₀.info := by
  intro r hr hr'
  rcases Nat.lt_or_ge r v.info.wp.zoneId with hlt | hge
  · exact hcount r hr hlt
  · have hpos := hc.zone_pos
    calc liveCount v₀.info r ≤ done.length := liveCount_le ready hr' fun n p hm _ => complete n p hm
      _ = (v.info.wp.zoneId - 1) * (blocksPerZone - 1) + v.info.swapWp.blockIndex := h.length
      _ ≤ (v.info.wp.zoneId - 1) * (blocksPerZone - 1) + 1 * (blocksPerZone - 1) := by omega
      _ = v.info.wp.zoneId * (blocksPerZone - 1) := by
        rw [← Nat.add_mul, Nat.sub_add_cancel hpos]
      _ ≤ r * (blocksPerZone - 1) := Nat.mul_le_mul_right _ hge

theorem GC_outcome {v : Volume} (ready : Collectable v) (kmem : Block) :
    ∃ v', GC standardGeometry kmem v = some v' ∧ Aligned v' ∧
      ((Sparse v.info ∧ ∃ done, Packed v done v') ∨
        (¬ Sparse v.info ∧ ∃ e ∈ v'.trace, ¬ SafeReset e)) := by
  obtain ⟨v', hgc, haligned⟩ := GC_aligned ready.clear ready.wp_le kmem
  refine ⟨v', hgc, haligned, ?_⟩
  obtain ⟨temp, v₁, hcollect, hscan, hc, room, exhausted⟩ := collect_scanned ready kmem
  rcases hscan with ⟨done, hp, hcount⟩ | ⟨hcrowded, e, he, hbad⟩
  · have complete : ∀ n p, Mapped v.info n p → n ∈ done :=
      fun n p hm => packing_complete ready hp hc exhausted hm
    obtain ⟨temp₂, v₂, hrest, hpacked⟩ := packed_drainRest temp ready hp hc room complete
    rw [GC_eq hcollect hrest] at hgc
    obtain rfl := Option.some.inj hgc
    obtain ⟨temp₃, v₃, hrest', hdrained⟩ := drainRest_drained hc temp
    rw [hrest] at hrest'
    obtain ⟨_, rfl⟩ := Prod.mk.inj (Option.some.inj hrest')
    exact Or.inl ⟨sparse_of_complete ready hp hc room complete hcount, done,
      packed_resetBehind hpacked hdrained.zone_pos hdrained.zone_le ready.wp_le⟩
  · obtain ⟨temp₂, v₂, hrest, _⟩ := drainRest_drained hc temp
    rw [GC_eq hcollect hrest] at hgc
    obtain rfl := Option.some.inj hgc
    exact Or.inr ⟨hcrowded, e, resetZones_kept _ _ _ _ e (drainRest_kept hc hrest e he), hbad⟩

end GCOutcome
