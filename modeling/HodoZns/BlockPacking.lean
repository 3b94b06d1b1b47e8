import HodoZns.Relocation
import Mathlib.Data.Finset.Prod
import Mathlib.Order.Interval.Finset.Nat

/-!
# What the collector does to a consistent volume

The scan moves live blocks in the order of their positions, so after each turn
of the main loop the moved numbers are the first ones in that order, packed into
the zones before the write pointer's and into the swap zone. A full batch may
reset the write pointer's zone exactly when nothing is left in it, which is a
condition on the number of live blocks up to that zone.
-/

namespace BlockPacking

open ByteBlock BitmapWords Layout BlockLog ZoneLog NumberAllocator Collector LogCalls WritePointers
open SequentialWrites Consistency Relocation

/-- Number of live blocks in the zones `1..r`. -/
def liveCount (m : MappingInfo) (r : Nat) : Nat :=
  ((Finset.Icc 1 r ×ˢ Finset.range blocksPerZone).filter fun p => live m p.1 p.2 = true).card

/-- No prefix of zones holds more live blocks than the collector packs into it. -/
def Sparse (m : MappingInfo) : Prop :=
  ∀ r, 1 ≤ r → r ≤ 13 → liveCount m r ≤ r * (blocksPerZone - 1)

theorem before_trans {p q r : BlockPos} (h : Before p q) (h' : Before q r) : Before p r := by
  simp only [Before] at *
  omega

theorem before_irrefl (p : BlockPos) : ¬ Before p p := by
  simp only [Before]
  omega

theorem before_or_eq_or (p q : BlockPos) : Before p q ∨ p = q ∨ Before q p := by
  obtain ⟨z, i⟩ := p
  obtain ⟨z', i'⟩ := q
  simp only [Before, BlockPos.mk.injEq]
  omega

/-- Where block `j` of a full batch ends up: the last one at the end of its zone. -/
def batchPos (j : Nat) : BlockPos :=
  ⟨1 + j / (blocksPerZone - 1),
    if j % (blocksPerZone - 1) = blocksPerZone - 2 then blocksPerZone - 1
    else j % (blocksPerZone - 1)⟩

/-- Where the `j`-th moved block is while the write pointer is in zone `a`. -/
def packPos (a j : Nat) : BlockPos :=
  if j < (a - 1) * (blocksPerZone - 1) then batchPos j
  else ⟨14, j - (a - 1) * (blocksPerZone - 1)⟩

theorem packPos_zone {a j : Nat} (ha : 1 ≤ a) :
    1 ≤ (packPos a j).zoneId ∧ ((packPos a j).zoneId < a ∨ (packPos a j).zoneId = 14) := by
  simp only [packPos, batchPos, blocksPerZone_eq]
  split
  · simp only
    omega
  · exact ⟨by simp, Or.inr rfl⟩

/-- The numbers in `done` have been moved, in the order of their old positions. -/
structure Packing (v₀ : Volume) (done : List Nat) (v : Volume) : Prop where
  same : SameData v₀ v
  length : done.length = (v.info.wp.zoneId - 1) * (blocksPerZone - 1) + v.info.swapWp.blockIndex
  wasMapped : ∀ n ∈ done, Mapped v₀.info n (tableEntry v₀.info n)
  sorted : done.Pairwise fun n n' => Before (tableEntry v₀.info n) (tableEntry v₀.info n')
  ordered : ∀ n ∈ done, ∀ n' p, Mapped v₀.info n' p → n' ∉ done → Before (tableEntry v₀.info n) p
  rest : ∀ n, InTable v₀.info n → n ∉ done → tableEntry v.info n = tableEntry v₀.info n
  restZone : ∀ n p, Mapped v₀.info n p → n ∉ done → v.info.wp.zoneId ≤ p.zoneId
  placed : ∀ j (h : j < done.length), tableEntry v.info done[j] = packPos v.info.wp.zoneId j
  kept : ∀ e ∈ v₀.trace, e ∈ v.trace
  safe : ∀ e ∈ v.trace, e ∈ v₀.trace ∨ SafeReset e

/-- What the collector starts from. -/
structure Collectable (v : Volume) : Prop where
  clear : ClearAhead v
  consistent : Consistent v
  wp_le : v.info.wp.zoneId ≤ 13

/-- Mapped positions lie in the zones up to the write pointer's. -/
theorem Collectable.zone_le {v : Volume} (h : Collectable v) {n : Nat} {p : BlockPos}
    (hm : Mapped v.info n p) : p.zoneId ≤ v.info.wp.zoneId := by
  by_contra hgt
  have hlt := h.consistent.index_lt_length hm
  rw [h.clear.ahead p.zoneId (by omega) (h.consistent.inZones hm).1] at hlt
  simp at hlt

variable {v₀ v : Volume} {done : List Nat}

theorem Packing.nodup (h : Packing v₀ done v) : done.Nodup :=
  h.sorted.imp fun {n n'} hb (he : n = n') => by
    subst he
    exact before_irrefl _ hb

theorem Packing.mapped_iff (h : Packing v₀ done v) {n : Nat} {p : BlockPos} (hn : n ∉ done) :
    Mapped v.info n p ↔ Mapped v₀.info n p := by
  constructor
  · rintro ⟨hin, he, hz⟩
    have hin' := h.same.inTable.mp hin
    exact ⟨hin', (h.rest n hin' hn).symm.trans he, hz⟩
  · rintro ⟨hin, he, hz⟩
    exact ⟨h.same.inTable.mpr hin, (h.rest n hin hn).trans he, hz⟩

/-- A mapped number outside the packed zones has not been moved. -/
theorem Packing.not_done (h : Packing v₀ done v) {n : Nat} {p : BlockPos}
    (hm : Mapped v.info n p) (hwp : 1 ≤ v.info.wp.zoneId) (hlo : v.info.wp.zoneId ≤ p.zoneId)
    (hhi : p.zoneId ≤ 13) : n ∉ done := by
  intro hmem
  obtain ⟨j, hj, rfl⟩ := List.getElem_of_mem hmem
  have hpos := (packPos_zone (j := j) hwp).2
  rw [← h.placed j hj, hm.2.1] at hpos
  omega

theorem packing_start (h : Collectable v) : Packing v [] (startGC standardGeometry v) where
  same := ((sameData_refl h.consistent).setWp _).setSwapWp _
  length := by simp [startGC, setSwapWp, setWp]
  wasMapped _ hn := absurd hn List.not_mem_nil
  sorted := List.Pairwise.nil
  ordered _ hn := absurd hn List.not_mem_nil
  rest _ _ _ := rfl
  restZone _ p hm _ := by
    have := hm.2.2
    simp only [startGC, setSwapWp, setWp]
    omega
  placed _ hj := absurd hj (Nat.not_lt_zero _)
  kept _ he := he
  safe _ he := Or.inl he

theorem packing_swapIn {prev : Nat} (ready : Collectable v₀) (h : Packing v₀ done v)
    (hc : Collecting prev v) (room : v.info.swapWp.blockIndex + 1 < blocksPerZone)
    (found : (hodoGetNextGCValid v.info).zoneId ≠ 0) (temp : Block) :
    ∃ n, Packing v₀ (done ++ [n])
      (swapInOne standardGeometry (hodoGetNextGCValid v.info) temp v).2 := by
  have hwp := hc.zone_pos
  rcases getNextGCValid_cases v.info with ⟨hzero, _⟩ | ⟨hlo, hhi, hidx, hlive, hfirst⟩
  · exact absurd hzero found
  have hswap : v.info.swapWp = ⟨14, v.info.swapWp.blockIndex⟩ := by
    rw [← hc.swap_zone]
  obtain ⟨n, hm⟩ := (h.same.consistent.live_iff found (by omega) hidx).mp hlive
  have hnot := h.not_done hm hwp hlo hhi
  have hm₀ := (h.mapped_iff hnot).mp hm
  obtain ⟨b, hblock, hown⟩ := h.same.consistent.content hm
  have hmoved := swapInOne_moves h.same.consistent (gcRead_some (by omega) hidx hblock temp) hm.1
    (by rw [stored_of_mapped hm, hblock]) hown (by rw [hc.swap_zone]; decide)
    (by rw [hc.swap_zone]) (by rw [hc.swap_zone]; exact hc.at_swap) room
  obtain ⟨_, hwp', hswap'⟩ := collecting_swapIn hc room (by omega) (hodoGetNextGCValid v.info) temp
  refine ⟨n, ⟨h.same.trans hmoved.same, ?_, ?_, ?_, ?_, ?_, ?_, ?_, ?_, ?_⟩⟩
  · rw [hwp', hswap', List.length_append, h.length, List.length_singleton]
    exact Nat.add_assoc _ _ _
  · intro n' hn'
    rcases List.mem_append.mp hn' with hn' | hn'
    · exact h.wasMapped n' hn'
    · rw [List.mem_singleton.mp hn', hm₀.2.1]
      exact hm₀
  · rw [List.pairwise_append]
    refine ⟨h.sorted, List.pairwise_singleton _ _, fun n₁ hn₁ n₂ hn₂ => ?_⟩
    rw [List.mem_singleton.mp hn₂, hm₀.2.1]
    exact h.ordered n₁ hn₁ n _ hm₀ hnot
  · -- what is left comes after the block found by the scan
    intro n₁ hn₁ n₂ p hm₂ hnot₂
    have hnot' : n₂ ∉ done := fun hmem => hnot₂ (List.mem_append_left _ hmem)
    rcases List.mem_append.mp hn₁ with hn₁ | hn₁
    · exact h.ordered n₁ hn₁ n₂ p hm₂ hnot'
    · rw [List.mem_singleton.mp hn₁, hm₀.2.1]
      have hm₂' := (h.mapped_iff hnot').mpr hm₂
      have hle := ready.zone_le hm₂
      have hrange := ready.wp_le
      rcases before_or_eq_or (hodoGetNextGCValid v.info) p with hb | heq | hb
      · exact hb
      · rw [← heq] at hm₂'
        exact absurd (List.mem_append_right _ (by
          rw [h.same.consistent.inj hm₂' hm]; exact List.mem_singleton.mpr rfl)) hnot₂
      · have hdead := hfirst p (h.restZone n₂ p hm₂ hnot')
          (h.same.consistent.inZones hm₂').2 hb
        rw [(h.same.consistent.live_iff hm₂.2.2 (by omega)
          (h.same.consistent.inZones hm₂').2).mpr ⟨n₂, hm₂'⟩] at hdead
        cases hdead
  · intro n' hn' hnot'
    rw [hmoved.entry n' (h.same.inTable.mpr hn'), if_neg]
    · exact h.rest n' hn' fun hmem => hnot' (List.mem_append_left _ hmem)
    · rintro rfl
      exact hnot' (List.mem_append_right _ (List.mem_singleton.mpr rfl))
  · intro n' p hm' hnot'
    rw [hwp']
    exact h.restZone n' p hm' fun hmem => hnot' (List.mem_append_left _ hmem)
  · intro j hj
    rw [List.length_append, List.length_singleton] at hj
    rw [hwp']
    by_cases hlast : j = done.length
    · subst hlast
      rw [List.getElem_concat_length rfl, hmoved.entry n hm.1, if_pos rfl, hswap, packPos,
        if_neg (by rw [h.length]; omega), h.length, Nat.add_sub_cancel_left]
    · have hlt : j < done.length := by omega
      rw [List.getElem_append_left hlt, hmoved.entry _ (h.same.inTable.mpr
        (h.wasMapped _ (List.getElem_mem hlt)).1), if_neg, h.placed j hlt]
      intro he
      exact hnot (he ▸ List.getElem_mem hlt)
  · exact fun e he => hmoved.kept e (h.kept e he)
  · intro e he
    rcases hmoved.safe e he with he | he
    · exact h.safe e he
    · exact Or.inr he

/-- The old positions of some numbers, as the pairs that `liveCount` counts. -/
def oldPositions (v₀ : Volume) (ns : List Nat) : List (Nat × Nat) :=
  ns.map fun n => ((tableEntry v₀.info n).zoneId, (tableEntry v₀.info n).blockIndex)

theorem oldPositions_live {v₀ : Volume} (ready : Collectable v₀) (ns : List Nat) (r : Nat)
    (hns : ∀ n ∈ ns, Mapped v₀.info n (tableEntry v₀.info n) ∧ (tableEntry v₀.info n).zoneId ≤ r)
    (hnodup : ns.Nodup) : ns.length ≤ liveCount v₀.info r := by
  have hinj : (oldPositions v₀ ns).Nodup := by
    refine (List.nodup_map_iff_inj_on hnodup).mpr fun n hn n' hn' he => ?_
    have hpos : tableEntry v₀.info n = tableEntry v₀.info n' := by
      have h1 := congrArg Prod.fst he
      have h2 := congrArg Prod.snd he
      cases hn : tableEntry v₀.info n
      cases hn' : tableEntry v₀.info n'
      simp_all
    exact ready.consistent.inj (hns n hn).1 (hpos ▸ (hns n' hn').1)
  have hsub : (oldPositions v₀ ns).toFinset ⊆
      (Finset.Icc 1 r ×ˢ Finset.range blocksPerZone).filter
        fun p => live v₀.info p.1 p.2 = true := by
    intro p hp
    obtain ⟨n, hn, rfl⟩ := List.mem_map.mp (List.mem_toFinset.mp hp)
    obtain ⟨hm, hr⟩ := hns n hn
    obtain ⟨hz, hi⟩ := ready.consistent.inZones hm
    have hne := hm.2.2
    simp only [Finset.mem_filter, Finset.mem_product, Finset.mem_Icc, Finset.mem_range]
    exact ⟨⟨⟨by omega, hr⟩, hi⟩, (ready.consistent.live_iff hne hz hi).mpr ⟨n, hm⟩⟩
  calc ns.length = (oldPositions v₀ ns).length := (List.length_map _).symm
    _ = (oldPositions v₀ ns).toFinset.card := (List.toFinset_card_of_nodup hinj).symm
    _ ≤ liveCount v₀.info r := Finset.card_le_card hsub

theorem liveCount_le {v₀ : Volume} (ready : Collectable v₀) {ns : List Nat} {r : Nat} (hr : r ≤ 13)
    (hall : ∀ n p, Mapped v₀.info n p → p.zoneId ≤ r → n ∈ ns) :
    liveCount v₀.info r ≤ ns.length := by
  have hsub : (Finset.Icc 1 r ×ˢ Finset.range blocksPerZone).filter
      (fun p => live v₀.info p.1 p.2 = true) ⊆ (oldPositions v₀ ns).toFinset := by
    rintro ⟨z, i⟩ hp
    simp only [Finset.mem_filter, Finset.mem_product, Finset.mem_Icc, Finset.mem_range] at hp
    obtain ⟨⟨⟨hz1, hzr⟩, hi⟩, hlive⟩ := hp
    obtain ⟨n, hm⟩ := (ready.consistent.live_iff (p := ⟨z, i⟩)
      (by simp only; omega) (by simp only; omega) hi).mp hlive
    rw [List.mem_toFinset]
    exact List.mem_map.mpr ⟨n, hall n _ hm hzr, by rw [hm.2.1]⟩
  calc liveCount v₀.info r ≤ (oldPositions v₀ ns).toFinset.card := Finset.card_le_card hsub
    _ ≤ (oldPositions v₀ ns).length := List.toFinset_card_le _
    _ = ns.length := List.length_map _

/-- With a full batch in the swap zone, the write pointer's zone is empty of live
blocks exactly when the zones up to it held no more than the batches. -/
theorem Packing.unused_iff (ready : Collectable v₀) (h : Packing v₀ done v)
    (hwp : 1 ≤ v.info.wp.zoneId) (hle : v.info.wp.zoneId ≤ 13)
    (full : v.info.swapWp.blockIndex = blocksPerZone - 1) :
    (∀ n p, Mapped v.info n p → p.zoneId ≠ v.info.wp.zoneId) ↔
      liveCount v₀.info v.info.wp.zoneId ≤ v.info.wp.zoneId * (blocksPerZone - 1) := by
  have hlen : done.length = v.info.wp.zoneId * (blocksPerZone - 1) := by
    rw [h.length, full]
    obtain ⟨a, ha⟩ : ∃ a, v.info.wp.zoneId = a + 1 := ⟨v.info.wp.zoneId - 1, by omega⟩
    rw [ha, Nat.add_sub_cancel, Nat.succ_mul]
  rw [← hlen]
  constructor
  · intro unused
    refine liveCount_le ready hle fun n p hm hz => ?_
    by_contra hnot
    have := h.restZone n p hm hnot
    exact unused n p ((h.mapped_iff hnot).mpr hm) (by omega)
  · intro hcount n p hm hz
    have hnot := h.not_done hm hwp (by omega) (by omega)
    have hm₀ := (h.mapped_iff hnot).mp hm
    have hmore := oldPositions_live ready (n :: done) v.info.wp.zoneId ?_
      (List.nodup_cons.mpr ⟨hnot, h.nodup⟩)
    · simp only [List.length_cons] at hmore
      omega
    · intro n' hn'
      rcases List.mem_cons.mp hn' with rfl | hn'
      · rw [hm₀.2.1]
        exact ⟨hm₀, Nat.le_of_eq hz⟩
      · have hb := h.ordered n' hn' n p hm₀ hnot
        refine ⟨h.wasMapped n' hn', ?_⟩
        simp only [Before] at hb
        omega

/-- The numbers whose blocks lie in the swap zone. -/
def batchOf (done : List Nat) (a : Nat) : List Nat := done.drop ((a - 1) * (blocksPerZone - 1))

theorem Packing.batch_length (h : Packing v₀ done v) :
    (batchOf done v.info.wp.zoneId).length = v.info.swapWp.blockIndex := by
  rw [batchOf, List.length_drop, h.length, Nat.add_sub_cancel_left]

theorem Packing.batch_entry (h : Packing v₀ done v) {j : Nat}
    (hj : j < (batchOf done v.info.wp.zoneId).length) :
    tableEntry v.info (batchOf done v.info.wp.zoneId)[j] = ⟨14, j⟩ := by
  simp only [batchOf, List.getElem_drop]
  rw [h.placed, packPos, if_neg (by omega), Nat.add_sub_cancel_left]

theorem mem_of_mem_batch {done : List Nat} {a n : Nat} (h : n ∈ batchOf done a) : n ∈ done :=
  List.mem_of_mem_drop h

/-- Moved numbers outside the batch lie in the zones before the write pointer's. -/
theorem Packing.zone_lt_of_not_batch (h : Packing v₀ done v) {n : Nat} (hn : n ∈ done)
    (hnot : n ∉ batchOf done v.info.wp.zoneId) :
    ∃ j, ∃ hj : j < done.length, done[j] = n ∧ j < (v.info.wp.zoneId - 1) * (blocksPerZone - 1) ∧
      tableEntry v.info n = batchPos j := by
  obtain ⟨j, hj, rfl⟩ := List.getElem_of_mem hn
  have hlt : j < (v.info.wp.zoneId - 1) * (blocksPerZone - 1) := by
    by_contra hge
    apply hnot
    rw [batchOf, List.mem_iff_getElem]
    refine ⟨j - (v.info.wp.zoneId - 1) * (blocksPerZone - 1), ?_, ?_⟩
    · rw [List.length_drop]
      omega
    · rw [List.getElem_drop]
      congr 1
      omega
  exact ⟨j, hj, rfl, hlt, by rw [h.placed j hj, packPos, if_pos hlt]⟩

theorem packing_spills {prev : Nat} (h : Packing v₀ done v)
    (hc : Collecting prev v) (hle : v.info.wp.zoneId ≤ 13)
    (unused : ∀ n p, Mapped v.info n p → p.zoneId ≠ v.info.wp.zoneId) (temp : Block) :
    SameData v₀ (truncateZone standardGeometry v v.info.wp.zoneId) ∧
    SpillStart (truncateZone standardGeometry v v.info.wp.zoneId) v.info.wp.zoneId
      (batchOf done v.info.wp.zoneId) ∧
    Spilling (truncateZone standardGeometry v v.info.wp.zoneId) v.info.wp.zoneId
      (batchOf done v.info.wp.zoneId) 0 temp
      (truncateZone standardGeometry v v.info.wp.zoneId) := by
  have hsame := sameData_truncate h.same.consistent v.info.wp.zoneId (by omega) unused
  have hinfo : (truncateZone standardGeometry v v.info.wp.zoneId).info = v.info := by
    rw [truncateZone_ok v (by omega)]
  refine ⟨h.same.trans hsame, ⟨hc.zone_pos, hle, ?_, fun n hn => ?_, ?_⟩,
    ⟨swappingOut_start hc hle, sameData_refl hsame.consistent, fun j hj => ?_, fun _ _ _ => rfl,
      fun n hpos => absurd hpos (by omega), fun _ he => he, fun _ he => Or.inl he⟩⟩
  · exact List.Nodup.sublist (List.drop_sublist _ _) h.nodup
  · rw [hinfo]
    exact h.same.inTable.mpr (h.wasMapped n (mem_of_mem_batch hn)).1
  · rw [truncateZone_ok v (by omega), h.batch_length]
    simp only
    rw [update_other _ _ (by omega), hc.at_swap]
  · rw [hinfo, h.batch_entry hj, spillPos, if_pos (by omega)]

/-- A swapped-out block lies in the filled zone. -/
theorem spillPos_zone {a len i j : Nat} (hj : j < len) (hi : len ≤ i) :
    (spillPos a len i j).zoneId = a := by
  rw [spillPos, if_neg (by omega)]
  split <;> rfl

/-- A full batch lands where the next zones' positions are counted from. -/
theorem spillPos_full {a j : Nat} (ha : 1 ≤ a) (hj : j < blocksPerZone - 1) :
    spillPos a (blocksPerZone - 1) blocksPerZone j =
      packPos (a + 1) ((a - 1) * (blocksPerZone - 1) + j) := by
  obtain ⟨a, rfl⟩ : ∃ a', a = a' + 1 := ⟨a - 1, by omega⟩
  simp only [blocksPerZone_eq] at hj
  have hlt : a * 65535 + j < (a + 1) * 65535 := by omega
  have hdiv : (a * 65535 + j) / 65535 = a := by omega
  have hmod : (a * 65535 + j) % 65535 = j := by omega
  simp only [spillPos, packPos, batchPos, blocksPerZone_eq, Nat.add_sub_cancel, Nat.reduceSub, hdiv,
    hmod, if_pos hlt]
  rw [if_neg (by omega)]
  by_cases hlast : j = 65534
  · rw [if_pos ⟨by omega, by omega⟩, if_pos hlast, Nat.add_comm]
  · rw [if_neg (fun hand => hlast (by omega)), if_neg hlast, Nat.add_comm]

theorem packPos_next {a j : Nat} (h : j < (a - 1) * (blocksPerZone - 1)) :
    packPos (a + 1) j = batchPos j := by
  simp only [blocksPerZone_eq, Nat.reduceSub] at h
  have hlt : j < a * 65535 :=
    Nat.lt_of_lt_of_le h (Nat.mul_le_mul_right _ (Nat.sub_le a 1))
  simp only [packPos, blocksPerZone_eq, Nat.add_sub_cancel, Nat.reduceSub, if_pos hlt]

/-- After the swap-out nothing is mapped into the swap zone. -/
theorem spilled_unused {v₁ v₂ : Volume} {i : Nat} {temp : Block} (ready : Collectable v₀)
    (h : Packing v₀ done v) (hle : v.info.wp.zoneId ≤ 13)
    (hinfo : v₁.info = v.info)
    (spilled : Spilling v₁ v.info.wp.zoneId (batchOf done v.info.wp.zoneId) i temp v₂)
    (hi : (batchOf done v.info.wp.zoneId).length ≤ i) :
    ∀ n p, Mapped v₂.info n p → p.zoneId ≠ 14 := by
  intro n p hm hz
  have hin := spilled.same.inTable.mp hm.1
  by_cases hbatch : n ∈ batchOf done v.info.wp.zoneId
  · obtain ⟨j, hj, rfl⟩ := List.getElem_of_mem hbatch
    have hpos := spillPos_zone (a := v.info.wp.zoneId) hj hi
    rw [← spilled.moved j hj, hm.2.1] at hpos
    omega
  · have hentry := spilled.others n hin hbatch
    rw [hm.2.1, hinfo] at hentry
    rw [hinfo] at hin
    have hm' : Mapped v.info n p := ⟨hin, hentry.symm, hm.2.2⟩
    by_cases hdone : n ∈ done
    · obtain ⟨j, hj, hn, hlt, _⟩ := h.zone_lt_of_not_batch hdone hbatch
      have hpos := h.placed j hj
      rw [hn, hm'.2.1, packPos, if_pos hlt] at hpos
      rw [hpos] at hz
      simp only [batchPos, blocksPerZone_eq] at hz hlt
      omega
    · have := ready.zone_le ((h.mapped_iff hdone).mp hm')
      have := ready.wp_le
      omega

theorem packing_drain {prev : Nat} {temp temp' : Block} {v' : Volume} (ready : Collectable v₀)
    (h : Packing v₀ done v) (hc : Collecting prev v) (hle : v.info.wp.zoneId ≤ 13)
    (full : v.info.swapWp.blockIndex = blocksPerZone - 1)
    (unused : ∀ n p, Mapped v.info n p → p.zoneId ≠ v.info.wp.zoneId)
    (hdrain : drainFull standardGeometry temp v = some (temp', v')) : Packing v₀ done v' := by
  have hbpz : blocksPerZone = 65536 := blocksPerZone_eq
  obtain ⟨hsame, start, spill₀⟩ := packing_spills h hc hle unused temp
  have hlen := h.batch_length
  rw [full] at hlen
  obtain ⟨temp₂, v₂, hloop, spilled⟩ := swapOutFull_total standardGeometry
    (Spilling (truncateZone standardGeometry v v.info.wp.zoneId) v.info.wp.zoneId
      (batchOf done v.info.wp.zoneId)) (fun i _ _ hi hp => by
      by_cases hlast : i < (batchOf done v.info.wp.zoneId).length
      · exact spilling_within start hlast hi hp
      · obtain rfl : i = (batchOf done v.info.wp.zoneId).length := by omega
        exact spilling_again start (by omega) hi hp) temp spill₀
  have hinfo : (truncateZone standardGeometry v v.info.wp.zoneId).info = v.info := by
    rw [truncateZone_ok v (by omega)]
  have hwp : v₂.info.wp = ⟨v.info.wp.zoneId + 1, 0⟩ := by rw [spilled.out.wp, if_pos rfl]
  have hswap : v₂.info.swapWp = v.info.swapWp := by rw [spilled.out.swapWp, hinfo]
  have hfree := spilled_unused ready h hle hinfo spilled (by omega)
  have hsame' := sameData_truncate spilled.same.consistent 14 (by omega) hfree
  have hentry : ∀ n, InTable v₀.info n → n ∉ batchOf done v.info.wp.zoneId →
      tableEntry v₂.info n = tableEntry v.info n := by
    intro n hn hnot
    rw [spilled.others n (hsame.inTable.mpr hn) hnot, hinfo]
  simp only [drainFull_eq, hloop, Option.map_some, hswap, hc.swap_zone] at hdrain
  obtain ⟨_, rfl⟩ := Prod.mk.inj (Option.some.inj hdrain)
  have hdata := (hsame.trans spilled.same).trans hsame'
  have hinfo' : (truncateZone standardGeometry v₂ 14).info = v₂.info := by
    rw [truncateZone_ok v₂ (by omega)]
  have hpos := hc.zone_pos
  refine ⟨hdata.setSwapWp _, ?_, h.wasMapped, h.sorted, h.ordered, fun n hn hnot => ?_,
    fun n p hm hnot => ?_, fun j hj => ?_, fun e he => ?_, fun e he => ?_⟩
  · simp only [setSwapWp, hinfo', hwp]
    rw [h.length, full, hbpz]
    omega
  · exact (hentry n hn fun hmem => hnot (mem_of_mem_batch hmem)).trans (h.rest n hn hnot)
  · have := h.restZone n p hm hnot
    have := unused n p ((h.mapped_iff hnot).mpr hm)
    simp only [setSwapWp, hinfo', hwp]
    omega
  · simp only [setSwapWp, hinfo', hwp]
    show tableEntry v₂.info done[j] = _
    have hin := (h.wasMapped _ (List.getElem_mem hj)).1
    have hbound := h.length
    rw [full] at hbound
    by_cases hbatch : done[j] ∈ batchOf done v.info.wp.zoneId
    · obtain ⟨j', hj', he⟩ := List.getElem_of_mem hbatch
      have hjj : j = (v.info.wp.zoneId - 1) * (blocksPerZone - 1) + j' := by
        simp only [batchOf, List.getElem_drop] at he
        exact ((h.nodup.getElem_inj_iff).mp he).symm
      rw [← he, spilled.moved j' hj', hlen, hjj]
      exact spillPos_full hpos (by omega)
    · rw [hentry _ hin hbatch]
      obtain ⟨j', hj', he, hlt, hpos'⟩ := h.zone_lt_of_not_batch (List.getElem_mem hj) hbatch
      obtain rfl := (h.nodup.getElem_inj_iff).mp he
      rw [hpos', packPos_next hlt]
  · rw [truncateZone_ok v₂ (by omega)]
    refine List.mem_cons_of_mem _ (spilled.kept e ?_)
    rw [truncateZone_ok v (by omega)]
    exact List.mem_cons_of_mem _ (h.kept e he)
  · rw [setSwapWp, truncateZone_ok v₂ (by omega)] at he
    rcases List.mem_cons.mp he with rfl | he
    · exact Or.inr (safeReset_of_unused (by omega) hfree _)
    · rcases spilled.safe e he with he | he
      · rw [truncateZone_ok v (by omega)] at he
        rcases List.mem_cons.mp he with rfl | he
        · exact Or.inr (safeReset_of_unused (by omega) unused _)
        · exact h.safe e he
      · exact Or.inr he

end BlockPacking
