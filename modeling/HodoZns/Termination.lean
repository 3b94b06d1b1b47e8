import HodoZns.WritePointers

/-!
# Termination of the collector

The loops of `GC` are driven by `wp` and `swap_wp`, which both writers move on
whatever the bitmaps, the table, the block headers and the zone files say. A stale
bit can keep the scan busy, but every turn fills the swap zone by one block and every
drain takes `wp` one zone on, until the scan has no zone left.
-/

namespace Termination

open BitmapWords Layout BlockLog ZoneLog FuelLoop Collector WritePointers

@[simp] theorem truncateZone_info (G : Geometry) (v : Volume) (zone : Nat) :
    (truncateZone G v zone).info = v.info := by
  rw [truncateZone]
  split <;> rfl

@[simp] theorem zoneWrite_info (G : Geometry) (r : IoResult) (v : Volume)
    (zone offset len n : Nat) (b : Block) : (zoneWrite G r v zone offset len n b).2.info = v.info :=
  rfl

/-- `hodo_write_struct` moves `wp` on, also when the zone refuses the block. -/
theorem swapOutOne_pointers {v : Volume} (ptr : BlockPos) (temp : Block)
    (hz : v.info.wp.zoneId ≤ 14) :
    (swapOutOne standardGeometry ptr temp v).2.info.wp =
        nextWp standardGeometry v.info.wp hodoDatablockSize ∧
      (swapOutOne standardGeometry ptr temp v).2.info.swapWp = v.info.swapWp := by
  have hlen : ¬ (hodoDatablockSize = 0 ∨ hodoDatablockSize < hodoDatablockSize) := by decide
  simp only [swapOutOne_eq, hodoWriteStruct_some, if_neg hlen, filpOpen_ok hz, setWp]
  exact ⟨trivial, recordWrite_swapWp _ _⟩

/-- The same for `hodo_GC_write_struct` and `swap_wp`. -/
theorem swapInOne_pointers {v : Volume} (pos : BlockPos) (temp : Block)
    (hz : v.info.swapWp.zoneId ≤ 14) :
    (swapInOne standardGeometry pos temp v).2.info.wp = v.info.wp ∧
      (swapInOne standardGeometry pos temp v).2.info.swapWp =
        nextSwapWp standardGeometry v.info.swapWp hodoDatablockSize := by
  have hlen : ¬ (hodoDatablockSize = 0 ∨ hodoDatablockSize < hodoDatablockSize) := by decide
  simp only [swapInOne_eq, hodoGCWriteStruct_some, if_neg hlen, filpOpen_ok hz, setSwapWp]
  exact ⟨recordMove_wp _ _, trivial⟩

/-- The pointers in front of a turn of the main loop. -/
structure Poised (v : Volume) : Prop where
  zone_pos : 1 ≤ v.info.wp.zoneId
  zone_le : v.info.wp.zoneId ≤ 14
  index_zero : v.info.wp.blockIndex = 0
  swap_zone : v.info.swapWp.zoneId = 14
  swap_lt : v.info.swapWp.blockIndex + 1 < blocksPerZone

theorem poised_startGC (v : Volume) : Poised (startGC standardGeometry v) := by
  constructor <;> simp [startGC, setWp, setSwapWp]

/-- The pointers after `i` turns of a swap-out that started in `zone`. -/
structure Draining (zone : Nat) (swapWp : BlockPos) (i : Nat) (v : Volume) : Prop where
  wp : v.info.wp = if i = blocksPerZone then ⟨zone + 1, 0⟩ else ⟨zone, i⟩
  swap : v.info.swapWp = swapWp

theorem Draining.turn {zone i : Nat} {swapWp : BlockPos} {v : Volume}
    (h : Draining zone swapWp i v) (hz : zone ≤ 14) (hi : i < blocksPerZone) (ptr : BlockPos)
    (temp : Block) :
    Draining zone swapWp (i + 1) (swapOutOne standardGeometry ptr temp v).2 := by
  have hwp : v.info.wp = ⟨zone, i⟩ := by rw [h.wp, if_neg (by omega)]
  obtain ⟨hnext, hswap⟩ := swapOutOne_pointers ptr temp (v := v) (by rw [hwp]; exact hz)
  constructor
  · rw [hnext, hwp, nextWp_eq hz hi]
  · rw [hswap, h.swap]

theorem draining_start {v : Volume} (index_zero : v.info.wp.blockIndex = 0) :
    Draining v.info.wp.zoneId v.info.swapWp 0
      (truncateZone standardGeometry v v.info.wp.zoneId) := by
  constructor
  · rw [truncateZone_info, if_neg (by simp), ← index_zero]
  · rw [truncateZone_info]

/-- A full swap zone is emptied, and `wp` is one zone further. -/
theorem drainFull_ends {v : Volume} (zone_le : v.info.wp.zoneId ≤ 13)
    (index_zero : v.info.wp.blockIndex = 0) (swap_zone : v.info.swapWp.zoneId = 14)
    (temp : Block) :
    ∃ s, drainFull standardGeometry temp v = some s ∧ Poised s.2 ∧
      s.2.info.wp = ⟨v.info.wp.zoneId + 1, 0⟩ ∧ s.2.info.swapWp = ⟨14, 0⟩ := by
  obtain ⟨temp', v', hloop, hout⟩ := swapOutFull_total standardGeometry
    (fun i _ => Draining v.info.wp.zoneId v.info.swapWp i)
    (fun i temp _ hi h => h.turn (by omega) hi ⟨14, i⟩ temp) temp (draining_start index_zero)
  have hwp : v'.info.wp = ⟨v.info.wp.zoneId + 1, 0⟩ := by rw [hout.wp, if_pos rfl]
  refine ⟨_, by rw [drainFull_eq, hloop]; rfl, ?_, ?_, ?_⟩
  · constructor <;> simp [setSwapWp, hwp, hout.swap, swap_zone]
    omega
  · simp [setSwapWp, hwp]
  · simp [setSwapWp, hout.swap, swap_zone]

/-- The rest in the swap zone is written out, wherever `wp` has got to. -/
theorem drainRest_ends {v : Volume} (h : Poised v) (temp : Block) :
    ∃ s, drainRest standardGeometry temp v = some s := by
  by_cases hempty : v.info.swapWp.blockIndex = 0
  · exact ⟨_, by rw [drainRest_eq, if_neg (not_not_intro hempty)]⟩
  · have hlt : v.info.swapWp.blockIndex < blocksPerZone := by
      have := h.swap_lt
      omega
    obtain ⟨temp', v', hloop, _⟩ := swapOutRest_total standardGeometry
      (fun i _ => Draining v.info.wp.zoneId v.info.swapWp i) hlt
      (fun _ _ _ hp => by rw [hp.swap])
      (fun i temp _ hi hp => hp.turn h.zone_le (by omega) ⟨14, i⟩ temp) temp
        (draining_start h.index_zero)
    exact ⟨_, by rw [drainRest_eq, if_pos hempty, hloop]; rfl⟩

/-- What a turn that found a block does: one more block in the swap zone, or one
more zone behind `wp`. -/
theorem collectTurn_advances {v : Volume} (h : Poised v)
    (found : (hodoGetNextGCValid v.info).zoneId ≠ 0) (temp : Block) :
    ∃ s, collectTurn standardGeometry (temp, v) = .inl s ∧ Poised s.2 ∧ v.info.wp.zoneId ≤ 13 ∧
      (s.2.info.wp.zoneId = v.info.wp.zoneId ∧
          s.2.info.swapWp.blockIndex = v.info.swapWp.blockIndex + 1 ∨
        s.2.info.wp.zoneId = v.info.wp.zoneId + 1 ∧ s.2.info.swapWp.blockIndex = 0 ∧
          v.info.swapWp.blockIndex + 2 = blocksPerZone) := by
  have hzone : v.info.wp.zoneId ≤ 13 := by
    rcases getNextGCValid_cases v.info with ⟨hnone, _⟩ | ⟨hlo, hhi, _⟩
    · exact absurd hnone found
    · omega
  have hroom := h.swap_lt
  obtain ⟨hwp, hswap⟩ :=
    swapInOne_pointers (hodoGetNextGCValid v.info) temp (v := v) (by rw [h.swap_zone])
  rw [nextSwapWp_eq hroom] at hswap
  generalize hs : swapInOne standardGeometry (hodoGetNextGCValid v.info) temp v = s at hwp hswap
  by_cases hfull : v.info.swapWp.blockIndex + 2 = blocksPerZone
  · obtain ⟨s', hdrain, poised, hwp', hswap'⟩ := drainFull_ends (v := s.2)
      (by rw [hwp]; exact hzone) (by rw [hwp]; exact h.index_zero)
      (by rw [hswap]; exact h.swap_zone) s.1
    refine ⟨s', collectTurn_drain found hs (by rw [hswap]; simp only; omega) hdrain,
      poised, hzone, ?_⟩
    exact Or.inr ⟨by rw [hwp', hwp], by rw [hswap'], hfull⟩
  · refine ⟨s, collectTurn_swapIn found hs (by rw [hswap]; simp only; omega), ?_, hzone, ?_⟩
    · constructor
      · rw [hwp]
        exact h.zone_pos
      · rw [hwp]
        exact h.zone_le
      · rw [hwp]
        exact h.index_zero
      · rw [hswap]
        exact h.swap_zone
      · rw [hswap]
        simp only
        omega
    · exact Or.inl ⟨by rw [hwp], by rw [hswap]⟩

theorem collect_ends {v : Volume} (h : Poised v) (temp : Block) :
    ∃ s, collect standardGeometry temp v = some s ∧ Poised s.2 := by
  have hloop := collect_rule standardGeometry Poised collectVariant ?_ h
    (collectVariant_lt_fuel h.zone_pos) temp
  · obtain ⟨temp', v', hcollect, poised, _⟩ := hloop
    exact ⟨(temp', v'), hcollect, poised⟩
  · intro temp v h hfound
    obtain ⟨s, hgo, poised, hzone, advance⟩ := collectTurn_advances h hfound temp
    refine ⟨s, hgo, poised, ?_⟩
    have hlt := h.swap_lt
    simp only [blocksPerZone_eq] at advance hlt
    simp only [collectVariant, blocksPerZone_eq]
    rcases advance with ⟨hwp, hswap⟩ | ⟨hwp, hswap, hfull⟩
    · rw [hwp, hswap]
      omega
    · rw [hwp, hswap]
      omega

/-- Whatever the bitmaps, the table, `wp` and the blocks hold, every loop of the
collector ends. -/
theorem GC_ends (kmem : Block) (v : Volume) : ∃ v', GC standardGeometry kmem v = some v' := by
  obtain ⟨⟨temp, v₁⟩, hcollect, poised⟩ := collect_ends (poised_startGC v) kmem
  obtain ⟨s, hrest⟩ := drainRest_ends poised temp
  refine ⟨resetBehind standardGeometry v.info.wp s.2, ?_⟩
  rw [GC_phases, hcollect, Option.bind_some]
  simp only [hrest, Option.map_some]

end Termination
