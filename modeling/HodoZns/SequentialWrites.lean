import HodoZns.LogCalls
import HodoZns.WritePointers

/-!
# Every run writes in order

The short last batch and the final resets bring the collector back to an
aligned log, so any run of calls keeps the discipline of the zoned device.
-/

namespace SequentialWrites

open ByteBlock Layout BlockLog ZoneLog Collector NumberAllocator CallRuns LogCalls WritePointers

/-- The first zone behind the log. -/
def firstBehind (wp : BlockPos) : Nat := if wp.blockIndex = 0 then wp.zoneId else wp.zoneId + 1

theorem resetZones_ok (turns i : Nat) (v : Volume) (h : i + turns ≤ 15) :
    (resetZones standardGeometry turns i v).info = v.info ∧
    (∀ z, (resetZones standardGeometry turns i v).dev z =
      if i ≤ z ∧ z < i + turns then [] else v.dev z) ∧
    ∀ P : Event → Prop, (∀ z dev, i ≤ z → z < i + turns → P ⟨.reset z, v.info.mappingTable, dev⟩) →
      (∀ e ∈ v.trace, P e) → ∀ e ∈ (resetZones standardGeometry turns i v).trace, P e := by
  induction turns generalizing i v with
  | zero => exact ⟨rfl, fun z => by rw [if_neg (by omega)]; rfl, fun _ _ h => h⟩
  | succ turns ih =>
    obtain ⟨hinfo, hdev, htrace⟩ := ih (i + 1) (truncateZone standardGeometry v i) (by omega)
    rw [truncateZone_ok v (show i ≤ 14 by omega)] at hinfo hdev htrace
    rw [resetZones_succ, truncateZone_ok v (show i ≤ 14 by omega)]
    refine ⟨hinfo, fun z => ?_, fun P hreset htr => ?_⟩
    · rw [hdev z]
      by_cases hz : z = i
      · subst hz
        simp
      · have hiff : (i + 1 ≤ z ∧ z < i + 1 + turns) ↔ (i ≤ z ∧ z < i + (turns + 1)) := by omega
        simp only [hiff, update_other _ _ hz]
    · apply htrace P
      · intro z dev h1 h2
        exact hreset z dev (by omega) (by omega)
      · intro e he
        rcases List.mem_cons.mp he with rfl | he
        · exact hreset i v.dev (by omega) (by omega)
        · exact htr e he

/-- The state between the last batch and the final resets. -/
structure Drained (prev : Nat) (v : Volume) : Prop where
  zone_pos : 1 ≤ v.info.wp.zoneId
  zone_le : v.info.wp.zoneId ≤ 14
  index_lt : v.info.wp.blockIndex < blocksPerZone
  at_wp : v.info.wp.blockIndex ≠ 0 → (v.dev v.info.wp.zoneId).length = v.info.wp.blockIndex
  ahead : ∀ z, firstBehind v.info.wp ≤ z → prev < z → z ≤ 14 → v.dev z = []
  inOrder : ∀ e ∈ v.trace, InOrder e

/-- The short batch, if there is one, goes to the write pointer's zone. -/
theorem drainRest_total (P : Nat → Volume → Prop) {v : Volume} (temp : Block)
    (hk : v.info.swapWp.blockIndex < blocksPerZone)
    (swap : ∀ i v', P i v' → v'.info.swapWp.blockIndex = v.info.swapWp.blockIndex)
    (turn : ∀ i temp v', i < v.info.swapWp.blockIndex → P i v' →
      P (i + 1) (swapOutOne standardGeometry ⟨14, i⟩ temp v').2)
    (start : v.info.swapWp.blockIndex ≠ 0 →
      P 0 (truncateZone standardGeometry v v.info.wp.zoneId)) :
    (v.info.swapWp.blockIndex = 0 ∧ drainRest standardGeometry temp v = some (temp, v)) ∨
    (v.info.swapWp.blockIndex ≠ 0 ∧ ∃ temp' v₁, P v.info.swapWp.blockIndex v₁ ∧
      drainRest standardGeometry temp v =
        some (temp', truncateZone standardGeometry v₁ v₁.info.swapWp.zoneId)) := by
  by_cases hzero : v.info.swapWp.blockIndex = 0
  · refine Or.inl ⟨hzero, ?_⟩
    rw [drainRest_eq, if_neg (not_not.mpr hzero)]
  · obtain ⟨temp', v₁, hloop, hp⟩ := swapOutRest_total standardGeometry (fun i _ => P i) hk
      (fun i _ => swap i) (fun i temp v => turn i temp v) temp (start hzero)
    refine Or.inr ⟨hzero, temp', v₁, hp, ?_⟩
    rw [drainRest_eq, if_pos hzero, hloop]
    rfl

theorem drainRest_drained {prev : Nat} {v : Volume} (h : Collecting prev v) (temp : Block) :
    ∃ temp' v', drainRest standardGeometry temp v = some (temp', v') ∧ Drained prev v' := by
  have hindex := h.index_zero
  let Out := SwappingOut (truncateZone standardGeometry v v.info.wp.zoneId) v.info.wp.zoneId
  have swap : ∀ i v', Out i v' → v'.info.swapWp.blockIndex = v.info.swapWp.blockIndex := by
    intro i v' hout
    rw [hout.swapWp, truncateZone_ok v h.zone_le]
  have turn : ∀ i temp v', i < v.info.swapWp.blockIndex → Out i v' →
      Out (i + 1) (swapOutOne standardGeometry ⟨14, i⟩ temp v').2 := by
    intro i temp v' hi hout
    have hlt := h.swap_lt
    exact swappingOut_turn (h.data_zone (by omega)) (by omega) hout ⟨14, i⟩ temp
  rcases drainRest_total Out temp h.swap_lt swap turn
      (fun hne => swappingOut_start h (h.data_zone hne)) with
    ⟨hzero, hrest⟩ | ⟨hne, temp', v₁, hout, hrest⟩
  · refine ⟨temp, v, hrest, ?_⟩
    constructor
    case at_wp => exact fun hne => absurd hindex hne
    case ahead =>
      intro z hz1 hz2 hz3
      rw [firstBehind, if_pos hindex] at hz1
      by_cases hz : z = 14
      · have hempty := h.at_swap
        rw [hzero] at hempty
        rw [hz]
        exact List.length_eq_zero_iff.mp hempty
      · exact h.ahead z hz1 hz2 (by omega)
    case index_lt => rw [hindex]; simp
    case zone_pos => exact h.zone_pos
    case zone_le => exact h.zone_le
    case inOrder => exact h.inOrder
  · have hz := h.data_zone hne
    have hwp : v₁.info.wp = ⟨v.info.wp.zoneId, v.info.swapWp.blockIndex⟩ := hout.wp_of_lt h.swap_lt
    have hswap : v₁.info.swapWp = v.info.swapWp := by
      rw [hout.swapWp, truncateZone_ok v (by omega)]
    rw [truncateZone_ok v₁ (by rw [hswap, h.swap_zone])] at hrest
    refine ⟨temp', _, hrest, ?_⟩
    have hzone := h.zone_pos
    constructor
    case inOrder =>
      intro e he
      rcases List.mem_cons.mp he with rfl | he
      · trivial
      · exact hout.inOrder e he
    all_goals simp only [hwp, hswap, h.swap_zone]
    case zone_pos => exact h.zone_pos
    case zone_le => omega
    case index_lt => exact h.swap_lt
    case at_wp =>
      intro _
      rw [update_other _ _ (by omega)]
      exact hout.filled
    case ahead =>
      intro z hz1 hz2 hz3
      simp only [firstBehind, if_neg hne] at hz1
      by_cases hz14 : z = 14
      · rw [hz14, update_same]
      · rw [update_other _ _ hz14, hout.others z (by omega), truncateZone_ok v (by omega)]
        simp only
        rw [update_other _ _ (by omega)]
        exact h.ahead z (by omega) hz2 (by omega)

theorem resetBehind_aligned {prev : BlockPos} {v : Volume} (h : Drained prev.zoneId v)
    (hprev : prev.zoneId ≤ 13) : Aligned (resetBehind standardGeometry prev v) := by
  have hzone := h.zone_le
  have hfirst : firstBehind v.info.wp ≤ 15 := by
    rw [firstBehind]
    split <;> omega
  have hreset : resetBehind standardGeometry prev v =
      resetZones standardGeometry (prev.zoneId + 1 - firstBehind v.info.wp)
        (firstBehind v.info.wp) v := rfl
  obtain ⟨hinfo, hdev, htrace⟩ :=
    resetZones_ok (prev.zoneId + 1 - firstBehind v.info.wp) (firstBehind v.info.wp) v
      (show firstBehind v.info.wp + (prev.zoneId + 1 - firstBehind v.info.wp) ≤ 15 by omega)
  rw [hreset]
  constructor
  case inOrder => exact htrace InOrder (fun _ _ _ _ => trivial) h.inOrder
  all_goals simp only [hinfo]
  case zone_pos => exact h.zone_pos
  case index_lt => exact h.index_lt
  case at_wp =>
    rw [hdev]
    by_cases hzero : v.info.wp.blockIndex = 0
    · have hf : firstBehind v.info.wp = v.info.wp.zoneId := if_pos hzero
      rw [hzero, List.length_eq_zero_iff, ite_eq_left_iff]
      intro hout
      exact h.ahead _ (by omega) (by omega) h.zone_le
    · have hf : firstBehind v.info.wp = v.info.wp.zoneId + 1 := if_neg hzero
      rw [if_neg (by omega)]
      exact h.at_wp hzero
  case ahead =>
    intro z hz1 hz2
    rw [hdev, ite_eq_left_iff]
    intro hout
    have hf : firstBehind v.info.wp ≤ v.info.wp.zoneId + 1 := by
      rw [firstBehind]
      split <;> omega
    exact h.ahead z (by omega) (by omega) hz2

theorem GC_eq {G : Geometry} {kmem temp temp' : Block} {v v₁ v₂ : Volume}
    (hcollect : collect G kmem (startGC G v) = some (temp, v₁))
    (hrest : drainRest G temp v₁ = some (temp', v₂)) :
    GC G kmem v = some (resetBehind G v.info.wp v₂) := by
  simp only [GC_phases, hcollect, Option.bind_some, hrest, Option.map_some]

/-- The collector ends, and leaves the log aligned. -/
theorem GC_aligned {v : Volume} (h : ClearAhead v) (hz : v.info.wp.zoneId ≤ 13) (kmem : Block) :
    ∃ v', GC standardGeometry kmem v = some v' ∧ Aligned v' := by
  obtain ⟨temp, v₁, hcollect, _, hc, _, _⟩ :=
    collect_total (fun _ => True) (fun _ _ _ _ _ _ _ => trivial)
      (fun _ _ _ _ _ _ _ _ _ _ => trivial) trivial (collecting_start h hz)
      (by simp [startGC, setSwapWp, setWp]) kmem
  obtain ⟨temp', v₂, hrest, hdrained⟩ := drainRest_drained hc temp
  exact ⟨_, GC_eq hcollect hrest, resetBehind_aligned hdrained hz⟩

/-- The volume of a first mount before the root inode is written. -/
def unwritten : Volume where
  info := { zeroMappingInfo with startingLogicalNumber := 16, wp := ⟨1, 0⟩, swapWp := ⟨14, 0⟩ }
  dev := fun _ => []
  trace := []

theorem firstMount_eq (stack : Block) (uid gid : Nat) :
    firstMount standardGeometry stack uid gid =
      (hodoWriteStruct standardGeometry ioOk
        { unwritten with info := (hodoGetNextLogicalNumber unwritten.info).2 }
        (some (rootInode stack (hodoGetNextLogicalNumber unwritten.info).1 uid gid))
        hodoDatablockSize (hodoGetNextLogicalNumber unwritten.info).1).volume := by
  rw [firstMount, hodoInit_eq, if_pos ⟨rfl, rfl⟩]
  simp only [standardGeometry_nrZones]
  rfl

theorem aligned_unwritten : Aligned unwritten := by
  constructor <;> simp [unwritten]

theorem aligned_firstMount (stack : Block) (uid gid : Nat) :
    Aligned (firstMount standardGeometry stack uid gid) := by
  rw [firstMount_eq]
  exact aligned_write (aligned_of_info aligned_unwritten (getNext_wp _))
    (by simp [unwritten]) _ _

/-- The calls a run may make: the arguments lie in the tables, transfers are
whole blocks, and so do the numbers that the collector finds in the blocks. -/
def Admitted (v : Volume) : LogCall → Prop
  | .next => WpInData v
  | .read n _ _ => WpInData v ∧ InTable v.info n
  | .write _ len n =>
    WpInData v ∧ len % hodoDatablockSize = 0 ∧ (n = 0 ∧ FreeNumber v.info ∨ InTable v.info n)
  | .erase n => WpInData v ∧ InTable v.info n
  | .gc kmem =>
    WpInData v ∧ ∀ v', GC standardGeometry kmem v = some v' → ∀ e ∈ v'.trace,
      match e.io with
      | .write _ _ n => InTable v'.info n
      | .reset _ => True

instance (v : Volume) (io : Io) : Decidable
    (match io with
      | .write _ _ n => InTable v.info n
      | .reset _ => True) :=
  match io with
  | .write _ _ n => inferInstanceAs (Decidable (InTable v.info n))
  | .reset _ => inferInstanceAs (Decidable True)

instance (v : Volume) (c : LogCall) : Decidable (Admitted v c) :=
  match c with
  | .next => inferInstanceAs (Decidable (WpInData v))
  | .read n _ _ => inferInstanceAs (Decidable (WpInData v ∧ InTable v.info n))
  | .write _ len n => inferInstanceAs (Decidable (WpInData v ∧ len % hodoDatablockSize = 0 ∧
      (n = 0 ∧ FreeNumber v.info ∨ InTable v.info n)))
  | .erase n => inferInstanceAs (Decidable (WpInData v ∧ InTable v.info n))
  | .gc kmem => inferInstanceAs (Decidable (WpInData v ∧
      ∀ v', GC standardGeometry kmem v = some v' → ∀ e ∈ v'.trace,
        match e.io with
        | .write _ _ n => InTable v'.info n
        | .reset _ => True))

theorem aligned_call {v : Volume} {c : LogCall} (h : Aligned v) (admitted : Admitted v c) :
    ∃ a v', callStep standardGeometry v c = some (a, v') ∧ Aligned v' := by
  cases c with
  | next => exact ⟨_, _, rfl, aligned_of_info h (getNext_wp _)⟩
  | read n outBuf len =>
    rw [callStep_read admitted.2]
    exact ⟨_, _, rfl, h⟩
  | erase n => exact ⟨_, _, rfl, aligned_of_info h (erase_wp _ _)⟩
  | write buf len n =>
    refine ⟨_, _, rfl, ?_⟩
    obtain ⟨⟨_, hz⟩, hlen, _⟩ := admitted
    cases buf with
    | none => exact h
    | some b =>
      by_cases hbad : len = 0 ∨ hodoDatablockSize < len
      · simp only [hodoWriteStruct_some, if_pos hbad]
        exact h
      · have hfull : len = hodoDatablockSize := by
          simp only [hodoDatablockSize_eq] at hbad hlen ⊢
          omega
        rw [hfull]
        exact aligned_write h hz b n
  | gc kmem =>
    obtain ⟨v', hgc, h'⟩ := GC_aligned h.clearAhead admitted.1.2 kmem
    exact ⟨_, v', by rw [callStep, hgc]; rfl, h'⟩

/-- Every device write of every run goes to the write pointer of its zone, and
that zone is not full. -/
theorem run_inOrder (stack : Block) (uid gid : Nat) (cs : List LogCall)
    (calls : EachCall (callStep standardGeometry) Admitted cs
      (firstMount standardGeometry stack uid gid)) :
    ∃ as v, run (callStep standardGeometry) cs (firstMount standardGeometry stack uid gid) =
      some (as, v) ∧ ∀ e ∈ v.trace, InOrder e := by
  obtain ⟨as, v, hrun, h⟩ := run_total Admitted Aligned
    (fun v c h admitted => aligned_call h admitted) (aligned_firstMount stack uid gid) calls
  exact ⟨as, v, hrun, h.inOrder⟩

/-- A data block without contents. -/
def emptyData : Block := putMagic zeros (chr 'D') (chr 'A') (chr 'T') (chr '0')

/-- A block is written twice, so that the collector has a dead one to leave out, and its number
is released after another write. -/
def shortRun : List LogCall :=
  [.write (some emptyData) 4096 0, .write (some emptyData) 4096 17, .gc zeros,
    .write (some emptyData) 4096 0, .erase 17]

theorem shortRun_inOrder :
    EachCall (callStep standardGeometry) Admitted shortRun (firstMount standardGeometry zeros 0 0) ∧
    ∃ as v, run (callStep standardGeometry) shortRun (firstMount standardGeometry zeros 0 0) =
      some (as, v) ∧ ∀ e ∈ v.trace, InOrder e := by
  have calls : EachCall (callStep standardGeometry) Admitted shortRun
      (firstMount standardGeometry zeros 0 0) := by
    decide +kernel
  exact ⟨calls, run_inOrder zeros 0 0 shortRun calls⟩

end SequentialWrites
