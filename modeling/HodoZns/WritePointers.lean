import HodoZns.Geometries
import HodoZns.NumberAllocator

/-!
# Write pointers in memory and on the device

On a device of 16 zones of 256 MiB the two write pointers kept in memory agree
with the zone files at every write. The invariants speak about `wp`, `swap_wp`
and the lengths of the zones only, so they hold whatever the bitmaps, the
mapping table and the block headers say.
-/

namespace WritePointers

open BitmapWords Layout BlockLog ZoneLog FuelLoop Collector Geometries

/-- A write goes to the write pointer of a zone that is not full. -/
def InOrder (e : Event) : Prop :=
  match e.io with
  | .write zone offset _ =>
    offset = (e.dev zone).length * hodoDatablockSize ∧ (e.dev zone).length < blocksPerZone
  | .reset _ => True

/-- The volume after block `b` was appended to `zone` under the information `m`. -/
def appended (v : Volume) (m : MappingInfo) (zone n : Nat) (b : Block) : Volume where
  info := m
  dev := update v.dev zone (v.dev zone ++ [b])
  trace :=
    ⟨.write zone ((v.dev zone).length * hodoDatablockSize) n, m.mappingTable, v.dev⟩ :: v.trace

theorem filpOpen_ok {zone : Nat} (hz : zone ≤ 14) : filpOpen standardGeometry ioOk zone = none :=
  filpOpen_of_le standard_fits (by rwa [swapZone_standard])

theorem zoneWrite_ok (v : Volume) {zone i : Nat} (n : Nat) (b : Block)
    (hlen : (v.dev zone).length = i) (hi : i < blocksPerZone) :
    zoneWrite standardGeometry ioOk v zone (i * hodoDatablockSize) hodoDatablockSize n b =
      (4096, appended v v.info zone n b) := by
  simp only [blocksPerZone_eq] at hi
  have hcap : ¬ 268435456 ≤ i * 4096 := by omega
  have hmul : i * 4096 % 4096 = 0 := Nat.mul_mod_left i 4096
  simp [zoneWrite, zonefsFileWriteIter, ioOk, hcap, hmul, appended, hlen]

theorem nextWp_eq {wp : BlockPos} (hz : wp.zoneId ≤ 14) (hi : wp.blockIndex < blocksPerZone) :
    nextWp standardGeometry wp hodoDatablockSize =
      if wp.blockIndex + 1 = blocksPerZone then ⟨wp.zoneId + 1, 0⟩
      else ⟨wp.zoneId, wp.blockIndex + 1⟩ := by
  rw [nextWp_of_fits standard_fits (by rwa [swapZone_standard]) (by rwa [zoneBlocks_standard]),
    zoneBlocks_standard]

theorem nextSwapWp_eq {swapWp : BlockPos} (h : swapWp.blockIndex + 1 < blocksPerZone) :
    nextSwapWp standardGeometry swapWp hodoDatablockSize =
      ⟨swapWp.zoneId, swapWp.blockIndex + 1⟩ := by
  rw [nextSwapWp_of_fits standard_fits (by rw [zoneBlocks_standard]; omega), zoneBlocks_standard,
    if_neg (Nat.ne_of_lt h)]

theorem hodoWriteStruct_ok {v : Volume} (b : Block) (n : Nat) (hz : v.info.wp.zoneId ≤ 14)
    (hlen : (v.dev v.info.wp.zoneId).length = v.info.wp.blockIndex)
    (hi : v.info.wp.blockIndex < blocksPerZone) :
    hodoWriteStruct standardGeometry ioOk v (some b) hodoDatablockSize n =
      let r := recordWrite v.info n
      let b' := stamp b r.1
      ⟨4096, r.1, some b', setWp (appended v r.2 v.info.wp.zoneId r.1 b')
        (nextWp standardGeometry v.info.wp hodoDatablockSize)⟩ := by
  have hwrite := zoneWrite_ok { v with info := (recordWrite v.info n).2 } (recordWrite v.info n).1
    (stamp b (recordWrite v.info n).1) hlen hi
  simp only [hodoWriteStruct_some, hodoDatablockSize_eq, Nat.lt_irrefl, or_false, filpOpen_ok hz]
  rw [if_neg (by decide)]
  simp only [hodoDatablockSize_eq] at hwrite
  simp only [hwrite]
  rfl

theorem hodoGCWriteStruct_ok {v : Volume} (b : Block) (n : Nat) (hz : v.info.swapWp.zoneId ≤ 14)
    (hlen : (v.dev v.info.swapWp.zoneId).length = v.info.swapWp.blockIndex)
    (hi : v.info.swapWp.blockIndex + 1 < blocksPerZone) :
    hodoGCWriteStruct standardGeometry ioOk v (some b) hodoDatablockSize n =
      ⟨4096, n, some b, setSwapWp (appended v (recordMove v.info n) v.info.swapWp.zoneId n b)
        ⟨v.info.swapWp.zoneId, v.info.swapWp.blockIndex + 1⟩⟩ := by
  have hwrite := zoneWrite_ok { v with info := recordMove v.info n } n b hlen (by omega)
  have hnext := nextSwapWp_eq hi
  simp only [hodoGCWriteStruct_some, hodoDatablockSize_eq, Nat.lt_irrefl, or_false, filpOpen_ok hz]
  rw [if_neg (by decide)]
  simp only [hodoDatablockSize_eq] at hwrite hnext
  simp only [hwrite, hnext]
  rfl

theorem truncateZone_ok (v : Volume) {zone : Nat} (hz : zone ≤ 14) :
    truncateZone standardGeometry v zone =
      { info := v.info
        dev := update v.dev zone []
        trace := ⟨.reset zone, v.info.mappingTable, v.dev⟩ :: v.trace } := by
  simp only [truncateZone, standardGeometry_nrZones]
  rw [if_pos (by omega)]

@[simp] theorem recordWrite_wp (m : MappingInfo) (n : Nat) : (recordWrite m n).2.wp = m.wp := by
  simp only [recordWrite, setTableEntry]
  split
  · simp only [hodoGetNextLogicalNumber]
    split <;> rfl
  · rfl

@[simp] theorem recordWrite_swapWp (m : MappingInfo) (n : Nat) :
    (recordWrite m n).2.swapWp = m.swapWp := by
  simp only [recordWrite, setTableEntry]
  split
  · simp only [hodoGetNextLogicalNumber]
    split <;> rfl
  · rfl

@[simp] theorem recordWrite_starting (m : MappingInfo) (n : Nat) :
    (recordWrite m n).2.startingLogicalNumber = m.startingLogicalNumber := by
  simp only [recordWrite, setTableEntry]
  split
  · exact NumberAllocator.getNext_starting _
  · rfl

/-- A write under a number that is given. -/
theorem recordWrite_number (m : MappingInfo) {n : Nat} (hn : n ≠ 0) : (recordWrite m n).1 = n := by
  rw [recordWrite, if_neg hn]

theorem recordWrite_bitmap (m : MappingInfo) {n : Nat} (hn : n ≠ 0) :
    (recordWrite m n).2.logicalEntryBitmap = m.logicalEntryBitmap := by
  rw [recordWrite, if_neg hn]
  rfl

theorem recordWrite_table (m : MappingInfo) {n : Nat} (hn : n ≠ 0) :
    (recordWrite m n).2.mappingTable = update m.mappingTable (tableIndex m n) m.wp := by
  rw [recordWrite, if_neg hn]
  rfl

theorem hodoWriteStruct_starting (G : Geometry) (r : IoResult) (v : Volume) (buf : Option Block)
    (len n : Nat) : (hodoWriteStruct G r v buf len n).volume.info.startingLogicalNumber =
      v.info.startingLogicalNumber := by
  cases buf with
  | none => rfl
  | some b =>
    simp only [hodoWriteStruct_some]
    split
    · rfl
    · split
      · exact recordWrite_starting v.info n
      · exact recordWrite_starting v.info n

theorem inOrder_appended {v : Volume} (m : MappingInfo) (zone n : Nat) (b : Block)
    (hlen : (v.dev zone).length < blocksPerZone) (h : ∀ e ∈ v.trace, InOrder e) :
    ∀ e ∈ (appended v m zone n b).trace, InOrder e := by
  intro e he
  rcases List.mem_cons.mp he with rfl | he
  · exact ⟨rfl, hlen⟩
  · exact h e he

theorem inOrder_truncateZone {v : Volume} {zone : Nat} (hz : zone ≤ 14)
    (h : ∀ e ∈ v.trace, InOrder e) :
    ∀ e ∈ (truncateZone standardGeometry v zone).trace, InOrder e := by
  rw [truncateZone_ok v hz]
  intro e he
  rcases List.mem_cons.mp he with rfl | he
  · trivial
  · exact h e he

/-- The log ends at `wp`, and every zone behind it up to the swap zone is empty. -/
structure Aligned (v : Volume) : Prop where
  zone_pos : 1 ≤ v.info.wp.zoneId
  index_lt : v.info.wp.blockIndex < blocksPerZone
  at_wp : (v.dev v.info.wp.zoneId).length = v.info.wp.blockIndex
  ahead : ∀ z, v.info.wp.zoneId < z → z ≤ 14 → v.dev z = []
  inOrder : ∀ e ∈ v.trace, InOrder e

/-- Every zone behind the write pointer's up to the swap zone is empty. -/
structure ClearAhead (v : Volume) : Prop where
  ahead : ∀ z, v.info.wp.zoneId < z → z ≤ 14 → v.dev z = []
  inOrder : ∀ e ∈ v.trace, InOrder e

theorem Aligned.clearAhead {v : Volume} (h : Aligned v) : ClearAhead v :=
  ⟨h.ahead, h.inOrder⟩

theorem nextWp_index_lt {wp : BlockPos} (hz : wp.zoneId ≤ 14) (h : wp.blockIndex < blocksPerZone) :
    (nextWp standardGeometry wp hodoDatablockSize).blockIndex < blocksPerZone := by
  rw [nextWp_eq hz h]
  split
  · simp
  · simp only
    omega

theorem aligned_write {v : Volume} (h : Aligned v) (hz : v.info.wp.zoneId ≤ 13) (b : Block)
    (n : Nat) :
    Aligned (hodoWriteStruct standardGeometry ioOk v (some b) hodoDatablockSize n).volume := by
  rw [hodoWriteStruct_ok b n (by omega) h.at_wp h.index_lt]
  have hlt := h.index_lt
  have hlen := h.at_wp
  constructor
  case inOrder => exact inOrder_appended _ _ _ _ (by rw [hlen]; exact hlt) h.inOrder
  all_goals simp only [setWp, appended]
  case index_lt => exact nextWp_index_lt (by omega) hlt
  all_goals simp only [nextWp_eq (show v.info.wp.zoneId ≤ 14 by omega) hlt]
  case zone_pos =>
    have := h.zone_pos
    split <;> simp only <;> omega
  case at_wp =>
    split
    · simp [h.ahead (v.info.wp.zoneId + 1) (by omega) (by omega)]
    · simp [hlen]
  case ahead =>
    intro z hz1 hz2
    have hne : v.info.wp.zoneId < z := by
      split at hz1 <;> simp only at hz1 <;> omega
    rw [update_other _ _ (by omega)]
    exact h.ahead z hne hz2

theorem aligned_of_info {v : Volume} (h : Aligned v) {m : MappingInfo} (hwp : m.wp = v.info.wp) :
    Aligned { v with info := m } := by
  constructor
  · simpa [hwp] using h.zone_pos
  · simpa [hwp] using h.index_lt
  · simpa [hwp] using h.at_wp
  · simpa [hwp] using h.ahead
  · exact h.inOrder

theorem swapOutOne_ok {v : Volume} (ptr : BlockPos) (temp : Block) (hz : v.info.wp.zoneId ≤ 14)
    (hlen : (v.dev v.info.wp.zoneId).length = v.info.wp.blockIndex)
    (hi : v.info.wp.blockIndex < blocksPerZone) :
    swapOutOne standardGeometry ptr temp v =
      let b := gcRead standardGeometry v ptr temp
      let r := recordWrite v.info (ownNumber b)
      let b' := stamp b r.1
      (b', setWp (appended v r.2 v.info.wp.zoneId r.1 b')
        (nextWp standardGeometry v.info.wp hodoDatablockSize)) := by
  simp only [swapOutOne_eq, hodoWriteStruct_ok _ _ hz hlen hi, Option.getD_some]

theorem swapInOne_ok {v : Volume} (pos : BlockPos) (temp : Block) (hz : v.info.swapWp.zoneId ≤ 14)
    (hlen : (v.dev v.info.swapWp.zoneId).length = v.info.swapWp.blockIndex)
    (hi : v.info.swapWp.blockIndex + 1 < blocksPerZone) :
    swapInOne standardGeometry pos temp v =
      let b := gcRead standardGeometry v pos temp
      (b, setSwapWp
        (appended v (recordMove v.info (ownNumber b)) v.info.swapWp.zoneId (ownNumber b) b)
        ⟨v.info.swapWp.zoneId, v.info.swapWp.blockIndex + 1⟩) := by
  simp only [swapInOne_eq, hodoGCWriteStruct_ok _ _ hz hlen hi, Option.getD_some]

/-- `swapOutFull` makes one turn for each block of a zone. -/
theorem swapOutFull_total (G : Geometry) (P : Nat → Block → Volume → Prop)
    (turn : ∀ i temp v, i < blocksPerZone → P i temp v →
      P (i + 1) (swapOutOne G ⟨G.hodoNrZones - 2, i⟩ temp v).1
        (swapOutOne G ⟨G.hodoNrZones - 2, i⟩ temp v).2)
    (temp : Block) {v : Volume} (start : P 0 temp v) :
    ∃ temp' v', swapOutFull G temp v = some (temp', v') ∧ P blocksPerZone temp' v' := by
  have h : ∃ r, swapOutFull G temp v = some r ∧ P blocksPerZone r.1 r.2 := loop_total _
    (fun s => s.1.zoneId = G.hodoNrZones - 2 ∧ s.1.blockIndex < blocksPerZone ∧
      P s.1.blockIndex s.2.1 s.2.2)
    (fun s => blocksPerZone - s.1.blockIndex) (fun r : Block × Volume => P blocksPerZone r.1 r.2)
    (n := loopFuel) (s := ((⟨G.hodoNrZones - 2, 0⟩ : BlockPos), temp, v))
    ?_ ?_ ⟨rfl, by simp, start⟩ (by simp [loopFuel])
  · obtain ⟨⟨temp', v'⟩, heq, hpost⟩ := h
    exact ⟨temp', v', heq, hpost⟩
  · rintro ⟨⟨z, i⟩, temp, v⟩ s' ⟨hz, hi, hp⟩ hbody
    simp only at hz hi hp hbody
    subst hz
    split at hbody
    · cases hbody
    case isFalse hne =>
    obtain rfl := Sum.inl.inj hbody
    exact ⟨⟨rfl, by simp only; omega, turn i temp v hi hp⟩, by simp only; omega⟩
  · rintro ⟨⟨z, i⟩, temp, v⟩ r ⟨hz, hi, hp⟩ hbody
    simp only at hz hi hp hbody
    subst hz
    split at hbody
    case isFalse => cases hbody
    case isTrue hlast =>
    obtain rfl := Sum.inr.inj hbody
    have hnext := turn i temp v hi hp
    rwa [show i + 1 = blocksPerZone by omega] at hnext

/-- `swapOutRest` makes one turn for each block in the swap zone. -/
theorem swapOutRest_total (G : Geometry) (P : Nat → Block → Volume → Prop) {k : Nat}
    (hk : k < blocksPerZone)
    (hswap : ∀ i temp v, P i temp v → v.info.swapWp.blockIndex = k)
    (turn : ∀ i temp v, i < k → P i temp v →
      P (i + 1) (swapOutOne G ⟨G.hodoNrZones - 2, i⟩ temp v).1
        (swapOutOne G ⟨G.hodoNrZones - 2, i⟩ temp v).2)
    (temp : Block) {v : Volume} (start : P 0 temp v) :
    ∃ temp' v', swapOutRest G temp v = some (temp', v') ∧ P k temp' v' := by
  have h : ∃ r, swapOutRest G temp v = some r ∧ P k r.1 r.2 := loop_total _
    (fun s => s.1.zoneId = G.hodoNrZones - 2 ∧ s.1.blockIndex ≤ k ∧ P s.1.blockIndex s.2.1 s.2.2)
    (fun s => blocksPerZone - s.1.blockIndex) (fun r : Block × Volume => P k r.1 r.2)
    (n := loopFuel) (s := ((⟨G.hodoNrZones - 2, 0⟩ : BlockPos), temp, v))
    ?_ ?_ ⟨rfl, by simp, start⟩ (by simp [loopFuel])
  · obtain ⟨⟨temp', v'⟩, heq, hpost⟩ := h
    exact ⟨temp', v', heq, hpost⟩
  · rintro ⟨⟨z, i⟩, temp, v⟩ s' ⟨hz, hi, hp⟩ hbody
    simp only at hz hi hp hbody
    subst hz
    split at hbody
    case isFalse => cases hbody
    case isTrue hlt =>
    rw [listFiles_info, hswap i temp v hp] at hlt
    obtain rfl := Sum.inl.inj hbody
    exact ⟨⟨rfl, hlt, turn i temp v hlt hp⟩, by simp only; omega⟩
  · rintro ⟨⟨z, i⟩, temp, v⟩ r ⟨hz, hi, hp⟩ hbody
    simp only at hz hi hp hbody
    split at hbody
    · cases hbody
    case isFalse hge =>
    rw [listFiles_info, hswap i temp v hp] at hge
    obtain rfl := Sum.inr.inj hbody
    rwa [show i = k by omega] at hp

/-- The state of a swap-out into zone `a` after `i` turns. -/
structure SwappingOut (v₀ : Volume) (a i : Nat) (v : Volume) : Prop where
  wp : v.info.wp = if i = blocksPerZone then ⟨a + 1, 0⟩ else ⟨a, i⟩
  filled : (v.dev a).length = i
  others : ∀ z, z ≠ a → v.dev z = v₀.dev z
  swapWp : v.info.swapWp = v₀.info.swapWp
  inOrder : ∀ e ∈ v.trace, InOrder e

theorem SwappingOut.wp_of_lt {v₀ v : Volume} {a i : Nat} (h : SwappingOut v₀ a i v)
    (hi : i < blocksPerZone) : v.info.wp = ⟨a, i⟩ := by
  rw [h.wp, if_neg (by omega)]

theorem swappingOut_turn {v₀ v : Volume} {a i : Nat} (ha : a ≤ 13) (hi : i < blocksPerZone)
    (h : SwappingOut v₀ a i v) (ptr : BlockPos) (temp : Block) :
    SwappingOut v₀ a (i + 1) (swapOutOne standardGeometry ptr temp v).2 := by
  have hwp := h.wp_of_lt hi
  have hlen : (v.dev v.info.wp.zoneId).length = v.info.wp.blockIndex := by
    rw [hwp]
    exact h.filled
  rw [swapOutOne_ok ptr temp (by rw [hwp]; simp only; omega) hlen (by rw [hwp]; exact hi)]
  constructor
  case inOrder =>
    exact inOrder_appended _ _ _ _ (by rw [hlen, hwp]; exact hi) h.inOrder
  all_goals simp only [setWp, appended, hwp]
  case wp => rw [nextWp_eq (by simp only; omega) hi]
  case filled => simp [h.filled]
  case others =>
    intro z hz
    rw [update_other _ _ hz]
    exact h.others z hz
  case swapWp => rw [recordWrite_swapWp, h.swapWp]

/-- The main loop: the swap zone is filled up to `swap_wp`, and the data zones from
the write pointer's on are empty past the zone the log had reached. -/
structure Collecting (prev : Nat) (v : Volume) : Prop where
  zone_pos : 1 ≤ v.info.wp.zoneId
  zone_le : v.info.wp.zoneId ≤ 14
  index_zero : v.info.wp.blockIndex = 0
  swap_zone : v.info.swapWp.zoneId = 14
  swap_lt : v.info.swapWp.blockIndex < blocksPerZone
  at_swap : (v.dev 14).length = v.info.swapWp.blockIndex
  data_zone : v.info.swapWp.blockIndex ≠ 0 → v.info.wp.zoneId ≤ 13
  ahead : ∀ z, v.info.wp.zoneId ≤ z → prev < z → z ≤ 13 → v.dev z = []
  inOrder : ∀ e ∈ v.trace, InOrder e

theorem collecting_start {v : Volume} (h : ClearAhead v) (hz : v.info.wp.zoneId ≤ 13) :
    Collecting v.info.wp.zoneId (startGC standardGeometry v) := by
  constructor
  case ahead =>
    intro z _ hz1 hz2
    exact h.ahead z hz1 (by omega)
  case inOrder => exact h.inOrder
  case at_swap =>
    have hempty := h.ahead 14 (by omega) (by omega)
    simp [startGC, setSwapWp, setWp, hempty]
  all_goals simp [startGC, setSwapWp, setWp]

@[simp] theorem recordMove_wp (m : MappingInfo) (n : Nat) : (recordMove m n).wp = m.wp := rfl

theorem collecting_swapIn {prev : Nat} {v : Volume} (h : Collecting prev v)
    (room : v.info.swapWp.blockIndex + 1 < blocksPerZone) (hz : v.info.wp.zoneId ≤ 13)
    (pos : BlockPos) (temp : Block) :
    Collecting prev (swapInOne standardGeometry pos temp v).2 ∧
    (swapInOne standardGeometry pos temp v).2.info.wp = v.info.wp ∧
    (swapInOne standardGeometry pos temp v).2.info.swapWp =
      ⟨14, v.info.swapWp.blockIndex + 1⟩ := by
  have hlen : (v.dev v.info.swapWp.zoneId).length = v.info.swapWp.blockIndex := by
    rw [h.swap_zone]
    exact h.at_swap
  rw [swapInOne_ok pos temp (by rw [h.swap_zone]) hlen room]
  refine ⟨?_, rfl, by simp only [setSwapWp, h.swap_zone]⟩
  constructor
  case inOrder => exact inOrder_appended _ _ _ _ (by omega) h.inOrder
  all_goals simp only [setSwapWp, appended, recordMove_wp, h.swap_zone]
  case zone_pos => exact h.zone_pos
  case zone_le => exact h.zone_le
  case index_zero => exact h.index_zero
  case swap_lt => exact room
  case at_swap => simp [h.at_swap]
  case data_zone => exact fun _ => hz
  case ahead =>
    intro z hz1 hz2 hz3
    rw [update_other _ _ (by omega)]
    exact h.ahead z hz1 hz2 hz3

/-- Resetting the write pointer's zone prepares a swap-out into it. -/
theorem swappingOut_start {prev : Nat} {v : Volume} (h : Collecting prev v)
    (hz : v.info.wp.zoneId ≤ 13) :
    SwappingOut (truncateZone standardGeometry v v.info.wp.zoneId) v.info.wp.zoneId 0
      (truncateZone standardGeometry v v.info.wp.zoneId) := by
  have hindex := h.index_zero
  constructor
  case inOrder => exact inOrder_truncateZone (by omega) h.inOrder
  all_goals simp only [truncateZone_ok v (show v.info.wp.zoneId ≤ 14 by omega)]
  case wp =>
    rw [if_neg (by simp)]
    cases hwp : v.info.wp
    simp_all
  case filled => simp
  case others => exact fun _ _ => trivial

theorem collecting_drainFull {prev : Nat} {v : Volume} (h : Collecting prev v)
    (hz : v.info.wp.zoneId ≤ 13) (temp : Block) :
    ∃ temp' v', drainFull standardGeometry temp v = some (temp', v') ∧ Collecting prev v' ∧
      v'.info.wp = ⟨v.info.wp.zoneId + 1, 0⟩ ∧ v'.info.swapWp = ⟨14, 0⟩ := by
  obtain ⟨temp', v₁, hloop, hout⟩ := swapOutFull_total standardGeometry
    (fun i _ => SwappingOut (truncateZone standardGeometry v v.info.wp.zoneId) v.info.wp.zoneId i)
    (fun i temp v hi hp => swappingOut_turn hz hi hp ⟨14, i⟩ temp)
    temp (swappingOut_start h hz)
  have hwp : v₁.info.wp = ⟨v.info.wp.zoneId + 1, 0⟩ := by rw [hout.wp, if_pos rfl]
  have hswap : v₁.info.swapWp = v.info.swapWp := by
    rw [hout.swapWp, truncateZone_ok v (by omega)]
  have hdev : ∀ z, z ≠ v.info.wp.zoneId → v₁.dev z = v.dev z := by
    intro z hz'
    rw [hout.others z hz', truncateZone_ok v (by omega)]
    exact update_other _ _ hz'
  simp only [drainFull_eq, hloop, Option.map_some]
  refine ⟨_, _, rfl, ?_⟩
  rw [truncateZone_ok v₁ (by rw [hswap, h.swap_zone])]
  refine ⟨?_, hwp, by simp only [setSwapWp, hswap, h.swap_zone]⟩
  constructor
  case inOrder =>
    intro e he
    rcases List.mem_cons.mp he with rfl | he
    · trivial
    · exact hout.inOrder e he
  all_goals simp only [setSwapWp, hwp, hswap, h.swap_zone]
  case zone_le => omega
  case swap_lt => simp
  case at_swap => simp
  case ahead =>
    intro z hz1 hz2 hz3
    rw [update_other _ _ (by omega), hdev z (by omega)]
    exact h.ahead z (by omega) hz2 hz3
  all_goals simp

theorem collectTurn_stop {G : Geometry} {temp : Block} {v : Volume}
    (h : (hodoGetNextGCValid v.info).zoneId = 0) :
    collectTurn G (temp, v) = .inr (some (temp, v)) := by
  rw [collectTurn_eq, if_pos h]

theorem collectTurn_swapIn {G : Geometry} {temp : Block} {v : Volume} {s : Block × Volume}
    (h : (hodoGetNextGCValid v.info).zoneId ≠ 0)
    (hs : swapInOne G (hodoGetNextGCValid v.info) temp v = s)
    (room : ¬ blocksPerZone - 1 ≤ s.2.info.swapWp.blockIndex) :
    collectTurn G (temp, v) = .inl s := by
  rw [collectTurn_eq, if_neg h, hs, drainIfFull_eq, if_neg room]

theorem collectTurn_drain {G : Geometry} {temp : Block} {v : Volume} {s s' : Block × Volume}
    (h : (hodoGetNextGCValid v.info).zoneId ≠ 0)
    (hs : swapInOne G (hodoGetNextGCValid v.info) temp v = s)
    (full : blocksPerZone - 1 ≤ s.2.info.swapWp.blockIndex)
    (hdrain : drainFull G s.1 s.2 = some s') :
    collectTurn G (temp, v) = .inl s' := by
  rw [collectTurn_eq, if_neg h, hs, drainIfFull_eq, if_pos full, hdrain]

/-- The rule for the main loop on any device: a turn that finds a block goes on, keeps
the invariant and makes the variant smaller. -/
theorem collect_rule (G : Geometry) (Inv : Volume → Prop) (variant : Volume → Nat)
    (turn : ∀ temp v, Inv v → (hodoGetNextGCValid v.info).zoneId ≠ 0 →
      ∃ s, collectTurn G (temp, v) = .inl s ∧ Inv s.2 ∧ variant s.2 < variant v)
    {v : Volume} (inv : Inv v) (enough : variant v < loopFuel) (temp : Block) :
    ∃ temp' v', collect G temp v = some (temp', v') ∧ Inv v' ∧
      (hodoGetNextGCValid v'.info).zoneId = 0 := by
  have hloop := loop_total (collectTurn G) (fun s => Inv s.2) (fun s => variant s.2)
    (fun r => ∃ temp' v', r = some (temp', v') ∧ Inv v' ∧ (hodoGetNextGCValid v'.info).zoneId = 0)
    (n := loopFuel) (s := (temp, v)) ?_ ?_ inv enough
  · obtain ⟨r, heq, temp', v', rfl, hpost⟩ := hloop
    exact ⟨temp', v', by rw [collect_eq, heq]; rfl, hpost⟩
  · rintro ⟨temp, v⟩ s' inv hturn
    by_cases hzero : (hodoGetNextGCValid v.info).zoneId = 0
    · rw [collectTurn_stop hzero] at hturn
      cases hturn
    · obtain ⟨s, hgo, kept⟩ := turn temp v inv hzero
      rw [hgo] at hturn
      obtain rfl := Sum.inl.inj hturn
      exact kept
  · rintro ⟨temp, v⟩ r inv hturn
    by_cases hzero : (hodoGetNextGCValid v.info).zoneId = 0
    · rw [collectTurn_stop hzero] at hturn
      obtain rfl := Sum.inr.inj hturn
      exact ⟨temp, v, rfl, inv, hzero⟩
    · obtain ⟨s, hgo, _⟩ := turn temp v inv hzero
      rw [hgo] at hturn
      cases hturn

/-- Everything a turn of the main loop can do. -/
theorem collectTurn_cases {prev : Nat} {v : Volume} (h : Collecting prev v)
    (room : v.info.swapWp.blockIndex + 1 < blocksPerZone) (temp : Block) {s : Block × Volume}
    (hs : swapInOne standardGeometry (hodoGetNextGCValid v.info) temp v = s) :
    ((hodoGetNextGCValid v.info).zoneId = 0 ∧
      collectTurn standardGeometry (temp, v) = .inr (some (temp, v))) ∨
    ((hodoGetNextGCValid v.info).zoneId ≠ 0 ∧ v.info.wp.zoneId ≤ 13 ∧ Collecting prev s.2 ∧
      s.2.info.wp = v.info.wp ∧ s.2.info.swapWp = ⟨14, v.info.swapWp.blockIndex + 1⟩ ∧
      ((v.info.swapWp.blockIndex + 2 < blocksPerZone ∧
        collectTurn standardGeometry (temp, v) = .inl s) ∨
      (v.info.swapWp.blockIndex + 2 = blocksPerZone ∧
        ∃ temp' v', drainFull standardGeometry s.1 s.2 = some (temp', v') ∧
          collectTurn standardGeometry (temp, v) = .inl (temp', v') ∧ Collecting prev v' ∧
          v'.info.wp = ⟨v.info.wp.zoneId + 1, 0⟩ ∧ v'.info.swapWp = ⟨14, 0⟩))) := by
  by_cases hzero : (hodoGetNextGCValid v.info).zoneId = 0
  · exact Or.inl ⟨hzero, collectTurn_stop hzero⟩
  have hz : v.info.wp.zoneId ≤ 13 := by
    rcases getNextGCValid_cases v.info with ⟨hnone, _⟩ | ⟨hlo, hhi, _⟩
    · exact absurd hnone hzero
    · omega
  obtain ⟨hin, hwp, hswap⟩ := collecting_swapIn h room hz (hodoGetNextGCValid v.info) temp
  rw [hs] at hin hwp hswap
  have hindex : s.2.info.swapWp.blockIndex = v.info.swapWp.blockIndex + 1 := by rw [hswap]
  refine Or.inr ⟨hzero, hz, hin, hwp, hswap, ?_⟩
  by_cases hfull : v.info.swapWp.blockIndex + 2 = blocksPerZone
  · obtain ⟨temp', v', hdrain, hc, hwp', hswap'⟩ :=
      collecting_drainFull hin (by rw [hwp]; exact hz) s.1
    rw [hwp] at hwp'
    exact Or.inr ⟨hfull, temp', v', hdrain,
      collectTurn_drain hzero hs (by omega) hdrain, hc, hwp', hswap'⟩
  · exact Or.inl ⟨by omega, collectTurn_swapIn hzero hs (by omega)⟩

/-- Turns left at most: blocks that still fit into the zones from `wp` to the swap zone. -/
def collectVariant (v : Volume) : Nat :=
  (14 - v.info.wp.zoneId) * (blocksPerZone - 1) - v.info.swapWp.blockIndex

theorem collectVariant_lt_fuel {v : Volume} (h : 1 ≤ v.info.wp.zoneId) :
    collectVariant v < loopFuel := by
  simp only [collectVariant, loopFuel, blocksPerZone_eq, numberZones_eq]
  omega

/-- The rule for the main loop: what holds at its start and is kept by a turn
holds, with an exhausted scan, at its end. -/
theorem collect_total {prev : Nat} (Inv : Volume → Prop)
    (swapIn : ∀ temp v, Inv v → Collecting prev v → v.info.swapWp.blockIndex + 2 < blocksPerZone →
      (hodoGetNextGCValid v.info).zoneId ≠ 0 → v.info.wp.zoneId ≤ 13 →
      Inv (swapInOne standardGeometry (hodoGetNextGCValid v.info) temp v).2)
    (drain : ∀ temp v temp' v', Inv v → Collecting prev v →
      v.info.swapWp.blockIndex + 2 = blocksPerZone →
      (hodoGetNextGCValid v.info).zoneId ≠ 0 → v.info.wp.zoneId ≤ 13 →
      drainFull standardGeometry
        (swapInOne standardGeometry (hodoGetNextGCValid v.info) temp v).1
        (swapInOne standardGeometry (hodoGetNextGCValid v.info) temp v).2 = some (temp', v') →
      Inv v')
    {v : Volume} (inv : Inv v) (h : Collecting prev v)
    (room : v.info.swapWp.blockIndex + 1 < blocksPerZone) (temp : Block) :
    ∃ temp' v', collect standardGeometry temp v = some (temp', v') ∧ Inv v' ∧
      Collecting prev v' ∧ v'.info.swapWp.blockIndex + 1 < blocksPerZone ∧
      (hodoGetNextGCValid v'.info).zoneId = 0 := by
  have hloop := collect_rule standardGeometry
    (fun v => Inv v ∧ Collecting prev v ∧ v.info.swapWp.blockIndex + 1 < blocksPerZone)
    collectVariant ?_ ⟨inv, h, room⟩ (collectVariant_lt_fuel h.zone_pos) temp
  · obtain ⟨temp', v', hcollect, ⟨inv', h', room'⟩, exhausted⟩ := hloop
    exact ⟨temp', v', hcollect, inv', h', room', exhausted⟩
  · rintro temp v ⟨inv, h, room⟩ hfound
    have hzone := h.zone_pos
    rcases collectTurn_cases h room temp rfl with ⟨hzero, _⟩ |
      ⟨_, hz, hc, hwp, hswap, ⟨hroom, hgo⟩ | ⟨hfull, temp', v', hdrain, hgo, hc', hwp', hswap'⟩⟩
    · exact absurd hzero hfound
    · refine ⟨_, hgo, ⟨swapIn temp v inv h hroom hfound hz, hc, by rw [hswap]; exact hroom⟩, ?_⟩
      simp only [blocksPerZone_eq] at hroom
      simp only [collectVariant, hwp, hswap, blocksPerZone_eq]
      omega
    · refine ⟨_, hgo, ⟨drain temp v temp' v' inv h hfull hfound hz hdrain, hc', by
        simp only [hswap', blocksPerZone_eq]; omega⟩, ?_⟩
      simp only [blocksPerZone_eq] at hfull
      simp only [collectVariant, hwp', hswap', blocksPerZone_eq]
      omega

end WritePointers
