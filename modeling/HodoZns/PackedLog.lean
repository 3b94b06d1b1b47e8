import HodoZns.ResetSafety

/-!
# The log after a collection

A batch is one block shorter than a zone, and its last block is written twice. So
full zones hold their blocks from the start on, except for the last one, which
lies at the end of the zone; the last zone of the log holds a short batch.
-/

namespace PackedLog

open ByteBlock BitmapWords Layout BlockLog ZoneLog NumberAllocator Collector CallRuns LogCalls
  WritePointers
open SequentialWrites Consistency Relocation BlockPacking GCOutcome LogStore ResetSafety

/-- Where block `k` of `N` lies after a collection. -/
def collectedPos (N k : Nat) : BlockPos :=
  ⟨1 + k / (blocksPerZone - 1),
    if k / (blocksPerZone - 1) < N / (blocksPerZone - 1) ∧
      k % (blocksPerZone - 1) = blocksPerZone - 2 then blocksPerZone - 1
    else k % (blocksPerZone - 1)⟩

theorem finalPos_eq {a m N k : Nat} (ha : 1 ≤ a) (hm : m < blocksPerZone - 1)
    (hN : N = (a - 1) * (blocksPerZone - 1) + m) (hk : k < N) :
    finalPos a k = collectedPos N k := by
  simp only [blocksPerZone_eq] at hm hN
  simp only [finalPos, batchPos, collectedPos, blocksPerZone_eq]
  split
  case isTrue hfull =>
    have hlt : k / 65535 < N / 65535 := by omega
    simp only [hlt, true_and]
  case isFalse hlast =>
    have hquot : k / 65535 = N / 65535 := by omega
    have hzone : 1 + k / 65535 = a := by omega
    have hindex : k - (a - 1) * 65535 = k % 65535 := by omega
    rw [if_neg fun h => absurd h.1 (by omega), hzone, hindex]

/-- The mapped numbers in the order of the positions of their blocks. -/
structure LiveOrder (m : MappingInfo) (ns : List Nat) : Prop where
  mapped : ∀ n, n ∈ ns ↔ ∃ p, Mapped m n p
  sorted : ns.Pairwise fun n n' => Before (tableEntry m n) (tableEntry m n')

/-- What the collector is started on: bitmap, table and blocks agree, nothing is
written behind the zone the log has reached, and no zones are crowded. -/
structure CollectorInput (info : MappingInfo) (dev : Nat → List Block) : Prop where
  starting : info.startingLogicalNumber = 16
  wp_zone : WpInData ⟨info, dev, []⟩
  empty : ∀ z, info.wp.zoneId < z → z ≤ 14 → dev z = []
  inZones : ∀ n p, Mapped info n p → p.zoneId ≤ 13 ∧ p.blockIndex < blocksPerZone
  live_iff : ∀ p : BlockPos, p.zoneId ≠ 0 → p.zoneId ≤ 14 → p.blockIndex < blocksPerZone →
    (live info p.zoneId p.blockIndex = true ↔ ∃ n, Mapped info n p)
  inj : ∀ n n' p, Mapped info n p → Mapped info n' p → n = n'
  names : ∀ n p, Mapped info n p → ∃ b, blockAt dev p = some b ∧ ownNumber b = n
  sparse : Sparse info

/-- The collected log of the numbers `ns`. -/
structure CollectorOutput (info : MappingInfo) (dev : Nat → List Block) (ns : List Nat)
    (v : Volume) : Prop where
  placed : ∀ k (h : k < ns.length), tableEntry v.info ns[k] = collectedPos ns.length k
  stored : ∀ n, InTable info n → Consistency.stored v n = Consistency.stored ⟨info, dev, []⟩ n
  live_iff : ∀ z i, z ≠ 0 → z ≤ 14 → i < blocksPerZone →
    (live v.info z i = true ↔ ∃ k, k < ns.length ∧ collectedPos ns.length k = ⟨z, i⟩)
  outside : ∀ z i, z = 0 ∨ 15 ≤ z → live v.info z i = true → live info z i = true
  wp : v.info.wp = ⟨1 + ns.length / (blocksPerZone - 1), ns.length % (blocksPerZone - 1)⟩
  empty : ∀ z, z ≤ 14 → (∀ k, k < ns.length → (collectedPos ns.length k).zoneId < z) → 1 ≤ z →
    v.dev z = []
  swap_empty : v.dev 14 = []
  swap_dead : ∀ i, i < blocksPerZone → live v.info 14 i = false
  bitmap : v.info.logicalEntryBitmap = info.logicalEntryBitmap

theorem CollectorInput.collectable {info : MappingInfo} {dev : Nat → List Block}
    (h : CollectorInput info dev) : Collectable ⟨info, dev, []⟩ where
  clear := ⟨h.empty, fun _ he => nomatch he⟩
  consistent := {
    starting := h.starting
    inZones := fun hm => ⟨by have := (h.inZones _ _ hm).1; omega, (h.inZones _ _ hm).2⟩
    live_iff := fun hz hle hi => h.live_iff _ hz hle hi
    inj := h.inj _ _ _
    content := h.names _ _ }
  wp_le := h.wp_zone.2

section

variable {v₀ v : Volume} {ns : List Nat}

theorem packed_order (h : Packed v₀ ns v) : LiveOrder v₀.info ns :=
  ⟨fun n => ⟨fun hn => ⟨_, h.wasMapped n hn⟩, fun ⟨p, hm⟩ => h.complete n p hm⟩, h.sorted⟩

theorem packed_wp_eq (h : Packed v₀ ns v) (hpos : 1 ≤ v.info.wp.zoneId) :
    v.info.wp = ⟨1 + ns.length / (blocksPerZone - 1), ns.length % (blocksPerZone - 1)⟩ := by
  have hlen := h.length
  have hlt := h.index_lt
  simp only [blocksPerZone_eq] at hlen hlt ⊢
  obtain ⟨a, m, hwp⟩ : ∃ a m, v.info.wp = ⟨a, m⟩ := ⟨_, _, rfl⟩
  simp only [hwp, BlockPos.mk.injEq] at hlen hlt hpos ⊢
  omega

theorem packed_placed_eq (h : Packed v₀ ns v) (hpos : 1 ≤ v.info.wp.zoneId) {k : Nat}
    (hk : k < ns.length) : tableEntry v.info ns[k] = collectedPos ns.length k :=
  (h.placed k hk).trans (finalPos_eq hpos h.index_lt h.length hk)

theorem packed_mapped_iff (h : Packed v₀ ns v) (hpos : 1 ≤ v.info.wp.zoneId) {p : BlockPos} :
    (∃ n, Mapped v.info n p) ↔ ∃ k, k < ns.length ∧ collectedPos ns.length k = p := by
  constructor
  · rintro ⟨n, hm⟩
    have hin := h.same.inTable.mp hm.1
    have hmem : n ∈ ns := by
      by_contra hnot
      have hold := (h.rest n hin hnot).symm.trans hm.2.1
      exact hnot (h.complete n p ⟨hin, hold, hm.2.2⟩)
    obtain ⟨k, hk, rfl⟩ := List.getElem_of_mem hmem
    exact ⟨k, hk, (packed_placed_eq h hpos hk).symm.trans hm.2.1⟩
  · rintro ⟨k, hk, rfl⟩
    have hin := h.same.inTable.mpr (h.wasMapped _ (List.getElem_mem hk)).1
    refine ⟨ns[k], hin, packed_placed_eq h hpos hk, ?_⟩
    simp [collectedPos]

/-- A zone behind the last block is empty on the device. -/
theorem packed_empty_behind (h : Packed v₀ ns v) (aligned : Aligned v) {z : Nat} (hz : z ≤ 14)
    (behind : ∀ k, k < ns.length → (collectedPos ns.length k).zoneId < z) (hpos : 1 ≤ z) :
    v.dev z = [] := by
  have hwp := packed_wp_eq h aligned.zone_pos
  rcases Nat.lt_trichotomy z v.info.wp.zoneId with hlt | heq | hgt
  · -- every zone before the write pointer's holds a full batch
    have hfull := behind ((z - 1) * (blocksPerZone - 1)) (by
      rw [hwp] at hlt
      simp only [blocksPerZone_eq] at hlt ⊢
      omega)
    simp only [collectedPos, blocksPerZone_eq] at hfull
    omega
  · have hlen := aligned.at_wp
    rw [← heq] at hlen
    have hzero : v.info.wp.blockIndex = 0 := by
      by_contra hne
      rw [hwp] at hne heq
      simp only [blocksPerZone_eq] at hne heq
      have hlast := behind (ns.length - 1) (by omega)
      simp only [collectedPos, blocksPerZone_eq] at hlast
      omega
    rw [hzero] at hlen
    exact List.length_eq_zero_iff.mp hlen
  · exact aligned.ahead z hgt hz

end

/-- For every state with uncrowded zones the collected log is the one of the closed form. -/
theorem GC_collects {info : MappingInfo} {dev : Nat → List Block} (h : CollectorInput info dev)
    (kmem : Block) :
    ∃ v ns, GC standardGeometry kmem ⟨info, dev, []⟩ = some v ∧ LiveOrder info ns ∧
      CollectorOutput info dev ns v := by
  obtain ⟨v, hgc, aligned, ⟨_, ns, packed⟩ | ⟨crowded, _⟩⟩ := GC_outcome h.collectable kmem
  swap
  · exact absurd h.sparse crowded
  have hpos := aligned.zone_pos
  have hlive : ∀ z i, z ≠ 0 → z ≤ 14 → i < blocksPerZone →
      (live v.info z i = true ↔ ∃ k, k < ns.length ∧ collectedPos ns.length k = ⟨z, i⟩) :=
    fun z i hz hle hi => (packed.same.consistent.live_iff (p := ⟨z, i⟩) hz hle hi).trans
      (packed_mapped_iff packed hpos)
  have hcount : ns.length ≤ 13 * (blocksPerZone - 1) :=
    Nat.le_trans (oldPositions_live h.collectable ns 13 (fun n hn =>
      ⟨packed.wasMapped n hn, (h.inZones _ _ (packed.wasMapped n hn)).1⟩)
      (packed.sorted.imp fun {n n'} hb (he : n = n') => before_irrefl _ (he ▸ hb)))
      (h.sparse 13 (by decide) (Nat.le_refl _))
  have hzone : ∀ k, k < ns.length → (collectedPos ns.length k).zoneId < 14 := by
    intro k hk
    simp only [collectedPos, blocksPerZone_eq] at hcount ⊢
    omega
  refine ⟨v, ns, hgc, packed_order packed, fun k hk => packed_placed_eq packed hpos hk,
    packed.same.stored_eq, hlive, packed.same.outside, packed_wp_eq packed hpos,
    fun z hz behind hz1 => packed_empty_behind packed aligned hz behind hz1,
    packed_empty_behind packed aligned (Nat.le_refl _) hzone (by decide), fun i hi => ?_,
    packed.same.bitmap⟩
  rw [Bool.eq_false_iff, ne_eq, hlive 14 i (by decide) (Nat.le_refl _) hi]
  rintro ⟨k, hk, hpos⟩
  exact absurd (hzone k hk) (by rw [hpos]; exact Nat.lt_irrefl _)

/-- What a run leaves behind may be collected. -/
theorem collectorInput_of_represents {v : Volume} {s : Store} (h : Represents v s)
    (hz : WpInData v) (sparse : Sparse v.info) : CollectorInput v.info v.dev where
  starting := h.consistent.starting
  wp_zone := hz
  empty := h.aligned.ahead
  inZones n p hm := by
    have hle := Collectable.zone_le ⟨h.aligned.clearAhead, h.consistent, hz.2⟩ hm
    exact ⟨Nat.le_trans hle hz.2, (h.consistent.inZones hm).2⟩
  live_iff _ hz hle hi := h.consistent.live_iff hz hle hi
  inj _ _ _ := h.consistent.inj
  names _ _ := h.consistent.content
  sparse := sparse

/-- Two of the blocks are written again, so that dead ones lie between the live ones. -/
def scatteredRun : List LogCall :=
  [.write (some emptyData) 4096 0, .write (some emptyData) 4096 0, .write (some emptyData) 4096 17,
    .write (some emptyData) 4096 0, .write (some emptyData) 4096 18]

/-- What the run leaves behind. -/
structure Scattered (v : Volume) : Prop where
  wp : WpInData v
  represents : ∃ s, Represents v s ∧ s.count = 4
  dead : live v.info 1 1 = false ∧ live v.info 1 2 = false
  moved : tableEntry v.info 18 = ⟨1, 5⟩

theorem scatteredRun_answers : ∃ r,
    run storeStep scatteredRun (mountedStore zeros 0 0) = some r ∧ r.2.count = 4 := by
  decide +kernel

theorem scatteredRun_room : EachCall (callStep standardGeometry) RoomFor scatteredRun
    (firstMount standardGeometry zeros 0 0) := by
  have inData : EachCall (callStep standardGeometry) (fun v _ => WpInData v) scatteredRun
      (firstMount standardGeometry zeros 0 0) := by
    decide +kernel
  have writes : ∀ c ∈ scatteredRun, ∃ buf len n, c = .write buf len n := by
    simp [scatteredRun]
  refine (inData.and_mem writes).mono fun v c hc => ?_
  obtain ⟨data, _, _, _, rfl⟩ := hc
  exact data

theorem scatteredRun_scattered : ∃ as v,
    run (callStep standardGeometry) scatteredRun (firstMount standardGeometry zeros 0 0) =
      some (as, v) ∧ Scattered v := by
  obtain ⟨⟨as, s⟩, answers, hcount⟩ := scatteredRun_answers
  obtain ⟨v, hrun, represents⟩ := run_simulates RoomFor Represents
    (fun v s c a s' h room hstep => call_simulates h room hstep)
    (represents_firstMount zeros 0 0) scatteredRun_room answers
  have left : ∃ r, run (callStep standardGeometry) scatteredRun
      (firstMount standardGeometry zeros 0 0) = some r ∧ WpInData r.2 ∧
      (live r.2.info 1 1 = false ∧ live r.2.info 1 2 = false) ∧
      tableEntry r.2.info 18 = ⟨1, 5⟩ := by
    decide +kernel
  obtain ⟨_, hrun', wp, dead, moved⟩ := left
  obtain rfl := Option.some.inj (hrun'.symm.trans hrun)
  exact ⟨as, v, hrun, wp, ⟨s, represents, hcount⟩, dead, moved⟩

theorem Scattered.input {v : Volume} (h : Scattered v) : CollectorInput v.info v.dev := by
  obtain ⟨s, represents, hcount⟩ := h.represents
  refine collectorInput_of_represents represents h.wp (sparse_of_count represents h.wp ?_)
  rw [hcount, blocksPerZone_eq]
  decide

theorem GC_collects_scattered : ∃ v v' ns, Scattered v ∧
    GC standardGeometry zeros ⟨v.info, v.dev, []⟩ = some v' ∧ LiveOrder v.info ns ∧
    CollectorOutput v.info v.dev ns v' := by
  obtain ⟨_, v, _, scattered⟩ := scatteredRun_scattered
  obtain ⟨v', ns, hgc, order, output⟩ := GC_collects scattered.input zeros
  exact ⟨v, v', ns, scattered, hgc, order, output⟩

end PackedLog
