import HodoZns.Rewrites

/-!
# What the collector is started on

The bits are those of the mapped numbers, whose blocks lie before the write pointer
and name them. What is counted are the live blocks of the data zones that the scan
has not come to.
-/

namespace CollectorStates

open ByteBlock BitmapWords Layout BlockLog ZoneLog NumberAllocator Collector LogCalls WritePointers
open SequentialWrites Consistency Relocation BlockPacking Termination Geometries Rewrites

/-- The end of the swap zone. -/
def swapLen (G : Geometry) (v : Volume) : Nat := (v.dev (swapZone G)).length

def IsMapped (m : MappingInfo) (n : Nat) : Prop := ∃ p, Mapped m n p

/-- No two numbers share a position, as each block names its number. -/
structure CollectorState (G : Geometry) (v : Volume) : Prop where
  starting : v.info.startingLogicalNumber = G.hodoNrZones
  wp_zone : 1 ≤ v.info.wp.zoneId ∧ v.info.wp.zoneId ≤ G.hodoNrZones - 3
  swap_empty : v.dev (G.hodoNrZones - 2) = []
  live_iff : ∀ p : BlockPos, p.zoneId < numberZones → p.blockIndex < blocksPerZone →
    (live v.info p.zoneId p.blockIndex = true ↔ ∃ n, Mapped v.info n p)
  before : ∀ n p, Mapped v.info n p → Before p v.info.wp ∧ p.blockIndex < zoneBlocks G
  names : ∀ n p, Mapped v.info n p → ∃ b, blockAt v.dev p = some b ∧ ownNumber b = n
  sparse : ∀ r, 1 ≤ r → r ≤ G.hodoNrZones - 3 →
    liveCount v.info r ≤ r * (zoneBlocks G - 1)

/-- Every mapped number reads the same. -/
def ReadsSame (G : Geometry) (v v' : Volume) : Prop :=
  ∀ n p, Mapped v.info n p → ∀ buf, hodoReadStruct G ioOk v' n (some buf) hodoDatablockSize =
    hodoReadStruct G ioOk v n (some buf) hodoDatablockSize

/-- The collector ends, and every mapped number reads the same as before. -/
def KeepsReads (G : Geometry) (kmem : Block) (v : Volume) : Prop :=
  ∃ v', GC G kmem v = some v' ∧ ReadsSame G v v'

/-- An index in a zone is one in the bitmap. -/
theorem index_lt_row {G : Geometry} (fits : FitsTables G) {i : Nat} (hi : i < zoneBlocks G) :
    i < blocksPerZone := by
  have hle := fits.blocks_le
  rw [blocksPerZone_eq]
  omega

section

variable {G : Geometry} {v₀ v : Volume} {n n' : Nat} {p : BlockPos} {b : Block}

theorem IsMapped.mapped (h : IsMapped v₀.info n) : Mapped v₀.info n (tableEntry v₀.info n) := by
  obtain ⟨p, hm⟩ := h
  rw [hm.2.1]
  exact hm

theorem IsMapped.inTable (h : IsMapped v₀.info n) (starting : v.info.startingLogicalNumber =
    v₀.info.startingLogicalNumber) : InTable v.info n := by
  obtain ⟨p, hin, _⟩ := h
  simpa only [InTable, tableIndex, starting] using hin

theorem CollectorState.content (state : CollectorState G v₀) (hn : IsMapped v₀.info n) :
    ∃ b, stored v₀ n = some b ∧ ownNumber b = n := by
  rw [stored_of_mapped hn.mapped]
  exact state.names _ _ hn.mapped

theorem CollectorState.stored_inj (state : CollectorState G v₀) (hn : IsMapped v₀.info n)
    (hn' : IsMapped v₀.info n') (h : stored v₀ n = stored v₀ n') : n = n' := by
  obtain ⟨b, hb, hown⟩ := state.content hn
  obtain ⟨b', hb', hown'⟩ := state.content hn'
  obtain rfl := Option.some.inj (hb.symm.trans (h.trans hb'))
  exact hown.symm.trans hown'

theorem CollectorState.own (state : CollectorState G v₀) (hn : IsMapped v₀.info n)
    (hb : stored v₀ n = some b) : ownNumber b = n := by
  obtain ⟨b', hb', hown⟩ := state.content hn
  obtain rfl := Option.some.inj (hb.symm.trans hb')
  exact hown

/-- `hodo_write_struct` takes 0 for a request of a new number. -/
theorem CollectorState.ne_zero (state : CollectorState G v₀) (fits : FitsTables G)
    (hn : IsMapped v₀.info n) : n ≠ 0 := by
  rintro rfl
  obtain ⟨p, ⟨_, hidx⟩, _⟩ := hn
  have hge := fits.zones_ge
  have hle := fits.zones_le
  simp only [tableIndex, state.starting, numberMappingTableEntry_eq] at hidx
  rw [numberZones_eq] at hle
  omega

/-- Mapped positions are those of data zones. -/
theorem CollectorState.zone (state : CollectorState G v₀) (fits : FitsTables G)
    (hn : IsMapped v₀.info n) :
    1 ≤ (tableEntry v₀.info n).zoneId ∧ (tableEntry v₀.info n).zoneId < swapZone G ∧
      (tableEntry v₀.info n).blockIndex < zoneBlocks G := by
  obtain ⟨hbefore, hidx⟩ := state.before _ _ hn.mapped
  have hpos := hn.mapped.2.2
  have hwp := state.wp_zone.2
  have hge := fits.zones_ge
  simp only [Before] at hbefore
  rw [swapZone]
  omega

theorem CollectorState.live_entry (state : CollectorState G v₀) (fits : FitsTables G)
    (hn : IsMapped v₀.info n) :
    live v₀.info (tableEntry v₀.info n).zoneId (tableEntry v₀.info n).blockIndex = true := by
  obtain ⟨_, hzone, hidx⟩ := state.zone fits hn
  have hswap := fits.swap
  have hle := fits.blocks_le
  exact (state.live_iff _ (by rw [numberZones_eq]; omega)
    (by rw [blocksPerZone_eq]; omega)).mpr ⟨n, hn.mapped⟩

theorem reads_of_block (fits : FitsTables G) (state : CollectorState G v₀)
    (hn : IsMapped v₀.info n)
    (starting : v.info.startingLogicalNumber = v₀.info.startingLogicalNumber)
    (hz : (tableEntry v.info n).zoneId ≤ swapZone G)
    (hi : (tableEntry v.info n).blockIndex < zoneBlocks G)
    (hb : blockAt v.dev (tableEntry v.info n) = stored v₀ n) (buf : Block) :
    hodoReadStruct G ioOk v n (some buf) hodoDatablockSize =
      hodoReadStruct G ioOk v₀ n (some buf) hodoDatablockSize := by
  obtain ⟨_, hzone, hidx⟩ := state.zone fits hn
  rw [hodoReadStruct_eq, hodoReadStruct_eq, if_pos (hn.inTable starting), if_pos hn.mapped.1,
    readAt_blockAt fits hz hi, readAt_blockAt fits (Nat.le_of_lt hzone) hidx, hb,
    stored_of_mapped hn.mapped]

/-- A number whose block is gone does not read the same. -/
theorem not_reads_of_gone (fits : FitsTables G) (state : CollectorState G v₀)
    (hn : IsMapped v₀.info n) (hz : (tableEntry v.info n).zoneId ≤ swapZone G)
    (hi : (tableEntry v.info n).blockIndex < zoneBlocks G)
    (hb : blockAt v.dev (tableEntry v.info n) = none) : ¬ ReadsSame G v₀ v := by
  obtain ⟨_, hzone, hidx⟩ := state.zone fits hn
  obtain ⟨b, hb₀, _⟩ := state.names _ _ hn.mapped
  intro same
  have heq := same n _ hn.mapped zeros
  rw [hodoReadStruct_eq, hodoReadStruct_eq, if_pos hn.mapped.1, readAt_blockAt fits hz hi,
    readAt_blockAt fits (Nat.le_of_lt hzone) hidx, hb, hb₀] at heq
  split at heq
  · have hret : (0 : Int) = 4096 := congrArg Prod.fst (Option.some.inj heq)
    exact absurd hret (by decide)
  · cases heq

end

/-- Number of live blocks in the zones `a..q`. -/
def liveBetween (m : MappingInfo) (a q : Nat) : Nat :=
  ((Finset.Icc a q ×ˢ Finset.range blocksPerZone).filter fun p => live m p.1 p.2 = true).card

section

variable {m m' : MappingInfo} {a a' q : Nat} {p : BlockPos}

theorem mem_between {x : Nat × Nat} :
    x ∈ (Finset.Icc a q ×ˢ Finset.range blocksPerZone).filter (fun p => live m p.1 p.2 = true) ↔
      (a ≤ x.1 ∧ x.1 ≤ q) ∧ x.2 < blocksPerZone ∧ live m x.1 x.2 = true := by
  simp only [Finset.mem_filter, Finset.mem_product, Finset.mem_Icc, Finset.mem_range, and_assoc]

theorem liveBetween_le (h : ∀ z i, a ≤ z → z ≤ q → i < blocksPerZone → live m z i = true →
    a' ≤ z ∧ live m' z i = true) : liveBetween m a q ≤ liveBetween m' a' q := by
  apply Finset.card_le_card
  intro x hx
  obtain ⟨⟨ha, hq⟩, hi, hlive⟩ := mem_between.mp hx
  obtain ⟨ha', hlive'⟩ := h x.1 x.2 ha hq hi hlive
  exact mem_between.mpr ⟨⟨ha', hq⟩, hi, hlive'⟩

theorem exists_live_of_pos (h : liveBetween m a q ≠ 0) :
    ∃ x : BlockPos, a ≤ x.zoneId ∧ x.zoneId ≤ q ∧ x.blockIndex < blocksPerZone ∧
      live m x.zoneId x.blockIndex = true := by
  obtain ⟨x, hx⟩ := Finset.card_pos.mp (Nat.pos_of_ne_zero h)
  obtain ⟨⟨ha, hq⟩, hi, hlive⟩ := mem_between.mp hx
  exact ⟨⟨x.1, x.2⟩, ha, hq, hi, hlive⟩

theorem liveBetween_pos (ha : a ≤ p.zoneId) (hq : p.zoneId ≤ q) (hi : p.blockIndex < blocksPerZone)
    (hlive : live m p.zoneId p.blockIndex = true) : 0 < liveBetween m a q :=
  Finset.card_pos.mpr ⟨(p.zoneId, p.blockIndex), mem_between.mpr ⟨⟨ha, hq⟩, hi, hlive⟩⟩

/-- In these zones one bit was cleared and none set. -/
theorem liveBetween_cleared (ha : a ≤ p.zoneId) (hq : p.zoneId ≤ q)
    (hi : p.blockIndex < blocksPerZone) (hlive : live m p.zoneId p.blockIndex = true)
    (h : ∀ x : BlockPos, a ≤ x.zoneId → x.zoneId ≤ q →
      (live m' x.zoneId x.blockIndex = true ↔ x ≠ p ∧ live m x.zoneId x.blockIndex = true)) :
    liveBetween m' a q + 1 = liveBetween m a q := by
  have hmem : (p.zoneId, p.blockIndex) ∈ (Finset.Icc a q ×ˢ Finset.range blocksPerZone).filter
      (fun p => live m p.1 p.2 = true) := mem_between.mpr ⟨⟨ha, hq⟩, hi, hlive⟩
  have herase : (Finset.Icc a q ×ˢ Finset.range blocksPerZone).filter
      (fun p => live m' p.1 p.2 = true) = ((Finset.Icc a q ×ˢ Finset.range blocksPerZone).filter
        (fun p => live m p.1 p.2 = true)).erase (p.zoneId, p.blockIndex) := by
    ext ⟨z, i⟩
    rw [Finset.mem_erase, mem_between, mem_between]
    have hne : (⟨z, i⟩ : BlockPos) ≠ p ↔ (z, i) ≠ (p.zoneId, p.blockIndex) := by
      obtain ⟨z', i'⟩ := p
      simp only [ne_eq, BlockPos.mk.injEq, Prod.mk.injEq]
    constructor
    · rintro ⟨⟨hz, hz'⟩, hlt, hl⟩
      obtain ⟨hx, hl'⟩ := (h ⟨z, i⟩ hz hz').mp hl
      exact ⟨hne.mp hx, ⟨hz, hz'⟩, hlt, hl'⟩
    · rintro ⟨hx, ⟨hz, hz'⟩, hlt, hl⟩
      exact ⟨⟨hz, hz'⟩, hlt, (h ⟨z, i⟩ hz hz').mpr ⟨hne.mpr hx, hl⟩⟩
  rw [liveBetween, herase, Finset.card_erase_add_one hmem, liveBetween]

end

/-- What is known of the block that the scan has found. -/
structure Found (m : MappingInfo) (p : BlockPos) : Prop where
  zone_ge : m.wp.zoneId ≤ p.zoneId
  zone_le : p.zoneId ≤ 13
  index_lt : p.blockIndex < blocksPerZone
  live : live m p.zoneId p.blockIndex = true
  first : ∀ x : BlockPos, m.wp.zoneId ≤ x.zoneId → x.blockIndex < blocksPerZone →
    Collector.live m x.zoneId x.blockIndex = true → p = x ∨ Before p x

theorem found_of_ne_zero {m : MappingInfo} (h : (hodoGetNextGCValid m).zoneId ≠ 0) :
    Found m (hodoGetNextGCValid m) := by
  rcases getNextGCValid_cases m with ⟨hzero, _⟩ | ⟨hge, hle, hi, hlive, hfirst⟩
  · exact absurd hzero h
  · refine ⟨hge, hle, hi, hlive, fun x hx hxi hlx => ?_⟩
    rcases before_or_eq_or (hodoGetNextGCValid m) x with hb | heq | hb
    · exact Or.inr hb
    · exact Or.inl heq
    · rw [hfirst x hx hxi hb] at hlx
      cases hlx

theorem dead_of_zero {m : MappingInfo} (hwp : 1 ≤ m.wp.zoneId)
    (h : (hodoGetNextGCValid m).zoneId = 0) {x : BlockPos} (hx : m.wp.zoneId ≤ x.zoneId)
    (hle : x.zoneId ≤ 13) (hi : x.blockIndex < blocksPerZone) :
    live m x.zoneId x.blockIndex = false := by
  rcases getNextGCValid_cases m with ⟨_, hdead⟩ | ⟨hge, _⟩
  · exact hdead _ _ hx hle hi
  · omega

end CollectorStates
