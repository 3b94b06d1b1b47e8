import HodoZns.CollectorStates

/-!
# The collector on a device with whole zones

When a zone takes `BLOCKS_PER_ZONE` blocks the collector serves every mapped number
at each of its steps. Where the scan reaches the swap zone, which it does with less
than `NUMBER_ZONES` zones, blocks there are taken up a second time.
-/

namespace WholeZones

open ByteBlock BitmapWords Layout BlockLog ZoneLog NumberAllocator FuelLoop Collector LogCalls
  WritePointers
open SequentialWrites Consistency Relocation BlockPacking Termination Geometries Rewrites
open CollectorStates

/-- Every mapped number is entered at a block of its own; the live bits are those of the
entries. -/
structure Served (G : Geometry) (v₀ v : Volume) : Prop where
  starting : v.info.startingLogicalNumber = v₀.info.startingLogicalNumber
  zone_pos : ∀ n, IsMapped v₀.info n → 1 ≤ (tableEntry v.info n).zoneId
  zone_le : ∀ n, IsMapped v₀.info n → (tableEntry v.info n).zoneId ≤ swapZone G
  index_lt : ∀ n, IsMapped v₀.info n → (tableEntry v.info n).blockIndex < zoneBlocks G
  block : ∀ n, IsMapped v₀.info n → blockAt v.dev (tableEntry v.info n) = stored v₀ n
  live_iff : ∀ x : BlockPos, 1 ≤ x.zoneId → x.zoneId ≤ 13 → x.blockIndex < blocksPerZone →
    (live v.info x.zoneId x.blockIndex = true ↔ ∃ n, IsMapped v₀.info n ∧ tableEntry v.info n = x)

section Served

variable {G : Geometry} {v₀ v v' : Volume} {n n' z : Nat} {q : BlockPos} {b : Block}

theorem served_start (fits : FitsTables G) (state : CollectorState G v₀) :
    Served G v₀ (startGC G v₀) := by
  have hswap := fits.swap
  constructor
  · rfl
  · exact fun n hn => (state.zone fits hn).1
  · exact fun n hn => Nat.le_of_lt (state.zone fits hn).2.1
  · exact fun n hn => (state.zone fits hn).2.2
  · exact fun n hn => (stored_of_mapped hn.mapped).symm
  · intro x hx hx' hi
    refine (state.live_iff x (by rw [numberZones_eq]; omega) hi).trans ⟨?_, ?_⟩
    · rintro ⟨n, hm⟩
      exact ⟨n, ⟨x, hm⟩, hm.2.1⟩
    · rintro ⟨n, hn, hentry⟩
      have hm := hn.mapped
      change tableEntry v₀.info n = x at hentry
      rw [hentry] at hm
      exact ⟨n, hm⟩

theorem Served.entry_inj (h : Served G v₀ v) (state : CollectorState G v₀) (hn : IsMapped v₀.info n)
    (hn' : IsMapped v₀.info n') (he : tableEntry v.info n = tableEntry v.info n') : n = n' :=
  state.stored_inj hn hn' ((h.block n hn).symm.trans ((congrArg _ he).trans (h.block n' hn')))

/-- An entry is before the end of its zone. -/
theorem Served.entry_lt (h : Served G v₀ v) (state : CollectorState G v₀)
    (hn : IsMapped v₀.info n) :
    (tableEntry v.info n).blockIndex < (v.dev (tableEntry v.info n).zoneId).length := by
  obtain ⟨c, hc, _⟩ := state.content hn
  exact (List.getElem?_eq_some_iff.mp ((h.block n hn).trans hc)).1

/-- A number gets a new entry, with its block, at the end of a zone. -/
theorem served_rewrite (state : CollectorState G v₀) (h : Served G v₀ v) (hn : IsMapped v₀.info n)
    (hb : stored v₀ n = some b) (hrew : Rewritten v v' n q b)
    (hend : (v.dev q.zoneId).length = q.blockIndex) (hpos : 1 ≤ q.zoneId)
    (hz : q.zoneId ≤ swapZone G) (hi : q.blockIndex < zoneBlocks G) : Served G v₀ v' := by
  have hentry : ∀ n', IsMapped v₀.info n' →
      tableEntry v'.info n' = if n' = n then q else tableEntry v.info n' := fun n' hn' =>
    hrew.entered.entry (hn.inTable h.starting) (hn'.inTable h.starting)
  -- there was no block at the end of the zone
  have hnew : ∀ n', IsMapped v₀.info n' → tableEntry v.info n' ≠ q := by
    intro n' hn' he
    have hlt := h.entry_lt state hn'
    rw [he] at hlt
    omega
  constructor
  · exact hrew.entered.starting.trans h.starting
  · intro n' hn'
    rw [hentry n' hn']
    split
    · exact hpos
    · exact h.zone_pos n' hn'
  · intro n' hn'
    rw [hentry n' hn']
    split
    · exact hz
    · exact h.zone_le n' hn'
  · intro n' hn'
    rw [hentry n' hn']
    split
    · exact hi
    · exact h.index_lt n' hn'
  · intro n' hn'
    rw [hentry n' hn']
    by_cases hne : n' = n
    · rw [if_pos hne, hne, hb]
      exact hrew.blockAt_end hend
    · obtain ⟨c, hc, _⟩ := state.content hn'
      have hblock := h.block n' hn'
      rw [hc] at hblock ⊢
      rw [if_neg hne]
      exact hrew.blockAt_of_some hblock
  · intro x hx hx' hxi
    rw [hrew.entered.live_iff]
    constructor
    · rintro ⟨hne, rfl | hold⟩
      · exact ⟨n, hn, by rw [hentry n hn, if_pos rfl]⟩
      · obtain ⟨n', hn', he⟩ := (h.live_iff x hx hx' hxi).mp hold
        refine ⟨n', hn', ?_⟩
        rw [hentry n' hn', if_neg, he]
        rintro rfl
        exact hne he.symm
    · rintro ⟨n', hn', he⟩
      rw [hentry n' hn'] at he
      split at he
      · subst he
        exact ⟨Ne.symm (hnew n hn), Or.inl rfl⟩
      case isFalse hne =>
        refine ⟨?_, Or.inr ((h.live_iff x hx hx' hxi).mpr ⟨n', hn', he⟩)⟩
        rintro rfl
        exact hne (h.entry_inj state hn' hn he)

/-- The device changes only where nothing is entered. -/
theorem served_of_dev (h : Served G v₀ v) (hinfo : v'.info = v.info)
    (hdev : ∀ n, IsMapped v₀.info n → v'.dev (tableEntry v.info n).zoneId =
      v.dev (tableEntry v.info n).zoneId) : Served G v₀ v' := by
  constructor
  · rw [hinfo]
    exact h.starting
  · rw [hinfo]
    exact h.zone_pos
  · rw [hinfo]
    exact h.zone_le
  · rw [hinfo]
    exact h.index_lt
  · intro n hn
    rw [hinfo, blockAt, hdev n hn]
    exact h.block n hn
  · rw [hinfo]
    exact h.live_iff

theorem served_truncate (h : Served G v₀ v)
    (unused : ∀ n, IsMapped v₀.info n → (tableEntry v.info n).zoneId ≠ z) :
    Served G v₀ (truncateZone G v z) :=
  served_of_dev h (truncateZone_info G v z) fun n hn => truncateZone_dev G v (unused n hn)

/-- Where no bit is set nothing is entered. -/
theorem Served.unused (h : Served G v₀ v) (fits : FitsTables G) (hz : z ≤ 13)
    (hdead : ∀ i, i < blocksPerZone → live v.info z i = false) :
    ∀ n, IsMapped v₀.info n → (tableEntry v.info n).zoneId ≠ z := by
  rintro n hn rfl
  have hi := index_lt_row fits (h.index_lt n hn)
  have hlive := (h.live_iff _ (h.zone_pos n hn) hz hi).mpr ⟨n, hn, rfl⟩
  rw [hdead _ hi] at hlive
  cases hlive

end Served

/-- After `i` turns of a swap-out into zone `r`. The last turn of a full one is past the
end of the swap zone and takes the block in the buffer again. -/
structure Emptying (G : Geometry) (v₀ v₁ : Volume) (r i : Nat) (temp : Block) (v : Volume) :
    Prop where
  served : Served G v₀ v
  wp : v.info.wp = if i = blocksPerZone then ⟨r + 1, 0⟩ else ⟨r, i⟩
  swapWp : v.info.swapWp = v₁.info.swapWp
  filled : (v.dev r).length = i
  others : ∀ z, z ≠ r → v.dev z = v₁.dev z
  left : ∀ n, IsMapped v₀.info n → (tableEntry v.info n).zoneId = swapZone G →
    i ≤ (tableEntry v.info n).blockIndex
  moved : ∀ n, IsMapped v₀.info n →
    tableEntry v.info n = tableEntry v₁.info n ∨ (tableEntry v.info n).zoneId = r
  held : i ≠ 0 → ∃ n, IsMapped v₀.info n ∧ stored v₀ n = some temp

/-- What a swap-out starts from: zone `r` is not in use, and there are blocks to move. -/
structure Emptiable (G : Geometry) (v₀ v : Volume) (r : Nat) : Prop where
  served : Served G v₀ v
  zone_pos : 1 ≤ r
  zone_lt : r < swapZone G
  wp : v.info.wp = ⟨r, 0⟩
  empty : v.dev r = []
  blocks : ∀ b ∈ v.dev (swapZone G), ∃ n, IsMapped v₀.info n ∧ stored v₀ n = some b
  some_block : swapLen G v ≠ 0

section Emptying

variable {G : Geometry} {v₀ v₁ v : Volume} {r i : Nat} {temp : Block}

theorem emptying_start (h : Emptiable G v₀ v₁ r) : Emptying G v₀ v₁ r 0 temp v₁ := by
  constructor
  · exact h.served
  · rw [h.wp, if_neg (by rw [blocksPerZone_eq]; omega)]
  · rfl
  · rw [h.empty]
    rfl
  · exact fun _ _ => rfl
  · exact fun _ _ _ => Nat.zero_le _
  · exact fun _ _ => Or.inl rfl
  · exact fun hne => absurd rfl hne

/-- The block a turn reads, with the number it belongs to. -/
theorem Emptying.reads (h : Emptying G v₀ v₁ r i temp v) (fits : FitsTables G)
    (whole : zoneBlocks G = blocksPerZone) (start : Emptiable G v₀ v₁ r) (hi : i < blocksPerZone)
    (hlen : i ≤ swapLen G v₁) : ∃ n b, IsMapped v₀.info n ∧ stored v₀ n = some b ∧
      gcRead G v ⟨swapZone G, i⟩ temp = b ∧
        ∀ c, blockAt v.dev ⟨swapZone G, i⟩ = some c → c = b := by
  have hsource := h.others (swapZone G) (Nat.ne_of_gt start.zone_lt)
  cases hb : blockAt v.dev ⟨swapZone G, i⟩ with
  | some b =>
    obtain ⟨n, hn, hstored⟩ := start.blocks b (by rw [← hsource]; exact List.mem_of_getElem? hb)
    exact ⟨n, b, hn, hstored, gcRead_block fits (Nat.le_refl _) (whole ▸ hi) hb,
      fun c hc => (Option.some.inj hc).symm⟩
  | none =>
    have hpast := List.getElem?_eq_none_iff.mp hb
    rw [hsource] at hpast
    change swapLen G v₁ ≤ i at hpast
    have hne := start.some_block
    obtain ⟨n, hn, hstored⟩ := h.held (by omega)
    exact ⟨n, temp, hn, hstored, gcRead_past fits (Nat.le_refl _) (whole ▸ hi) hb,
      fun c hc => absurd hc (Option.some_ne_none c).symm⟩

theorem emptying_turn (fits : FitsTables G) (whole : zoneBlocks G = blocksPerZone)
    (state : CollectorState G v₀) (start : Emptiable G v₀ v₁ r) (hi : i < blocksPerZone)
    (hlen : i ≤ swapLen G v₁) (h : Emptying G v₀ v₁ r i temp v) :
    Emptying G v₀ v₁ r (i + 1) (swapOutOne G ⟨swapZone G, i⟩ temp v).1
      (swapOutOne G ⟨swapZone G, i⟩ temp v).2 := by
  have hlt := start.zone_lt
  obtain ⟨n, b, hn, hstored, hread, hslot⟩ := h.reads fits whole start hi hlen
  have hown := state.own hn hstored
  have hwp := h.wp
  rw [if_neg (Nat.ne_of_lt hi)] at hwp
  obtain ⟨htemp, hrew, hwp', hswapWp⟩ := swapOutOne_rewrites fits hread
    (by rw [hown]; exact state.ne_zero fits hn) (by rw [hwp]; exact Nat.le_of_lt hlt)
    (by rw [hwp, whole]; exact hi)
  rw [hown, hwp] at hrew
  have hentry : ∀ n', IsMapped v₀.info n' →
      tableEntry (swapOutOne G ⟨swapZone G, i⟩ temp v).2.info n' =
        if n' = n then ⟨r, i⟩ else tableEntry v.info n' := fun n' hn' =>
    hrew.entered.entry (hn.inTable h.served.starting) (hn'.inTable h.served.starting)
  constructor
  · exact served_rewrite state h.served hn hstored hrew h.filled start.zone_pos (Nat.le_of_lt hlt)
      (whole ▸ hi)
  · rw [hwp', hwp, nextWp_of_fits fits (Nat.le_of_lt hlt) (whole ▸ hi), whole]
  · exact hswapWp.trans h.swapWp
  · have hgrown := hrew.grown h.filled
    simp only at hgrown
    rw [hgrown, List.length_append, h.filled]
    rfl
  · intro z hz
    rw [hrew.other hz]
    exact h.others z hz
  · intro n' hn' hzone
    rw [hentry n' hn'] at hzone ⊢
    split at hzone
    · exact absurd hzone (Nat.ne_of_lt hlt)
    case isFalse hne =>
      rw [if_neg hne]
      have hle := h.left n' hn' hzone
      refine Nat.lt_of_le_of_ne hle fun he => hne ?_
      -- the block at `i` is that of `n`
      obtain ⟨c, hc, _⟩ := state.content hn'
      have hblock := (h.served.block n' hn').trans hc
      rw [show tableEntry v.info n' = ⟨swapZone G, i⟩ by rw [← hzone, he]] at hblock
      rw [hslot c hblock] at hc
      exact state.stored_inj hn' hn (hc.trans hstored.symm)
  · intro n' hn'
    rw [hentry n' hn']
    split
    · exact Or.inr rfl
    · exact h.moved n' hn'
  · exact fun _ => ⟨n, hn, by rw [htemp]; exact hstored⟩

/-- When all blocks have been moved nothing is entered in the swap zone. -/
theorem Emptying.unused (h : Emptying G v₀ v₁ r i temp v) (state : CollectorState G v₀)
    (hlt : r < swapZone G) (hi : swapLen G v₁ ≤ i) :
    ∀ n, IsMapped v₀.info n → (tableEntry v.info n).zoneId ≠ swapZone G := by
  intro n hn hz
  have hidx := h.served.entry_lt state hn
  rw [hz, h.others _ (Nat.ne_of_gt hlt)] at hidx
  have hle := h.left n hn hz
  change _ < swapLen G v₁ at hidx
  omega

end Emptying

/-- Blocks that went to the zones before the write pointer's or to the swap zone. -/
def packed (G : Geometry) (v : Volume) : Nat :=
  (v.info.wp.zoneId - 1) * (zoneBlocks G - 1) + swapLen G v

/-- In front of a turn of the main loop. What was packed and what is still to be packed
from the zones up to `q` is no more than what was live there. -/
structure Compacting (G : Geometry) (v₀ v : Volume) : Prop where
  served : Served G v₀ v
  zone_pos : 1 ≤ v.info.wp.zoneId
  zone_le : v.info.wp.zoneId ≤ swapZone G
  index : v.info.wp.blockIndex = 0
  swapWp : v.info.swapWp = ⟨swapZone G, swapLen G v⟩
  len_lt : swapLen G v < zoneBlocks G
  room : swapLen G v ≠ 0 → v.info.wp.zoneId < swapZone G
  blocks : ∀ b ∈ v.dev (swapZone G), ∃ n, IsMapped v₀.info n ∧ stored v₀ n = some b
  few : ∀ q, v.info.wp.zoneId ≤ q → q < swapZone G →
    liveBetween v.info v.info.wp.zoneId q = 0 ∨
      liveBetween v.info v.info.wp.zoneId q + packed G v ≤ liveCount v₀.info q

section Compacting

variable {G : Geometry} {v₀ v : Volume} {n q : Nat} {p : BlockPos} {temp : Block}

/-- With nothing in the swap zone, in front of the next zone. -/
theorem compacting_of_empty {r : Nat} (fits : FitsTables G) (served : Served G v₀ v)
    (hr : r < swapZone G) (wp : v.info.wp = ⟨r + 1, 0⟩) (swapWp : v.info.swapWp = ⟨swapZone G, 0⟩)
    (empty : v.dev (swapZone G) = [])
    (few : ∀ q, r + 1 ≤ q → q < swapZone G → liveBetween v.info (r + 1) q = 0 ∨
      liveBetween v.info (r + 1) q + r * (zoneBlocks G - 1) ≤ liveCount v₀.info q) :
    Compacting G v₀ v := by
  have hlen : swapLen G v = 0 := by
    rw [swapLen, empty]
    rfl
  constructor
  · exact served
  · rw [wp]
    exact Nat.le_add_left 1 r
  · rw [wp]
    exact hr
  · rw [wp]
  · rw [swapWp, hlen]
  · rw [hlen]
    exact fits.blocks_pos
  · exact fun hne => absurd hlen hne
  · intro b hb
    rw [empty] at hb
    cases hb
  · intro q hq hqs
    rw [packed, hlen]
    rw [wp] at hq ⊢
    exact few q hq hqs

theorem compacting_start (fits : FitsTables G) (state : CollectorState G v₀) :
    Compacting G v₀ (startGC G v₀) := by
  have hswap := fits.swap
  refine compacting_of_empty (r := 0) fits (served_start fits state) (by omega) rfl rfl
    state.swap_empty fun q _ _ => Or.inr ?_
  rw [Nat.zero_mul]
  exact Nat.le_refl _

/-- Where the scan finds a block the write pointer is in a data zone. -/
theorem Compacting.zone_lt (h : Compacting G v₀ v) (state : CollectorState G v₀)
    (hn : IsMapped v₀.info n) (hentry : tableEntry v.info n = p)
    (hle : v.info.wp.zoneId ≤ p.zoneId) :
    v.info.wp.zoneId < swapZone G := by
  have hz := h.served.zone_le n hn
  have hidx := h.served.entry_lt state hn
  rw [hentry] at hz hidx
  rcases Nat.lt_or_eq_of_le hz with hlt | heq
  · omega
  · rw [heq] at hidx
    change _ < swapLen G v at hidx
    exact h.room (by omega)

theorem compacting_swapIn (fits : FitsTables G) (state : CollectorState G v₀)
    (h : Compacting G v₀ v) (hroom : swapLen G v + 1 < zoneBlocks G) (found : Found v.info p)
    (temp : Block) :
    Compacting G v₀ (swapInOne G p temp v).2 ∧
      v.info.wp.zoneId < swapZone G ∧ (swapInOne G p temp v).2.info.wp = v.info.wp ∧
        swapLen G (swapInOne G p temp v).2 = swapLen G v + 1 := by
  have hswap := fits.swap
  have hpos := h.zone_pos
  obtain ⟨n, hn, hentry⟩ := (h.served.live_iff p (by have := found.zone_ge; omega) found.zone_le
    found.index_lt).mp found.live
  have hlt := h.zone_lt state hn hentry found.zone_ge
  obtain ⟨b, hb, hown⟩ := state.content hn
  have hread : gcRead G v p temp = b := by
    refine gcRead_block fits (hentry ▸ h.served.zone_le n hn) (hentry ▸ h.served.index_lt n hn) ?_
    rw [← hentry]
    exact (h.served.block n hn).trans hb
  obtain ⟨hrew, hwp, hswapWp⟩ := swapInOne_rewrites fits hread (by rw [h.swapWp])
    (by rw [h.swapWp]; exact h.len_lt)
  rw [hown, h.swapWp] at hrew
  have hgrown := hrew.grown rfl
  simp only at hgrown
  have hlen : swapLen G (swapInOne G p temp v).2 = swapLen G v + 1 := by
    rw [swapLen, hgrown, List.length_append]
    rfl
  -- the bits of the data zones
  have hbits : ∀ x : BlockPos, x.zoneId < swapZone G →
      (live (swapInOne G p temp v).2.info x.zoneId x.blockIndex = true ↔
        x ≠ p ∧ live v.info x.zoneId x.blockIndex = true) := by
    intro x hx
    have hne : x ≠ ⟨swapZone G, swapLen G v⟩ := by
      rintro rfl
      exact Nat.lt_irrefl _ hx
    rw [hrew.entered.live_iff, hentry, or_iff_right hne]
  refine ⟨?_, hlt, hwp, hlen⟩
  constructor
  · exact served_rewrite state h.served hn hb hrew rfl (show 1 ≤ swapZone G by omega)
      (Nat.le_refl _) h.len_lt
  · rw [hwp]
    exact hpos
  · rw [hwp]
    exact h.zone_le
  · rw [hwp]
    exact h.index
  · rw [hswapWp, nextSwapWp_of_fits fits (by rw [h.swapWp]; exact h.len_lt), h.swapWp,
      if_neg (Nat.ne_of_lt hroom), hlen]
  · omega
  · intro _
    rw [hwp]
    exact hlt
  · intro c hc
    rw [hgrown] at hc
    rcases List.mem_append.mp hc with hold | hnew
    · exact h.blocks c hold
    · rw [List.mem_singleton.mp hnew]
      exact ⟨n, hn, hb⟩
  · intro q hq hqs
    rw [hwp] at hq ⊢
    rw [packed, hwp, hlen]
    by_cases hpq : p.zoneId ≤ q
    · have hone := liveBetween_cleared found.zone_ge hpq found.index_lt found.live
        fun x _ hx => hbits x (by omega)
      have hfew := h.few q hq hqs
      rw [packed] at hfew
      omega
    · -- all that is live comes after these zones
      left
      by_contra hsome
      obtain ⟨x, hx, hx', hi, hlive⟩ := exists_live_of_pos hsome
      have hafter := found.first x hx hi ((hbits x (by omega)).mp hlive).2
      rcases hafter with rfl | hafter
      · exact hpq hx'
      · simp only [Before] at hafter
        omega

/-- When the swap zone is full there is nothing left in the zone of the write pointer. -/
theorem Compacting.dead (h : Compacting G v₀ v) (state : CollectorState G v₀)
    (hlt : v.info.wp.zoneId < swapZone G) (full : swapLen G v + 1 = zoneBlocks G) :
    ∀ i, i < blocksPerZone → live v.info v.info.wp.zoneId i = false := by
  have hpos := h.zone_pos
  have hsparse := state.sparse v.info.wp.zoneId hpos (by rw [swapZone] at hlt; omega)
  have hzero : liveBetween v.info v.info.wp.zoneId v.info.wp.zoneId = 0 := by
    rcases h.few _ (Nat.le_refl _) hlt with hzero | hfew
    · exact hzero
    · obtain ⟨r, hr⟩ : ∃ r, v.info.wp.zoneId = r + 1 := ⟨v.info.wp.zoneId - 1, by omega⟩
      rw [packed, hr, Nat.add_sub_cancel] at hfew
      rw [hr, Nat.succ_mul] at hsparse
      rw [hr]
      omega
  intro i hi
  by_contra hlive
  have hone := liveBetween_pos (p := ⟨v.info.wp.zoneId, i⟩) (q := v.info.wp.zoneId)
    (Nat.le_refl v.info.wp.zoneId) (Nat.le_refl _) hi (Bool.eq_true_of_not_eq_false hlive)
  omega

/-- The zone of the write pointer is not in use and is reset. -/
theorem Compacting.emptiable (h : Compacting G v₀ v) (fits : FitsTables G)
    (hne : swapLen G v ≠ 0)
    (hdead : ∀ i, i < blocksPerZone → live v.info v.info.wp.zoneId i = false) :
    Emptiable G v₀ (truncateZone G v v.info.wp.zoneId) v.info.wp.zoneId := by
  have hswap := fits.swap
  have hlt := h.room hne
  have hsource := truncateZone_dev G v (Nat.ne_of_gt hlt)
  constructor
  · exact served_truncate h.served (h.served.unused fits (by omega) hdead)
  · exact h.zone_pos
  · exact hlt
  · rw [truncateZone_info, ← h.index]
  · exact truncateZone_empty fits v h.zone_le
  · rw [hsource]
    exact h.blocks
  · rw [swapLen, hsource]
    exact hne

/-- The bits behind the filled zone are those of before. -/
theorem Emptying.liveBetween_le {v₁ : Volume} {r i : Nat} (h : Emptying G v₀ v₁ r i temp v)
    (served : Served G v₀ v₁) (fits : FitsTables G) (hq : q < swapZone G) :
    liveBetween v.info (r + 1) q ≤ liveBetween v₁.info r q := by
  have hswap := fits.swap
  refine CollectorStates.liveBetween_le fun z j hz hzq hj hlive => ⟨Nat.le_of_succ_le hz, ?_⟩
  obtain ⟨n, hn, he⟩ := (h.served.live_iff ⟨z, j⟩ (by simp only; omega) (by simp only; omega) hj).mp
    hlive
  refine (served.live_iff ⟨z, j⟩ (by simp only; omega) (by simp only; omega) hj).mpr ⟨n, hn, ?_⟩
  rcases h.moved n hn with hsame | hzone
  · rw [← hsame, he]
  · rw [he] at hzone
    simp only at hzone
    omega

theorem compacting_drain (fits : FitsTables G) (whole : zoneBlocks G = blocksPerZone)
    (state : CollectorState G v₀) (h : Compacting G v₀ v) (full : swapLen G v + 1 = zoneBlocks G)
    (temp : Block) :
    ∃ temp' v', drainFull G temp v = some (temp', v') ∧ Compacting G v₀ v' ∧
      v'.info.wp.zoneId = v.info.wp.zoneId + 1 ∧ swapLen G v' = 0 := by
  have hswap := fits.swap
  have hbpz := blocksPerZone_eq
  have hpos := h.zone_pos
  have hne : swapLen G v ≠ 0 := by omega
  have hlt := h.room hne
  have hdead := h.dead state hlt full
  have start := h.emptiable fits hne hdead
  have hlen : swapLen G (truncateZone G v v.info.wp.zoneId) = swapLen G v := by
    rw [swapLen, truncateZone_dev G v (Nat.ne_of_gt hlt)]
    rfl
  obtain ⟨temp', v₂, hloop, h₂⟩ := swapOutFull_total G
    (Emptying G v₀ (truncateZone G v v.info.wp.zoneId) v.info.wp.zoneId)
    (fun i temp w hi h => emptying_turn fits whole state start hi (by omega) h) temp
    (emptying_start start)
  have hunused := h₂.unused state hlt (by omega)
  have hzone : v₂.info.swapWp.zoneId = swapZone G := by
    rw [h₂.swapWp, truncateZone_info, h.swapWp]
  have hwp : v₂.info.wp = ⟨v.info.wp.zoneId + 1, 0⟩ := by rw [h₂.wp, if_pos rfl]
  have hserved := served_truncate h₂.served hunused
  have hempty := truncateZone_empty fits v₂ (Nat.le_refl (swapZone G))
  have hwp' : (truncateZone G v₂ (swapZone G)).info.wp = ⟨v.info.wp.zoneId + 1, 0⟩ := by
    rw [truncateZone_info, hwp]
  refine ⟨temp', setSwapWp (truncateZone G v₂ (swapZone G)) ⟨swapZone G, 0⟩, ?_, ?_, ?_, ?_⟩
  · simp only [drainFull_eq, hloop, Option.map_some, hzone, truncateZone_info]
  · refine compacting_of_empty fits ⟨hserved.starting, hserved.zone_pos, hserved.zone_le,
      hserved.index_lt, hserved.block, hserved.live_iff⟩ hlt hwp' rfl hempty fun q hq hqs => ?_
    change liveBetween (truncateZone G v₂ (swapZone G)).info _ q = 0 ∨
      liveBetween (truncateZone G v₂ (swapZone G)).info _ q + _ ≤ _
    rw [truncateZone_info]
    have hle := h₂.liveBetween_le start.served fits hqs
    rw [truncateZone_info] at hle
    have hpacked : v.info.wp.zoneId * (zoneBlocks G - 1) = packed G v := by
      obtain ⟨r, hr⟩ : ∃ r, v.info.wp.zoneId = r + 1 := ⟨v.info.wp.zoneId - 1, by omega⟩
      rw [packed, hr, Nat.add_sub_cancel, Nat.succ_mul]
      omega
    rw [hpacked]
    rcases h.few q (by omega) hqs with hzero | hfew
    · exact Or.inl (by omega)
    · exact Or.inr (by omega)
  · exact congrArg BlockPos.zoneId hwp'
  · exact congrArg List.length hempty

/-- Blocks that can still be packed. -/
def roomLeft (G : Geometry) (v : Volume) : Nat :=
  (swapZone G - v.info.wp.zoneId) * (zoneBlocks G - 1) - swapLen G v

/-- A turn that finds a block packs it, and drains the swap zone when it is full. -/
theorem collectTurn_whole (fits : FitsTables G) (whole : zoneBlocks G = blocksPerZone)
    (state : CollectorState G v₀) (h : Compacting G v₀ v) (hroom : swapLen G v + 1 < zoneBlocks G)
    (hne : (hodoGetNextGCValid v.info).zoneId ≠ 0) (temp : Block) :
    ∃ s, collectTurn G (temp, v) = .inl s ∧ Compacting G v₀ s.2 ∧
      swapLen G s.2 + 1 < zoneBlocks G ∧ roomLeft G s.2 < roomLeft G v := by
  have hbpz := blocksPerZone_eq
  have found := found_of_ne_zero hne
  obtain ⟨h', hlt, hwp, hlen⟩ := compacting_swapIn fits state h hroom found temp
  obtain ⟨d, hd⟩ : ∃ d, swapZone G - v.info.wp.zoneId = d + 1 :=
    ⟨swapZone G - v.info.wp.zoneId - 1, by omega⟩
  have hmul : (d + 1) * (zoneBlocks G - 1) = d * (zoneBlocks G - 1) + (zoneBlocks G - 1) :=
    Nat.succ_mul _ _
  by_cases hfull : swapLen G v + 2 = zoneBlocks G
  · obtain ⟨temp', v', hdrain, h₂, hwp', hzero⟩ := compacting_drain fits whole state h'
      (by omega) (swapInOne G (hodoGetNextGCValid v.info) temp v).1
    refine ⟨(temp', v'), collectTurn_drain hne rfl ?_ hdrain, h₂, ?_, ?_⟩
    · rw [h'.swapWp]
      simp only
      omega
    · simp only
      omega
    · simp only [roomLeft]
      rw [hwp', hwp, hzero, hd, hmul, show swapZone G - (v.info.wp.zoneId + 1) = d by omega]
      omega
  · refine ⟨_, collectTurn_swapIn hne rfl ?_, h', by omega, ?_⟩
    · rw [h'.swapWp]
      simp only
      omega
    · rw [roomLeft, roomLeft, hwp, hlen, hd, hmul]
      omega

theorem collect_whole (fits : FitsTables G) (whole : zoneBlocks G = blocksPerZone)
    (state : CollectorState G v₀) (temp : Block) :
    ∃ temp' v', collect G temp (startGC G v₀) = some (temp', v') ∧ Compacting G v₀ v' ∧
      (hodoGetNextGCValid v'.info).zoneId = 0 := by
  have hswap := fits.swap
  have hbpz := blocksPerZone_eq
  have hempty : (startGC G v₀).dev (swapZone G) = [] := state.swap_empty
  have hloop := collect_rule G
    (fun v => Compacting G v₀ v ∧ swapLen G v + 1 < zoneBlocks G) (roomLeft G) ?_
    ⟨compacting_start fits state, ?_⟩ ?_ temp
  · obtain ⟨temp', v', hcollect, ⟨h, _⟩, exhausted⟩ := hloop
    exact ⟨temp', v', hcollect, h, exhausted⟩
  · rintro temp v ⟨h, hroom⟩ hfound
    obtain ⟨s, hgo, h', hroom', hless⟩ := collectTurn_whole fits whole state h hroom hfound temp
    exact ⟨s, hgo, ⟨h', hroom'⟩, hless⟩
  · rw [swapLen, hempty, List.length_nil]
    omega
  · have hle : swapZone G - (startGC G v₀).info.wp.zoneId ≤ 13 := by
      change swapZone G - 1 ≤ 13
      omega
    have hmul := Nat.mul_le_mul_right (zoneBlocks G - 1) hle
    simp only [roomLeft, loopFuel, numberZones_eq]
    omega

/-- Nothing is entered in the zones from the write pointer's to the last data zone. -/
theorem Compacting.unused (h : Compacting G v₀ v) (fits : FitsTables G)
    (exhausted : (hodoGetNextGCValid v.info).zoneId = 0) (hq : v.info.wp.zoneId ≤ q)
    (hqs : q < swapZone G) : ∀ n, IsMapped v₀.info n → (tableEntry v.info n).zoneId ≠ q := by
  have hswap := fits.swap
  refine h.served.unused fits (by omega) fun i hi => ?_
  exact dead_of_zero (x := ⟨q, i⟩) h.zone_pos exhausted hq (by simp only; omega) hi

/-- What is left in the swap zone goes to the zone of the write pointer. -/
theorem drainRest_whole (fits : FitsTables G) (whole : zoneBlocks G = blocksPerZone)
    (state : CollectorState G v₀) (h : Compacting G v₀ v)
    (exhausted : (hodoGetNextGCValid v.info).zoneId = 0) (temp : Block) :
    ∃ temp' v', drainRest G temp v = some (temp', v') ∧ Served G v₀ v' ∧
      ∀ n, IsMapped v₀.info n → (tableEntry v'.info n).zoneId < firstBehind v'.info.wp := by
  have hswap := fits.swap
  have hidx : v.info.swapWp.blockIndex = swapLen G v := by rw [h.swapWp]
  by_cases hne : swapLen G v = 0
  · refine ⟨temp, v, by rw [drainRest_eq, if_neg (by rw [hidx]; exact not_not_intro hne)], h.served,
      fun n hn => ?_⟩
    rw [firstBehind, if_pos h.index]
    have hle := h.served.zone_le n hn
    rcases Nat.lt_or_eq_of_le hle with hlt | heq
    · by_contra hge
      exact h.unused fits exhausted (by omega) hlt n hn rfl
    · have hentry := h.served.entry_lt state hn
      rw [heq] at hentry
      change _ < swapLen G v at hentry
      omega
  · have hlt := h.room hne
    have hunused := fun q hq hqs => h.unused (q := q) fits exhausted hq hqs
    have start := h.emptiable fits hne fun i hi =>
      dead_of_zero (x := ⟨v.info.wp.zoneId, i⟩) h.zone_pos exhausted (Nat.le_refl _)
        (by simp only; omega) hi
    have hlen : swapLen G (truncateZone G v v.info.wp.zoneId) = swapLen G v := by
      rw [swapLen, truncateZone_dev G v (Nat.ne_of_gt hlt)]
      rfl
    have hlt' := h.len_lt
    obtain ⟨temp', v₂, hloop, h₂⟩ := swapOutRest_total G
      (Emptying G v₀ (truncateZone G v v.info.wp.zoneId) v.info.wp.zoneId)
      (k := swapLen G v) (by omega)
      (fun i temp w h₂ => by rw [h₂.swapWp, truncateZone_info, hidx])
      (fun i temp w hi h₂ => emptying_turn fits whole state start (by omega) (by omega) h₂) temp
      (emptying_start start)
    have hout := h₂.unused state hlt (by omega)
    have hzone : v₂.info.swapWp.zoneId = swapZone G := by
      rw [h₂.swapWp, truncateZone_info, h.swapWp]
    refine ⟨temp', truncateZone G v₂ (swapZone G), ?_, served_truncate h₂.served hout, ?_⟩
    · rw [drainRest_eq, if_pos (by rw [hidx]; exact hne), hloop, ← hzone]
      rfl
    · intro n hn
      rw [truncateZone_info, h₂.wp, if_neg (by omega), firstBehind, if_neg hne]
      change (tableEntry v₂.info n).zoneId < v.info.wp.zoneId + 1
      rcases h₂.moved n hn with hsame | hzone
      · have hle := h₂.served.zone_le n hn
        have hnot := hout n hn
        rw [hsame, truncateZone_info] at hle hnot ⊢
        by_contra hge
        exact hunused _ (by omega) (by omega) n hn rfl
      · omega

/-- On whole zones every mapped number reads the same after the collection. -/
theorem keepsReads_of_whole (fits : FitsTables G) (whole : zoneBlocks G = blocksPerZone)
    (state : CollectorState G v₀) (kmem : Block) : KeepsReads G kmem v₀ := by
  obtain ⟨temp, v₁, hcollect, h₁, exhausted⟩ := collect_whole fits whole state kmem
  obtain ⟨temp', v₂, hrest, served, before⟩ := drainRest_whole fits whole state h₁ exhausted temp
  obtain ⟨hinfo, hdev⟩ := resetBehind_frame G v₀.info.wp v₂
  have served' := served_of_dev served hinfo fun n hn => hdev _ (Or.inl (before n hn))
  refine ⟨_, GC_eq hcollect hrest, fun n p hm buf => ?_⟩
  exact reads_of_block fits state ⟨p, hm⟩ served'.starting (served'.zone_le n ⟨p, hm⟩)
    (served'.index_lt n ⟨p, hm⟩) (served'.block n ⟨p, hm⟩) buf

end Compacting

end WholeZones
