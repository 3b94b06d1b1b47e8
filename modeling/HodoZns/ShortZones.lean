import HodoZns.CollectorStates

/-!
# The collector on a device with short zones

When a zone takes fewer blocks than `BLOCKS_PER_ZONE`, the test for a full swap zone
never succeeds. The swap zone takes one zone of blocks and refuses every further one,
while the pointer stays on its last block; where the scan reaches the swap zone, it
takes the blocks there up again until it comes to that last block.
-/

namespace ShortZones

open ByteBlock BitmapWords Layout BlockLog ZoneLog NumberAllocator FuelLoop Collector LogCalls
  WritePointers
open SequentialWrites Consistency Relocation BlockPacking Termination Geometries Rewrites
open CollectorStates

/-- Live blocks in the data zones. -/
def liveData (G : Geometry) (m : MappingInfo) : Nat := liveBetween m 1 (swapZone G - 1)

/-- In front of a turn of the main loop. A live bit is that of a number whose block is
there; in the data zones no bit is new. -/
structure Shuffling (G : Geometry) (v₀ v : Volume) : Prop where
  starting : v.info.startingLogicalNumber = v₀.info.startingLogicalNumber
  wp : v.info.wp = ⟨1, 0⟩
  swapWp : v.info.swapWp = ⟨swapZone G, min (swapLen G v) (zoneBlocks G - 1)⟩
  len_le : swapLen G v ≤ zoneBlocks G
  others : ∀ z, z ≠ swapZone G → v.dev z = v₀.dev z
  blocks : ∀ b ∈ v.dev (swapZone G), ∃ n, IsMapped v₀.info n ∧ stored v₀ n = some b
  live : ∀ x : BlockPos, 1 ≤ x.zoneId → x.zoneId ≤ 13 → x.blockIndex < blocksPerZone →
    Collector.live v.info x.zoneId x.blockIndex = true → x.zoneId ≤ swapZone G ∧
      ∃ n, IsMapped v₀.info n ∧ tableEntry v.info n = x ∧ blockAt v.dev x = stored v₀ n
  last : swapLen G v = zoneBlocks G → swapZone G ≤ 13 →
    Collector.live v.info (swapZone G) (zoneBlocks G - 1) = true ∨
      ∀ x : BlockPos, 1 ≤ x.zoneId → x.zoneId ≤ 13 → x.blockIndex < blocksPerZone →
        Collector.live v.info x.zoneId x.blockIndex = false
  data : ∀ x : BlockPos, x.zoneId < swapZone G →
    Collector.live v.info x.zoneId x.blockIndex = true →
      Collector.live v₀.info x.zoneId x.blockIndex = true
  few : liveData G v.info = 0 ∨
    liveData G v.info + v.info.swapWp.blockIndex ≤ liveData G v₀.info

/-- A turn moved number `n` from `p` to the pointer, or tried to. -/
structure Turned (G : Geometry) (v₀ v v' : Volume) (n : Nat) (p : BlockPos) (b : Block) : Prop where
  mapped : IsMapped v₀.info n
  content : stored v₀ n = some b
  entry : tableEntry v.info n = p
  block : blockAt v.dev p = some b
  zone_le : p.zoneId ≤ swapZone G
  rewritten : Rewritten v v' n v.info.swapWp b
  wp : v'.info.wp = v.info.wp
  swapWp : v'.info.swapWp = nextSwapWp G v.info.swapWp hodoDatablockSize

section Turns

variable {G : Geometry} {v₀ v v' : Volume} {n n' : Nat} {p : BlockPos} {b temp : Block}

theorem shuffling_start (fits : FitsTables G) (state : CollectorState G v₀) :
    Shuffling G v₀ (startGC G v₀) := by
  have hswap := fits.swap
  have hempty : v₀.dev (swapZone G) = [] := state.swap_empty
  have hlen : swapLen G (startGC G v₀) = 0 := by
    change (v₀.dev (swapZone G)).length = 0
    rw [hempty]
    rfl
  constructor
  · rfl
  · rfl
  · rw [hlen, Nat.zero_min]
    rfl
  · omega
  · exact fun _ _ => rfl
  · intro b hb
    change b ∈ v₀.dev (swapZone G) at hb
    rw [hempty] at hb
    cases hb
  · intro x hx hx' hi hlive
    obtain ⟨n, hm⟩ := (state.live_iff x (by rw [numberZones_eq]; omega) hi).mp hlive
    have hn : IsMapped v₀.info n := ⟨x, hm⟩
    have hzone := state.zone fits hn
    rw [hm.2.1] at hzone
    exact ⟨by omega, n, hn, hm.2.1, (stored_of_mapped hm).symm⟩
  · intro hfull
    have hpos := fits.blocks_pos
    omega
  · exact fun _ _ hlive => hlive
  · exact Or.inr (Nat.le_refl _)

theorem shuffling_turned (fits : FitsTables G) (state : CollectorState G v₀)
    (h : Shuffling G v₀ v) (found : Found v.info p) (temp : Block) :
    ∃ n b, Turned G v₀ v (swapInOne G p temp v).2 n p b := by
  have hpos := fits.blocks_pos
  have hge := found.zone_ge
  rw [h.wp] at hge
  obtain ⟨hzone, n, hn, hentry, hblock⟩ := h.live p hge found.zone_le found.index_lt found.live
  obtain ⟨b, hb, hown⟩ := state.content hn
  rw [hb] at hblock
  have hidx : p.blockIndex < zoneBlocks G := by
    have hlt := (List.getElem?_eq_some_iff.mp hblock).1
    have hle := h.len_le
    by_cases hp : p.zoneId = swapZone G
    · rw [hp] at hlt
      exact Nat.lt_of_lt_of_le hlt hle
    · have hlive := h.data p (by omega) found.live
      have hswap := fits.swap
      obtain ⟨n₀, hm₀⟩ := (state.live_iff p (by rw [numberZones_eq]; omega) found.index_lt).mp hlive
      exact (state.before n₀ p hm₀).2
  have hread : gcRead G v p temp = b := gcRead_block fits hzone hidx hblock
  obtain ⟨hrew, hwp, hswapWp⟩ := swapInOne_rewrites fits hread (by rw [h.swapWp])
    (by rw [h.swapWp]; simp only; omega)
  rw [hown] at hrew
  exact ⟨n, b, hn, hb, hentry, hblock, hzone, hrew, hwp, hswapWp⟩

/-- The pointer's block, and where the next one goes. -/
theorem Shuffling.pointer (h : Shuffling G v₀ v) (fits : FitsTables G) :
    swapLen G v < zoneBlocks G ∧ v.info.swapWp = ⟨swapZone G, swapLen G v⟩ ∨
      swapLen G v = zoneBlocks G ∧ v.info.swapWp = ⟨swapZone G, zoneBlocks G - 1⟩ := by
  have hle := h.len_le
  have hpos := fits.blocks_pos
  rcases Nat.lt_or_eq_of_le hle with hlt | heq
  · exact Or.inl ⟨hlt, by rw [h.swapWp, Nat.min_eq_left (by omega)]⟩
  · exact Or.inr ⟨heq, by rw [h.swapWp, Nat.min_eq_right (by omega)]⟩

/-- The swap zone takes the block, or is full and stays as it is. -/
theorem Turned.swap_zone (turned : Turned G v₀ v v' n p b) (h : Shuffling G v₀ v)
    (fits : FitsTables G) :
    swapLen G v < zoneBlocks G ∧ v'.dev (swapZone G) = v.dev (swapZone G) ++ [b] ∨
      swapLen G v = zoneBlocks G ∧ v'.dev = v.dev := by
  have hpos := fits.blocks_pos
  rcases h.pointer fits with ⟨hlt, hptr⟩ | ⟨hfull, hptr⟩
  · refine Or.inl ⟨hlt, ?_⟩
    have hgrown := turned.rewritten.grown
    rw [hptr] at hgrown
    exact hgrown rfl
  · refine Or.inr ⟨hfull, turned.rewritten.refused ?_⟩
    rw [hptr]
    change swapLen G v ≠ zoneBlocks G - 1
    omega

theorem Turned.swapLen (turned : Turned G v₀ v v' n p b) (h : Shuffling G v₀ v)
    (fits : FitsTables G) :
    CollectorStates.swapLen G v' = min (CollectorStates.swapLen G v + 1) (zoneBlocks G) := by
  rcases turned.swap_zone h fits with ⟨hlt, hdev⟩ | ⟨hfull, hdev⟩
  · rw [CollectorStates.swapLen, hdev, List.length_append, List.length_singleton,
      Nat.min_eq_left (show CollectorStates.swapLen G v + 1 ≤ zoneBlocks G by omega)]
    rfl
  · rw [CollectorStates.swapLen, hdev, hfull, Nat.min_eq_right (by omega)]
    exact hfull

theorem Turned.live_iff (turned : Turned G v₀ v v' n p b) (x : BlockPos) :
    live v'.info x.zoneId x.blockIndex = true ↔
      x ≠ p ∧ (x = v.info.swapWp ∨ live v.info x.zoneId x.blockIndex = true) := by
  rw [turned.rewritten.entered.live_iff, turned.entry]

theorem Turned.entry_of (turned : Turned G v₀ v v' n p b) (h : Shuffling G v₀ v)
    (hn' : IsMapped v₀.info n') :
    tableEntry v'.info n' = if n' = n then v.info.swapWp else tableEntry v.info n' :=
  turned.rewritten.entered.entry (turned.mapped.inTable h.starting) (hn'.inTable h.starting)

/-- A block that is found in a data zone lies where its number was mapped at the start. -/
theorem Turned.first_entry (turned : Turned G v₀ v v' n p b) (fits : FitsTables G)
    (state : CollectorState G v₀) (h : Shuffling G v₀ v) (found : Found v.info p)
    (hp : p.zoneId < swapZone G) : tableEntry v₀.info n = p := by
  have hswap := fits.swap
  obtain ⟨n₀, hm⟩ := (state.live_iff p (by rw [numberZones_eq]; omega) found.index_lt).mp
    (h.data p hp found.live)
  have hblock := turned.block
  rw [blockAt, h.others _ (by omega), ← blockAt, ← stored_of_mapped hm, ← turned.content] at hblock
  rw [← state.stored_inj ⟨p, hm⟩ turned.mapped hblock]
  exact hm.2.1

/-- In the data zones the bit of the found block is cleared. -/
theorem Turned.live_data (turned : Turned G v₀ v v' n p b) (h : Shuffling G v₀ v) {x : BlockPos}
    (hx : x.zoneId < swapZone G) : live v'.info x.zoneId x.blockIndex = true ↔
      x ≠ p ∧ live v.info x.zoneId x.blockIndex = true := by
  have hne : x ≠ v.info.swapWp := by
    rintro rfl
    rw [h.swapWp] at hx
    exact Nat.lt_irrefl _ hx
  rw [turned.live_iff, or_iff_right hne]

/-- While there is a live block in the data zones the scan finds one there, and there is
one less after the turn. -/
theorem Turned.liveData (turned : Turned G v₀ v v' n p b) (h : Shuffling G v₀ v)
    (fits : FitsTables G) (found : Found v.info p) :
    (ShortZones.liveData G v.info = 0 ∧ ShortZones.liveData G v'.info = 0) ∨
      (p.zoneId < swapZone G ∧
      ShortZones.liveData G v'.info + 1 = ShortZones.liveData G v.info) := by
  have hswap := fits.swap
  have hge := found.zone_ge
  rw [h.wp] at hge
  by_cases hzero : ShortZones.liveData G v.info = 0
  · refine Or.inl ⟨hzero, Nat.eq_zero_of_le_zero (hzero ▸ liveBetween_le fun z i hz hz' _ hl => ?_)⟩
    exact ⟨hz, ((turned.live_data h (x := ⟨z, i⟩) (by simp only; omega)).mp hl).2⟩
  · obtain ⟨x, hx, hx', hxi, hxl⟩ := exists_live_of_pos hzero
    have hp : p.zoneId < swapZone G := by
      rcases found.first x (by rw [h.wp]; exact hx) hxi hxl with rfl | hb
      · omega
      · simp only [Before] at hb
        omega
    exact Or.inr ⟨hp, liveBetween_cleared hge (by omega) found.index_lt found.live
      fun y _ hy => turned.live_data h (by omega)⟩

theorem Turned.index_lt (turned : Turned G v₀ v v' n p b) (hp : p.zoneId = swapZone G) :
    p.blockIndex < CollectorStates.swapLen G v := by
  have hlt := (List.getElem?_eq_some_iff.mp turned.block).1
  rwa [hp] at hlt

/-- What is live after the turn comes after the block that was moved. -/
theorem Turned.ahead (turned : Turned G v₀ v v' n p b) (h : Shuffling G v₀ v) (fits : FitsTables G)
    (found : Found v.info p) {x : BlockPos} (hx : 1 ≤ x.zoneId) (hi : x.blockIndex < blocksPerZone)
    (hlive : live v'.info x.zoneId x.blockIndex = true) : Before p x := by
  obtain ⟨hne, hsource⟩ := (turned.live_iff x).mp hlive
  rcases hsource with rfl | hold
  · have hzone := turned.zone_le
    rcases Nat.lt_or_eq_of_le hzone with hlt | hp
    · left
      rw [h.swapWp]
      exact hlt
    · right
      have hidx := turned.index_lt hp
      rcases h.pointer fits with ⟨_, hptr⟩ | ⟨hfull, hptr⟩
      · rw [hptr]
        exact ⟨hp, hidx⟩
      · rw [hptr] at hne ⊢
        have hle : p.blockIndex ≤ zoneBlocks G - 1 := by omega
        refine ⟨hp, Nat.lt_of_le_of_ne hle fun he : p.blockIndex = zoneBlocks G - 1 => hne ?_⟩
        rw [← hp, ← he]
  · exact (found.first x (by rw [h.wp]; exact hx) hi hold).resolve_left (Ne.symm hne)

theorem next_min {z len k : Nat} (hle : len ≤ k) (hpos : 0 < k) :
    (if min len (k - 1) + 1 = k then ⟨z, min len (k - 1)⟩
      else ⟨z, min len (k - 1) + 1⟩ : BlockPos) =
      ⟨z, min (min (len + 1) k) (k - 1)⟩ := by
  split
  · congr 1
    omega
  · congr 1
    omega

/-- A live block of before is live with the same number, unless it was moved. -/
theorem Turned.still_live (turned : Turned G v₀ v v' n p b) (state : CollectorState G v₀)
    (h : Shuffling G v₀ v) {x : BlockPos} (hx : 1 ≤ x.zoneId) (hx' : x.zoneId ≤ 13)
    (hi : x.blockIndex < blocksPerZone) (hne : x ≠ p)
    (hlive : live v.info x.zoneId x.blockIndex = true) : x.zoneId ≤ swapZone G ∧
      ∃ n', IsMapped v₀.info n' ∧ tableEntry v'.info n' = x ∧ blockAt v'.dev x = stored v₀ n' := by
  obtain ⟨hzone, n', hn', hentry, hblock⟩ := h.live x hx hx' hi hlive
  have hother : n' ≠ n := by
    rintro rfl
    exact hne (hentry.symm.trans turned.entry)
  obtain ⟨c, hc, _⟩ := state.content hn'
  refine ⟨hzone, n', hn', by rw [turned.entry_of h hn', if_neg hother, hentry], ?_⟩
  rw [hc] at hblock ⊢
  exact turned.rewritten.blockAt_of_some hblock

/-- A block was found, so not all bits are clear. -/
theorem not_dead_of_found (h : Shuffling G v₀ v) (found : Found v.info p) :
    ¬ ∀ x : BlockPos, 1 ≤ x.zoneId → x.zoneId ≤ 13 → x.blockIndex < blocksPerZone →
      live v.info x.zoneId x.blockIndex = false := by
  intro hdead
  have hge := found.zone_ge
  rw [h.wp] at hge
  exact absurd found.live (by rw [hdead p hge found.zone_le found.index_lt]; decide)

/-- One turn of the main loop. -/
theorem shuffling_turn (fits : FitsTables G) (state : CollectorState G v₀)
    (h : Shuffling G v₀ v) (found : Found v.info p) (turned : Turned G v₀ v v' n p b) :
    Shuffling G v₀ v' := by
  have hpos := fits.blocks_pos
  have hlen := turned.swapLen h fits
  have hptr := h.pointer fits
  constructor
  · exact turned.rewritten.entered.starting.trans h.starting
  · exact turned.wp.trans h.wp
  · have hidx : v.info.swapWp.blockIndex < zoneBlocks G := by
      rcases hptr with ⟨hlt, hswap⟩ | ⟨_, hswap⟩
      · rw [hswap]
        exact hlt
      · rw [hswap]
        exact Nat.sub_one_lt_of_lt hpos
    rw [turned.swapWp, nextSwapWp_of_fits fits hidx, hlen, h.swapWp]
    exact next_min h.len_le hpos
  · rw [hlen]
    exact Nat.min_le_right _ _
  · intro z hz
    rw [turned.rewritten.other (by rw [h.swapWp]; exact hz)]
    exact h.others z hz
  · intro c hc
    rcases turned.swap_zone h fits with ⟨_, hdev⟩ | ⟨_, hdev⟩
    · rw [hdev] at hc
      rcases List.mem_append.mp hc with hold | hnew
      · exact h.blocks c hold
      · rw [List.mem_singleton.mp hnew]
        exact ⟨n, turned.mapped, turned.content⟩
    · rw [hdev] at hc
      exact h.blocks c hc
  · intro x hx hx' hi hlive
    obtain ⟨hne, hsource⟩ := (turned.live_iff x).mp hlive
    rcases hsource with rfl | hold
    · rcases hptr with ⟨hlt, hptr⟩ | ⟨hfull, hptr⟩
      · refine ⟨by rw [hptr], n, turned.mapped,
          by rw [turned.entry_of h turned.mapped, if_pos rfl], ?_⟩
        rw [turned.content]
        exact turned.rewritten.blockAt_end (by rw [hptr]; rfl)
      · -- the pointer's bit was set before, as the scan had not ended
        rw [hptr] at hx hx' hne ⊢
        exact turned.still_live state h (x := ⟨swapZone G, zoneBlocks G - 1⟩) hx hx'
          (index_lt_row fits (by simp only; omega)) hne
          ((h.last hfull hx').resolve_right (not_dead_of_found h found))
    · exact turned.still_live state h hx hx' hi hne hold
  · intro hfull hzone
    rw [hlen] at hfull
    rcases hptr with ⟨hlt, hptr⟩ | ⟨hfull', hptr⟩
    · refine Or.inl ((turned.live_iff ⟨swapZone G, zoneBlocks G - 1⟩).mpr ⟨?_, Or.inl ?_⟩)
      · rintro rfl
        have hidx := turned.index_lt rfl
        simp only at hidx
        omega
      · rw [hptr]
        congr 1
        omega
    · have hl := (h.last hfull' hzone).resolve_right (not_dead_of_found h found)
      by_cases hp : (⟨swapZone G, zoneBlocks G - 1⟩ : BlockPos) = p
      · -- the block at the pointer itself was moved: it was the last one
        refine Or.inr fun x hx hx' hi => Bool.eq_false_iff.mpr fun hlive => ?_
        have hafter := turned.ahead h fits found hx hi hlive
        obtain ⟨hne, hsource⟩ := (turned.live_iff x).mp hlive
        have hold := hsource.resolve_left fun heq => hne (by rw [heq, hptr, hp])
        obtain ⟨hle, n', hn', _, hblock⟩ := h.live x hx hx' hi hold
        obtain ⟨c, hc, _⟩ := state.content hn'
        have hidx := (List.getElem?_eq_some_iff.mp (hblock.trans hc)).1
        rw [← hp] at hafter
        rcases hafter with hgt | ⟨heq, hgt⟩
        · exact absurd hle (Nat.not_le.mpr hgt)
        · simp only at heq hgt
          rw [← heq] at hidx
          change x.blockIndex < swapLen G v at hidx
          omega
      · exact Or.inl ((turned.live_iff _).mpr ⟨hp, Or.inr hl⟩)
  · intro x hx hlive
    exact h.data x hx ((turned.live_data h hx).mp hlive).2
  · rcases turned.liveData h fits found with ⟨_, hzero⟩ | ⟨_, hless⟩
    · exact Or.inl hzero
    · have hidx := nextSwapWp_index_le G v.info.swapWp hodoDatablockSize
      rw [← turned.swapWp] at hidx
      rcases h.few with hnone | hfew
      · omega
      · exact Or.inr (by omega)

end Turns

end ShortZones
