import HodoZns.ShortZones

/-!
# Collections on short zones

The main loop ends with what the swap zone took in it, and only the blocks before the
last place there go back to the log. With fewer live blocks than a zone takes these are
all; otherwise one block is at the last place and is lost with the reset.
-/

namespace ShortCollections

open ByteBlock BitmapWords Layout BlockLog ZoneLog NumberAllocator FuelLoop Collector LogCalls
  WritePointers
open SequentialWrites Consistency Relocation BlockPacking Termination Geometries Rewrites
open CollectorStates ShortZones

/-- Positions behind the one the scan finds, up to the end of the bitmap. -/
def scanLeft (m : MappingInfo) : Nat :=
  if (hodoGetNextGCValid m).zoneId = 0 then 0
  else 14 * blocksPerZone -
    ((hodoGetNextGCValid m).zoneId * blocksPerZone + (hodoGetNextGCValid m).blockIndex)

theorem scanLeft_lt_fuel (m : MappingInfo) : scanLeft m < loopFuel := by
  simp only [scanLeft, loopFuel, blocksPerZone_eq, numberZones_eq]
  split <;> omega

theorem scanLeft_lt {m m' : MappingInfo} (found : Found m (hodoGetNextGCValid m))
    (hne : (hodoGetNextGCValid m).zoneId ≠ 0)
    (ahead : (hodoGetNextGCValid m').zoneId ≠ 0 →
      Before (hodoGetNextGCValid m) (hodoGetNextGCValid m')) : scanLeft m' < scanLeft m := by
  have hle := found.zone_le
  have hidx := found.index_lt
  rw [blocksPerZone_eq] at hidx
  simp only [scanLeft, if_neg hne, blocksPerZone_eq]
  by_cases hzero : (hodoGetNextGCValid m').zoneId = 0
  · rw [if_pos hzero]
    omega
  · have hbefore := ahead hzero
    have found' := found_of_ne_zero hzero
    have hle' := found'.zone_le
    have hidx' := found'.index_lt
    rw [blocksPerZone_eq] at hidx'
    rw [if_neg hzero]
    simp only [Before] at hbefore
    omega

section Loops

variable {G : Geometry} {v₀ v v' : Volume} {n : Nat} {p : BlockPos} {b temp : Block}

/-- With short zones a turn never comes to the swap-out. -/
theorem collectTurn_short (fits : FitsTables G) (short : zoneBlocks G < blocksPerZone)
    (state : CollectorState G v₀) (h : Shuffling G v₀ v)
    (hne : (hodoGetNextGCValid v.info).zoneId ≠ 0) (temp : Block) :
    collectTurn G (temp, v) = .inl (swapInOne G (hodoGetNextGCValid v.info) temp v) ∧
      Shuffling G v₀ (swapInOne G (hodoGetNextGCValid v.info) temp v).2 ∧
      scanLeft (swapInOne G (hodoGetNextGCValid v.info) temp v).2.info < scanLeft v.info := by
  have found := found_of_ne_zero hne
  obtain ⟨n, b, turned⟩ := shuffling_turned fits state h found temp
  have h' := shuffling_turn fits state h found turned
  refine ⟨collectTurn_swapIn hne rfl ?_, h', scanLeft_lt found hne fun hne' => ?_⟩
  · have hpos := fits.blocks_pos
    rw [h'.swapWp]
    simp only
    omega
  · have found' := found_of_ne_zero hne'
    have hge := found'.zone_ge
    rw [h'.wp] at hge
    exact turned.ahead h fits found hge found'.index_lt found'.live

/-- The rule for the main loop on short zones. -/
theorem collect_short (fits : FitsTables G) (short : zoneBlocks G < blocksPerZone)
    (state : CollectorState G v₀) (Inv : Volume → Prop)
    (turn : ∀ v v' n p b,
      Shuffling G v₀ v → Found v.info p → Turned G v₀ v v' n p b → Inv v → Inv v')
    (inv : Inv (startGC G v₀)) (temp : Block) :
    ∃ temp' v', collect G temp (startGC G v₀) = some (temp', v') ∧ Shuffling G v₀ v' ∧ Inv v' ∧
      (hodoGetNextGCValid v'.info).zoneId = 0 := by
  have hloop := collect_rule G
    (fun v => Shuffling G v₀ v ∧ Inv v) (fun v => scanLeft v.info) ?_
    ⟨shuffling_start fits state, inv⟩ (scanLeft_lt_fuel _) temp
  · obtain ⟨temp', v', hcollect, ⟨h', inv'⟩, exhausted⟩ := hloop
    exact ⟨temp', v', hcollect, h', inv', exhausted⟩
  · rintro temp v ⟨h, inv⟩ hfound
    obtain ⟨hgo, h', hless⟩ := collectTurn_short fits short state h hfound temp
    have found := found_of_ne_zero hfound
    obtain ⟨n, b, turned⟩ := shuffling_turned fits state h found temp
    exact ⟨_, hgo, ⟨h', turn _ _ n _ b h found turned inv⟩, hless⟩

/-- After `i` turns of the swap-out that follows on `v₁`. -/
structure Copying (G : Geometry) (v₀ v₁ : Volume) (i : Nat) (v : Volume) : Prop where
  starting : v.info.startingLogicalNumber = v₀.info.startingLogicalNumber
  wp : v.info.wp = ⟨1, i⟩
  swapWp : v.info.swapWp = v₁.info.swapWp
  filled : (v.dev 1).length = i
  source : v.dev (swapZone G) = v₁.dev (swapZone G)
  copied : ∀ n, IsMapped v₀.info n →
    (∃ j, j < i ∧ blockAt v₁.dev ⟨swapZone G, j⟩ = stored v₀ n) →
      (tableEntry v.info n).zoneId = 1 ∧ (tableEntry v.info n).blockIndex < zoneBlocks G ∧
        blockAt v.dev (tableEntry v.info n) = stored v₀ n
  kept : ∀ n, IsMapped v₀.info n →
    (∀ j, j < i → blockAt v₁.dev ⟨swapZone G, j⟩ ≠ stored v₀ n) →
      tableEntry v.info n = tableEntry v₁.info n

theorem copying_start (fits : FitsTables G) {v₁ : Volume} (h : Shuffling G v₀ v₁) :
    Copying G v₀ v₁ 0 (truncateZone G v₁ v₁.info.wp.zoneId) := by
  have hswap := fits.swap
  constructor
  · rw [truncateZone_info]
    exact h.starting
  · rw [truncateZone_info]
    exact h.wp
  · rw [truncateZone_info]
  · rw [h.wp, truncateZone_empty fits v₁ (show 1 ≤ swapZone G by omega)]
    rfl
  · rw [h.wp, truncateZone_dev G v₁ (show swapZone G ≠ 1 by omega)]
  · rintro n _ ⟨j, hj, _⟩
    exact absurd hj (Nat.not_lt_zero j)
  · intro n _ _
    rw [truncateZone_info]

theorem copying_turn (fits : FitsTables G) (state : CollectorState G v₀) {v₁ : Volume} {i : Nat}
    (h₁ : Shuffling G v₀ v₁) (hi : i < v₁.info.swapWp.blockIndex) (h : Copying G v₀ v₁ i v)
    (temp : Block) : Copying G v₀ v₁ (i + 1) (swapOutOne G ⟨swapZone G, i⟩ temp v).2 := by
  have hswap := fits.swap
  have hlen : i < swapLen G v₁ ∧ i + 1 < zoneBlocks G := by
    have hle := h₁.len_le
    rw [h₁.swapWp] at hi
    simp only at hi
    omega
  obtain ⟨b, hb⟩ : ∃ b, blockAt v₁.dev ⟨swapZone G, i⟩ = some b :=
    ⟨_, List.getElem?_eq_getElem hlen.1⟩
  obtain ⟨n, hn, hstored⟩ := h₁.blocks b (List.mem_of_getElem? hb)
  have hown := state.own hn hstored
  have hread : gcRead G v ⟨swapZone G, i⟩ temp = b := by
    apply gcRead_block fits (Nat.le_refl _) (show i < zoneBlocks G by omega)
    rw [h.source]
    exact hb
  obtain ⟨_, hrew, hwp, hswapWp⟩ := swapOutOne_rewrites fits hread
    (by rw [hown]; exact state.ne_zero fits hn) (by rw [h.wp]; simp only; omega)
    (by rw [h.wp]; simp only; omega)
  rw [hown, h.wp] at hrew
  rw [h.wp, nextWp_of_fits fits (by simp only; omega) (by simp only; omega),
    if_neg (by simp only; omega)] at hwp
  have hentry : ∀ n', IsMapped v₀.info n' →
      tableEntry (swapOutOne G ⟨swapZone G, i⟩ temp v).2.info n' =
        if n' = n then ⟨1, i⟩ else tableEntry v.info n' := fun n' hn' =>
    hrew.entered.entry (hn.inTable h.starting) (hn'.inTable h.starting)
  constructor
  · exact hrew.entered.starting.trans h.starting
  · exact hwp
  · exact hswapWp.trans h.swapWp
  · have hgrown := hrew.grown h.filled
    simp only at hgrown
    rw [hgrown, List.length_append, h.filled]
    rfl
  · rw [hrew.other (show swapZone G ≠ 1 by omega)]
    exact h.source
  · rintro n' hn' ⟨j, hj, hcopy⟩
    rw [hentry n' hn']
    by_cases hne : n' = n
    · rw [if_pos hne, hne, hstored]
      exact ⟨rfl, show i < zoneBlocks G by omega, hrew.blockAt_end h.filled⟩
    · have hji : j ≠ i := by
        rintro rfl
        exact hne (state.stored_inj hn' hn (hcopy.symm.trans (hb.trans hstored.symm)))
      obtain ⟨hzone, hidx, hblock⟩ := h.copied n' hn' ⟨j, by omega, hcopy⟩
      obtain ⟨c, hc, _⟩ := state.content hn'
      rw [if_neg hne]
      rw [hc] at hblock ⊢
      exact ⟨hzone, hidx, hrew.blockAt_of_some hblock⟩
  · intro n' hn' hno
    have hne : n' ≠ n := by
      rintro rfl
      exact hno i (Nat.lt_succ_self i) (hb.trans hstored.symm)
    rw [hentry n' hn', if_neg hne]
    exact h.kept n' hn' fun j hj => hno j (Nat.lt_succ_of_lt hj)

/-- The collection after a main loop that left blocks in the swap zone. -/
theorem GC_of_shuffled (fits : FitsTables G) (short : zoneBlocks G < blocksPerZone)
    (state : CollectorState G v₀) {v₁ : Volume} {kmem : Block} (h₁ : Shuffling G v₀ v₁)
    (hcollect : collect G kmem (startGC G v₀) = some (temp, v₁))
    (hne : v₁.info.swapWp.blockIndex ≠ 0) :
    ∃ v₂ v', GC G kmem v₀ = some v' ∧ Copying G v₀ v₁ v₁.info.swapWp.blockIndex v₂ ∧
      v'.info = v₂.info ∧ v'.dev 1 = v₂.dev 1 ∧ v'.dev (swapZone G) = [] := by
  have hswap := fits.swap
  have hprev := state.wp_zone.2
  have hge := fits.zones_ge
  have hlt : v₁.info.swapWp.blockIndex < blocksPerZone := by
    rw [h₁.swapWp]
    simp only
    omega
  obtain ⟨temp', v₂, hloop, h₂⟩ := swapOutRest_total G (fun i _ => Copying G v₀ v₁ i) hlt
    (fun _ _ _ h => by rw [h.swapWp])
      (fun _ temp _ hi h => copying_turn fits state h₁ hi h temp) temp
    (copying_start fits h₁)
  have hzone : v₂.info.swapWp.zoneId = swapZone G := by rw [h₂.swapWp, h₁.swapWp]
  have hrest : drainRest G temp v₁ = some (temp', truncateZone G v₂ (swapZone G)) := by
    rw [drainRest_eq, if_pos hne, hloop, ← hzone]
    rfl
  obtain ⟨hinfo, hdev⟩ := resetBehind_frame G v₀.info.wp (truncateZone G v₂ (swapZone G))
  rw [truncateZone_info, firstBehind, h₂.wp, if_neg hne] at hdev
  refine ⟨v₂, _, GC_eq hcollect hrest, h₂, by rw [hinfo, truncateZone_info], ?_, ?_⟩
  · rw [hdev 1 (Or.inl (by simp only; omega)), truncateZone_dev G v₂ (by omega)]
  · rw [hdev (swapZone G) (Or.inr ⟨by rw [swapZone]; omega, hswap.1⟩),
      truncateZone_empty fits v₂ (Nat.le_refl _)]

/-- A number is still to be moved, or its block lies before the last place of the swap zone. -/
def Copied (G : Geometry) (v₀ v : Volume) : Prop :=
  ∀ n, IsMapped v₀.info n →
    live v.info (tableEntry v₀.info n).zoneId (tableEntry v₀.info n).blockIndex = true ∨
      ∃ j, j < zoneBlocks G - 1 ∧ blockAt v.dev ⟨swapZone G, j⟩ = stored v₀ n

theorem copied_turn (fits : FitsTables G) (state : CollectorState G v₀)
    (few : liveData G v₀.info < zoneBlocks G) (h : Shuffling G v₀ v) (found : Found v.info p)
    (turned : Turned G v₀ v v' n p b) (inv : Copied G v₀ v) : Copied G v₀ v' := by
  intro n' hn'
  obtain ⟨c, hc, _⟩ := state.content hn'
  rcases inv n' hn' with hlive | ⟨j, hj, hcopy⟩
  · obtain ⟨_, hzone, _⟩ := state.zone fits hn'
    by_cases hp : tableEntry v₀.info n' = p
    · -- the number that is moved: its block goes to the end of the swap zone
      have hblock := turned.block
      rw [← hp, blockAt, h.others _ (by omega), ← blockAt, ← stored_of_mapped hn'.mapped,
        ← turned.content] at hblock
      have hlast : v.info.swapWp.blockIndex < zoneBlocks G - 1 := by
        rw [hp] at hzone
        have hfew := h.few
        rcases turned.liveData h fits found with ⟨hzero, _⟩ | ⟨_, hless⟩
        · have hge : 1 ≤ p.zoneId := by
            have hge := found.zone_ge
            rw [h.wp] at hge
            exact hge
          have hmore :=
            liveBetween_pos (q := swapZone G - 1) hge (by omega) found.index_lt found.live
          rw [liveData] at hzero
          omega
        · omega
      have hend : (v.dev v.info.swapWp.zoneId).length = v.info.swapWp.blockIndex := by
        rcases h.pointer fits with ⟨_, hptr⟩ | ⟨_, hptr⟩
        · rw [hptr]
          rfl
        · rw [hptr] at hlast
          exact absurd hlast (Nat.lt_irrefl _)
      refine Or.inr ⟨_, hlast, ?_⟩
      have hptr : v.info.swapWp = ⟨swapZone G, v.info.swapWp.blockIndex⟩ := by rw [h.swapWp]
      rw [← hptr, hblock, turned.content]
      exact turned.rewritten.blockAt_end hend
    · exact Or.inl ((turned.live_data h hzone).mpr ⟨hp, hlive⟩)
  · rw [hc] at hcopy ⊢
    exact Or.inr ⟨j, hj, turned.rewritten.blockAt_of_some hcopy⟩

/-- With fewer live blocks than a zone takes, all of them come through. -/
theorem keepsReads_of_few (fits : FitsTables G) (short : zoneBlocks G < blocksPerZone)
    (state : CollectorState G v₀) (few : liveData G v₀.info < zoneBlocks G) (kmem : Block) :
    KeepsReads G kmem v₀ := by
  have hswap := fits.swap
  obtain ⟨temp, v₁, hcollect, h₁, copied, exhausted⟩ := collect_short fits short state (Copied G v₀)
    (fun _ _ _ _ _ h found turned inv => copied_turn fits state few h found turned inv)
    (fun n hn => Or.inl (state.live_entry fits hn)) kmem
  have hcopy : ∀ n, IsMapped v₀.info n → ∃ j, j < v₁.info.swapWp.blockIndex ∧
      blockAt v₁.dev ⟨swapZone G, j⟩ = stored v₀ n := by
    intro n hn
    obtain ⟨hpos, hzone, hidx⟩ := state.zone fits hn
    rcases copied n hn with hlive | ⟨j, hj, hblock⟩
    · rw [dead_of_zero (by rw [h₁.wp]) exhausted (by rw [h₁.wp]; exact hpos) (by omega)
        (index_lt_row fits hidx)] at hlive
      cases hlive
    · obtain ⟨c, hc, _⟩ := state.content hn
      have hlen := (List.getElem?_eq_some_iff.mp (hblock.trans hc)).1
      change j < swapLen G v₁ at hlen
      refine ⟨j, ?_, hblock⟩
      rw [h₁.swapWp]
      simp only
      omega
  by_cases hzero : v₁.info.swapWp.blockIndex = 0
  · -- nothing was mapped
    refine ⟨_, GC_eq hcollect (by rw [drainRest_eq, if_neg (not_not_intro hzero)]),
      fun n p hm => ?_⟩
    obtain ⟨j, hj, _⟩ := hcopy n ⟨p, hm⟩
    omega
  · obtain ⟨v₂, v', hgc, h₂, hinfo, hdev, _⟩ := GC_of_shuffled fits short state h₁ hcollect hzero
    refine ⟨v', hgc, fun n p hm buf => ?_⟩
    obtain ⟨hzone, hidx, hblock⟩ := h₂.copied n ⟨p, hm⟩ (hcopy n ⟨p, hm⟩)
    rw [← hinfo] at hzone hidx hblock
    refine reads_of_block fits state ⟨p, hm⟩ (by rw [hinfo]; exact h₂.starting)
      (by omega) hidx ?_ buf
    rw [← hblock, blockAt, blockAt, hzone, hdev]

/-- Until the swap zone is full it holds one block of each number that was moved. The
number that gets its last place has no other block there. -/
structure Losing (G : Geometry) (v₀ v : Volume) : Prop where
  many : swapLen G v < zoneBlocks G → liveData G v₀.info ≤ liveData G v.info + swapLen G v
  fresh : swapLen G v < zoneBlocks G → ∀ n, IsMapped v₀.info n →
    live v.info (tableEntry v₀.info n).zoneId (tableEntry v₀.info n).blockIndex = true →
      ∀ b ∈ v.dev (swapZone G), stored v₀ n ≠ some b
  lost : swapLen G v = zoneBlocks G → ∃ m, IsMapped v₀.info m ∧
    tableEntry v.info m = ⟨swapZone G, zoneBlocks G - 1⟩ ∧
      ∀ j, j < zoneBlocks G - 1 → blockAt v.dev ⟨swapZone G, j⟩ ≠ stored v₀ m

theorem losing_start (fits : FitsTables G) (state : CollectorState G v₀) :
    Losing G v₀ (startGC G v₀) := by
  have hempty : (startGC G v₀).dev (swapZone G) = [] := state.swap_empty
  constructor
  · exact fun _ => Nat.le_add_right _ _
  · intro _ n _ _ b hb
    rw [hempty] at hb
    cases hb
  · intro hfull
    have hpos := fits.blocks_pos
    rw [swapLen, hempty, List.length_nil] at hfull
    omega

/-- A turn before the swap zone is full, with blocks left for a full zone. -/
theorem losing_fills (fits : FitsTables G) (state : CollectorState G v₀)
    (many : zoneBlocks G ≤ liveData G v₀.info) (h : Shuffling G v₀ v) (found : Found v.info p)
    (turned : Turned G v₀ v v' n p b) (inv : Losing G v₀ v) (room : swapLen G v < zoneBlocks G)
    (hdev : v'.dev (swapZone G) = v.dev (swapZone G) ++ [b]) : Losing G v₀ v' := by
  have hlen := turned.swapLen h fits
  rw [Nat.min_eq_left (show swapLen G v + 1 ≤ zoneBlocks G from room)] at hlen
  have hcount := inv.many room
  obtain ⟨hp, hless⟩ : p.zoneId < swapZone G ∧ liveData G v'.info + 1 = liveData G v.info := by
    rcases turned.liveData h fits found with ⟨hzero, _⟩ | hdata
    · omega
    · exact hdata
  have hentry := turned.first_entry fits state h found hp
  have hnew : ∀ c ∈ v.dev (swapZone G), stored v₀ n ≠ some c :=
    inv.fresh room n turned.mapped (by rw [hentry]; exact found.live)
  constructor
  · intro _
    omega
  · intro _ n' hn' hlive c hc
    obtain ⟨_, hzone, _⟩ := state.zone fits hn'
    obtain ⟨hne, hold⟩ := (turned.live_data h hzone).mp hlive
    rw [hdev] at hc
    rcases List.mem_append.mp hc with hmem | hlast
    · exact inv.fresh room n' hn' hold c hmem
    · rw [List.mem_singleton.mp hlast, ← turned.content]
      intro he
      rw [state.stored_inj hn' turned.mapped he] at hne
      exact hne hentry
  · intro hfull
    have hptr : v.info.swapWp = ⟨swapZone G, zoneBlocks G - 1⟩ := by
      rcases h.pointer fits with ⟨_, hptr⟩ | ⟨hfull', _⟩
      · rw [hptr, show swapLen G v = zoneBlocks G - 1 by omega]
      · omega
    refine ⟨n, turned.mapped, by rw [turned.entry_of h turned.mapped, if_pos rfl, hptr], ?_⟩
    intro j hj he
    have hlt : j < (v.dev (swapZone G)).length := by
      change j < swapLen G v
      omega
    rw [blockAt, hdev, List.getElem?_append_left hlt, turned.content] at he
    exact hnew b (List.mem_of_getElem? he) turned.content

theorem losing_turn (fits : FitsTables G) (state : CollectorState G v₀)
    (many : zoneBlocks G ≤ liveData G v₀.info) (h : Shuffling G v₀ v) (found : Found v.info p)
    (turned : Turned G v₀ v v' n p b) (inv : Losing G v₀ v) : Losing G v₀ v' := by
  rcases turned.swap_zone h fits with ⟨room, hdev⟩ | ⟨hfull, hdev⟩
  · exact losing_fills fits state many h found turned inv room hdev
  · -- nothing is written any more
    have hlen : swapLen G v' = zoneBlocks G := by
      rw [turned.swapLen h fits, hfull, Nat.min_eq_right (Nat.le_succ _)]
    obtain ⟨m, hm, hentry, hcopies⟩ := inv.lost hfull
    constructor
    · intro hlt
      omega
    · intro hlt
      omega
    · refine fun _ => ⟨m, hm, ?_, by rw [hdev]; exact hcopies⟩
      rw [turned.entry_of h hm]
      split
      · rw [h.swapWp, hfull, Nat.min_eq_right (Nat.sub_le _ _)]
      · exact hentry

/-- With as many live blocks as a zone takes, one of them is lost. -/
theorem not_keepsReads_of_many (fits : FitsTables G) (short : zoneBlocks G < blocksPerZone)
    (state : CollectorState G v₀) (two : 2 ≤ zoneBlocks G)
    (many : zoneBlocks G ≤ liveData G v₀.info) (kmem : Block) : ¬ KeepsReads G kmem v₀ := by
  have hswap := fits.swap
  obtain ⟨temp, v₁, hcollect, h₁, losing, exhausted⟩ := collect_short fits short state (Losing G v₀)
    (fun _ _ _ _ _ h found turned inv => losing_turn fits state many h found turned inv)
    (losing_start fits state) kmem
  have hfull : swapLen G v₁ = zoneBlocks G := by
    by_contra hne
    have hle := h₁.len_le
    have hcount := losing.many (by omega)
    have hsome : liveData G v₁.info ≠ 0 := by omega
    obtain ⟨x, hx, hx', hi, hlive⟩ := exists_live_of_pos hsome
    rw [dead_of_zero (by rw [h₁.wp]) exhausted (by rw [h₁.wp]; exact hx) (by omega) hi] at hlive
    cases hlive
  obtain ⟨m, hm, hentry, hcopies⟩ := losing.lost hfull
  have hptr : v₁.info.swapWp = ⟨swapZone G, zoneBlocks G - 1⟩ := by
    rw [h₁.swapWp, hfull, Nat.min_eq_right (Nat.sub_le _ _)]
  obtain ⟨v₂, v', hgc, h₂, hinfo, _, hreset⟩ := GC_of_shuffled fits short state h₁ hcollect
    (by rw [hptr]; simp only; omega)
  rw [hptr] at h₂
  have hlost : tableEntry v'.info m = ⟨swapZone G, zoneBlocks G - 1⟩ := by
    rw [hinfo, h₂.kept m hm hcopies, hentry]
  rintro ⟨w, hw, same⟩
  obtain rfl := Option.some.inj (hgc.symm.trans hw)
  refine not_reads_of_gone fits state hm (by rw [hlost]) (by rw [hlost]; simp only; omega) ?_ same
  rw [hlost, blockAt, hreset]
  rfl

end Loops

end ShortCollections
