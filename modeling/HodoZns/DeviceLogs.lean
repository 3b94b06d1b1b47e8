import HodoZns.CollectorStates
import HodoZns.LogStore

/-!
# The log of a device

The mount numbers the blocks from the number of zones on and writes the root inode.
Whatever is written afterwards, bits, table and blocks agree, and every block lies
before the write pointer; the swap zone is empty as long as there is room.
-/

namespace DeviceLogs

open ByteBlock BitmapWords Layout BlockLog ZoneLog NumberAllocator CallRuns Collector LogCalls
open SequentialWrites Consistency Relocation BlockPacking LogStore Geometries Rewrites
  CollectorStates

structure Logged (G : Geometry) (v : Volume) : Prop where
  starting : v.info.startingLogicalNumber = G.hodoNrZones
  wp_pos : 1 ≤ v.info.wp.zoneId
  wp_le : v.info.wp.zoneId ≤ swapZone G
  wp_index : v.info.wp.blockIndex < zoneBlocks G
  filled : (v.dev v.info.wp.zoneId).length = v.info.wp.blockIndex
  ahead : ∀ z, v.info.wp.zoneId < z → z ≤ swapZone G → v.dev z = []
  live_iff : ∀ p : BlockPos, p.zoneId < numberZones → p.blockIndex < blocksPerZone →
    (live v.info p.zoneId p.blockIndex = true ↔ ∃ n, Mapped v.info n p)
  before : ∀ n p, Mapped v.info n p → Before p v.info.wp ∧ p.blockIndex < zoneBlocks G
  names : ∀ n p, Mapped v.info n p → ∃ b, blockAt v.dev p = some b ∧ ownNumber b = n

/-- What writes leave in the data zones the collector can be started on. -/
theorem Logged.collectorState {G : Geometry} {v : Volume} (h : Logged G v)
    (room : v.info.wp.zoneId < swapZone G)
    (sparse : ∀ r, 1 ≤ r → r ≤ G.hodoNrZones - 3 → liveCount v.info r ≤ r * (zoneBlocks G - 1)) :
    CollectorState G v := by
  have hz := h.wp_pos
  constructor
  · exact h.starting
  · rw [swapZone] at room
    omega
  · exact h.ahead _ room (Nat.le_refl _)
  · exact h.live_iff
  · exact h.before
  · exact h.names
  · exact sparse

section

variable {G : Geometry} {v v' : Volume} {n n' : Nat} {p q : BlockPos} {b : Block}

theorem Logged.ne_zero (h : Logged G v) (fits : FitsTables G) (hn : InTable v.info n) : n ≠ 0 := by
  rintro rfl
  have hge := fits.zones_ge
  have hle := fits.zones_le
  obtain ⟨_, hidx⟩ := hn
  rw [numberZones_eq] at hle
  simp only [tableIndex, h.starting, numberMappingTableEntry_eq] at hidx
  omega

/-- No two numbers share a position. -/
theorem Logged.inj (h : Logged G v) (hm : Mapped v.info n p) (hm' : Mapped v.info n' p) :
    n = n' := by
  obtain ⟨b, hb, hown⟩ := h.names n p hm
  obtain ⟨b', hb', hown'⟩ := h.names n' p hm'
  obtain rfl := Option.some.inj (hb.symm.trans hb')
  exact hown.symm.trans hown'

theorem nextWp_after (fits : FitsTables G) {wp : BlockPos} (hz : wp.zoneId ≤ swapZone G)
    (hi : wp.blockIndex < zoneBlocks G) : Before wp (nextWp G wp hodoDatablockSize) := by
  rw [nextWp_of_fits fits hz hi]
  split
  · exact Or.inl (Nat.lt_succ_self _)
  · exact Or.inr ⟨rfl, Nat.lt_succ_self _⟩

/-- A write at the pointer that moves it on. -/
theorem logged_rewrite (fits : FitsTables G) (h : Logged G v) (room : v.info.wp.zoneId < swapZone G)
    (hn : InTable v.info n) (hb : ownNumber b = n) (hrew : Rewritten v v' n v.info.wp b)
    (hwp : v'.info.wp = nextWp G v.info.wp hodoDatablockSize) : Logged G v' := by
  have hpos := h.wp_pos
  have hidx := h.wp_index
  have hmapped : ∀ n' p,
    Mapped v'.info n' p ↔ if n' = n then p = v.info.wp else Mapped v.info n' p :=
    fun n' p => hrew.entered.mapped_iff hn (by omega)
  have hgrown := hrew.grown h.filled
  have hafter := nextWp_after fits h.wp_le hidx
  rw [← hwp] at hafter
  rw [nextWp_of_fits fits h.wp_le hidx] at hwp
  constructor
  · exact hrew.entered.starting.trans h.starting
  · rw [hwp]
    split
    · exact Nat.le_add_left 1 _
    · exact hpos
  · rw [hwp]
    split
    · exact room
    · exact h.wp_le
  · rw [hwp]
    split
    · exact fits.blocks_pos
    · simp only
      omega
  · rw [hwp]
    split
    · rw [hrew.other (Nat.succ_ne_self _), h.ahead _ (Nat.lt_succ_self _) room]
      rfl
    · simp only
      rw [hgrown, List.length_append, h.filled]
      rfl
  · intro z hz hle
    have hgt : v.info.wp.zoneId < z := by
      simp only [Before] at hafter
      omega
    rw [hrew.other (Nat.ne_of_gt hgt), h.ahead z hgt hle]
  · intro x hx hi
    rw [hrew.entered.live_iff, h.live_iff x hx hi]
    constructor
    · rintro ⟨hne, rfl | ⟨n', hm⟩⟩
      · exact ⟨n, by rw [hmapped, if_pos rfl]⟩
      · refine ⟨n', ?_⟩
        rw [hmapped, if_neg]
        · exact hm
        · rintro rfl
          exact hne hm.2.1.symm
    · rintro ⟨n', hm⟩
      rw [hmapped] at hm
      split at hm
      · -- the pointer is nobody's position
        subst hm
        refine ⟨fun he => ?_, Or.inl rfl⟩
        exact before_irrefl _ (h.before n _ ⟨hn, he.symm, by omega⟩).1
      case isFalse hne =>
        refine ⟨fun he => ?_, Or.inr ⟨n', hm⟩⟩
        exact hne (h.inj hm ⟨hn, he.symm, hm.2.2⟩)
  · intro n' p hm
    rw [hmapped] at hm
    split at hm
    · rw [hm]
      exact ⟨hafter, hidx⟩
    · obtain ⟨hbefore, hlt⟩ := h.before n' p hm
      exact ⟨before_trans hbefore hafter, hlt⟩
  · intro n' p hm
    rw [hmapped] at hm
    split at hm
    case isTrue he =>
      rw [hm, he]
      exact ⟨b, hrew.blockAt_end h.filled, hb⟩
    case isFalse =>
      obtain ⟨c, hc, hown⟩ := h.names n' p hm
      exact ⟨c, hrew.blockAt_of_some hc, hown⟩

/-- The bits of the numbers play no part. -/
theorem logged_next (h : Logged G v) :
    Logged G { v with info := (hodoGetNextLogicalNumber v.info).2 } := by
  rcases getNext_cases v.info with ⟨k, _, _, _, heq⟩ | ⟨_, heq⟩
  · rw [heq]
    exact ⟨h.starting, h.wp_pos, h.wp_le, h.wp_index, h.filled, h.ahead, h.live_iff,
      h.before, h.names⟩
  · rw [heq]
    exact h

end

/-- A read under a number of the table, a new number, or a block written under a number it
names, with room for it. -/
def Logs (G : Geometry) (v : Volume) : LogCall → Prop
  | .next => True
  | .read n _ _ => InTable v.info n
  | .write (some b) len n =>
    len = hodoDatablockSize ∧ InTable v.info n ∧ Names b n ∧ v.info.wp.zoneId < swapZone G
  | _ => False

instance (G : Geometry) (v : Volume) (c : LogCall) : Decidable (Logs G v c) :=
  match c with
  | .next => isTrue trivial
  | .read n _ _ => inferInstanceAs (Decidable (InTable v.info n))
  | .write (some b) len n => inferInstanceAs (Decidable
      (len = hodoDatablockSize ∧ InTable v.info n ∧ Names b n ∧ v.info.wp.zoneId < swapZone G))
  | .write none _ _ => isFalse id
  | .erase _ => isFalse id
  | .gc _ => isFalse id

section

variable {G : Geometry} {v : Volume} {n : Nat} {b : Block}

theorem logged_write (fits : FitsTables G) (h : Logged G v) (hn : InTable v.info n) (hb : Names b n)
    (room : v.info.wp.zoneId < swapZone G) :
    Logged G (hodoWriteStruct G ioOk v (some b) hodoDatablockSize n).volume := by
  obtain ⟨hrew, hwp, _⟩ := hodoWriteStruct_rewrites fits b (h.ne_zero fits hn) h.wp_le h.wp_index
  exact logged_rewrite fits h room hn (ownNumber_stamp hb hn.1) hrew hwp

theorem logged_call (fits : FitsTables G) {c : LogCall} (h : Logged G v) (logs : Logs G v c) :
    ∃ a v', callStep G v c = some (a, v') ∧ Logged G v' := by
  cases c with
  | next => exact ⟨_, _, callStep_next G v, logged_next h⟩
  | read n buf len => exact ⟨_, v, callStep_read logs buf len, h⟩
  | write buf len n =>
    cases buf with
    | none => exact logs.elim
    | some b =>
      obtain ⟨rfl, hn, hb, room⟩ := logs
      exact ⟨_, _, callStep_write G v _ _ _, logged_write fits h hn hb room⟩
  | erase n => exact logs.elim
  | gc kmem => exact logs.elim

/-- What the mount has set before it writes the root inode. -/
def blank (G : Geometry) : Volume where
  info := { zeroMappingInfo with
    startingLogicalNumber := G.hodoNrZones, wp := ⟨1, 0⟩, swapWp := ⟨swapZone G, 0⟩ }
  dev := fun _ => []
  trace := []

theorem live_blank (G : Geometry) (z i : Nat) : live (blank G).info z i = false :=
  testBit_full false (i % 32)

theorem logged_blank (fits : FitsTables G) : Logged G (blank G) := by
  have hswap := fits.swap
  have hunmapped : ∀ n p, ¬ Mapped (blank G).info n p := by
    rintro n p ⟨_, rfl, hne⟩
    exact hne rfl
  constructor
  · rfl
  · exact Nat.le_refl 1
  · exact Nat.le_of_succ_le hswap.1
  · exact fits.blocks_pos
  · rfl
  · exact fun _ _ _ => rfl
  · intro p _ _
    rw [live_blank]
    exact iff_of_false (by decide) fun ⟨n, hm⟩ => hunmapped n p hm
  · exact fun n p hm => absurd hm (hunmapped n p)
  · exact fun n p hm => absurd hm (hunmapped n p)

/-- The first number is the number of zones. -/
theorem next_blank (fits : FitsTables G) :
    (hodoGetNextLogicalNumber (blank G).info).1 = G.hodoNrZones := by
  have hle := fits.zones_le
  rw [numberZones_eq] at hle
  have hfree : ∀ k, allocated (blank G).info k = false := fun k => testBit_full false (k % 32)
  rcases getNext_cases (blank G).info with ⟨k, _, _, hbefore, heq⟩ | ⟨hfull, _⟩
  · have hk : k = 0 := by
      by_contra hne
      have htaken := hbefore 0 (Nat.pos_of_ne_zero hne)
      rw [hfree] at htaken
      cases htaken
    rw [heq, hk]
    exact Nat.mod_eq_of_lt (show G.hodoNrZones < 2 ^ 32 by omega)
  · have htaken := hfull 0 (by rw [numberMappingTableEntry_eq]; omega)
    rw [hfree] at htaken
    cases htaken

theorem firstMount_write (fits : FitsTables G) (stack : Block) (uid gid : Nat) :
    firstMount G stack uid gid =
      (hodoWriteStruct G ioOk { blank G with info := (hodoGetNextLogicalNumber (blank G).info).2 }
        (some (rootInode stack G.hodoNrZones uid gid)) hodoDatablockSize G.hodoNrZones).volume := by
  have hmount : firstMount G stack uid gid =
      (hodoWriteStruct G ioOk { blank G with info := (hodoGetNextLogicalNumber (blank G).info).2 }
        (some (rootInode stack (hodoGetNextLogicalNumber (blank G).info).1 uid gid))
        hodoDatablockSize (hodoGetNextLogicalNumber (blank G).info).1).volume := by
    rw [firstMount, hodoInit_eq, if_pos ⟨rfl, rfl⟩]
    rfl
  rw [hmount, next_blank fits]

theorem logged_firstMount (fits : FitsTables G) (stack : Block) (uid gid : Nat) :
    Logged G (firstMount G stack uid gid) := by
  have hswap := fits.swap
  have hge := fits.zones_ge
  have hle := fits.zones_le
  rw [numberZones_eq] at hle
  rw [firstMount_write fits]
  have h := logged_next (logged_blank fits)
  refine logged_write fits h ?_ (names_rootInode stack (by omega) uid gid) ?_
  · rw [InTable, tableIndex, h.starting, numberMappingTableEntry_eq]
    omega
  · rw [getNext_wp]
    change 1 < swapZone G
    omega

/-- Bits, table and blocks agree after any run of writes. -/
theorem logged_run (fits : FitsTables G) (stack : Block) (uid gid : Nat) {cs : List LogCall}
    (each : EachCall (callStep G) (Logs G) cs (firstMount G stack uid gid)) :
    ∃ as v, run (callStep G) cs (firstMount G stack uid gid) = some (as, v) ∧ Logged G v :=
  run_total (Logs G) (Logged G) (fun _ _ h logs => logged_call fits h logs)
    (logged_firstMount fits stack uid gid) each

end

end DeviceLogs
