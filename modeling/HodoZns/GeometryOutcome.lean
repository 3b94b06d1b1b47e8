import HodoZns.DeviceLogs
import HodoZns.ShortCollections
import HodoZns.WholeZones

/-!
# On which devices the collector loses nothing

The swap zone counts as full at `BLOCKS_PER_ZONE`, whatever the device, while the
writer stops at the end of its zones. Only where the two agree, or where the live
blocks do not fill a zone, does every mapped number read the same afterwards.
-/

namespace GeometryOutcome

open ByteBlock BitmapWords Layout BlockLog ZoneLog NumberAllocator CallRuns Collector LogCalls
open SequentialWrites Consistency BlockPacking Geometries Rewrites CollectorStates
open DeviceLogs ShortZones ShortCollections WholeZones

theorem liveData_eq (G : Geometry) (m : MappingInfo) :
    liveData G m = liveCount m (G.hodoNrZones - 3) := by
  rw [liveData, swapZone, Nat.sub_sub]
  rfl

theorem gc_keeps_reads_iff {G : Geometry} (fits : FitsTables G) {v : Volume}
    (state : CollectorState G v) (kmem : Block) :
    KeepsReads G kmem v ↔
      zoneBlocks G = blocksPerZone ∨ liveCount v.info (G.hodoNrZones - 3) < zoneBlocks G := by
  have hle := fits.blocks_le
  have hge := fits.zones_ge
  have hcount := liveData_eq G v.info
  by_cases whole : zoneBlocks G = blocksPerZone
  · exact iff_of_true (keepsReads_of_whole fits whole state kmem) (Or.inl whole)
  · have short : zoneBlocks G < blocksPerZone := by
      rw [blocksPerZone_eq] at whole ⊢
      omega
    rw [or_iff_right whole, ← hcount]
    constructor
    · intro kept
      by_contra many
      have hsparse := state.sparse (G.hodoNrZones - 3) (by omega) (Nat.le_refl _)
      have hpos := fits.blocks_pos
      have two : 2 ≤ zoneBlocks G := by
        by_contra hone
        rw [← hcount, show zoneBlocks G - 1 = 0 by omega, Nat.mul_zero] at hsparse
        omega
      exact not_keepsReads_of_many fits short state two (Nat.le_of_not_lt many) kmem kept
    · exact fun few => keepsReads_of_few fits short state few kmem

def smallDevice : Geometry := ⟨5, 2 * hodoDatablockSize⟩

theorem smallDevice_fits : FitsTables smallDevice := by decide +kernel

section

variable {m : MappingInfo} {r : Nat} {s : Finset (Nat × Nat)}

theorem liveCount_le_card (h : ∀ z i, 1 ≤ z → z ≤ r → live m z i = true → (z, i) ∈ s) :
    liveCount m r ≤ s.card := by
  refine Finset.card_le_card fun x hx => ?_
  obtain ⟨⟨ha, hq⟩, _, hlive⟩ := mem_between.mp hx
  exact h x.1 x.2 ha hq hlive

theorem card_le_liveCount (h : ∀ x ∈ s, (1 ≤ x.1 ∧ x.1 ≤ r) ∧ x.2 < blocksPerZone ∧
    live m x.1 x.2 = true) : s.card ≤ liveCount m r :=
  Finset.card_le_card fun x hx => mem_between.mpr (h x hx)

end

/-- After the mount the only live block is the root inode. -/
theorem live_firstMount_iff {G : Geometry} (fits : FitsTables G) (stack : Block) (uid gid : Nat)
    (x : BlockPos) :
    live (firstMount G stack uid gid).info x.zoneId x.blockIndex = true ↔ x = ⟨1, 0⟩ := by
  have hswap := fits.swap
  have hge := fits.zones_ge
  have h := logged_next (logged_blank fits)
  obtain ⟨hrew, _⟩ := hodoWriteStruct_rewrites fits (rootInode stack G.hodoNrZones uid gid)
    (show G.hodoNrZones ≠ 0 by omega) h.wp_le h.wp_index
  have hentry : tableEntry (hodoGetNextLogicalNumber (blank G).info).2 G.hodoNrZones = ⟨0, 0⟩ := by
    rcases getNext_cases (blank G).info with ⟨k, _, _, _, heq⟩ | ⟨_, heq⟩
    · rw [heq]
      rfl
    · rw [heq]
      rfl
  have hclear : live (hodoGetNextLogicalNumber (blank G).info).2 x.zoneId x.blockIndex = false := by
    rw [live, getNext_gcBitmap]
    exact live_blank G x.zoneId x.blockIndex
  rw [firstMount_write fits, hrew.entered.live_iff, hentry, hclear, getNext_wp]
  constructor
  · rintro ⟨_, he | hold⟩
    · exact he
    · cases hold
  · rintro rfl
    exact ⟨by decide, Or.inl rfl⟩

theorem smallDevice_blocks : zoneBlocks smallDevice = 2 := by decide

/-- The pairs are the positions whose bits are set. -/
def Marks (v : Volume) (s : Finset (Nat × Nat)) : Prop :=
  ∀ z i, live v.info z i = true ↔ (z, i) ∈ s

/-- A write sets the bit at the pointer, then clears that of the number's old position. -/
def marksAfter (v : Volume) (s : Finset (Nat × Nat)) : LogCall → Finset (Nat × Nat)
  | .write _ _ n =>
    let old := tableEntry v.info n
    (insert (v.info.wp.zoneId, v.info.wp.blockIndex) s).erase (old.zoneId, old.blockIndex)
  | _ => s

def marksRun (G : Geometry) : List LogCall → Volume → Finset (Nat × Nat) → Finset (Nat × Nat)
  | [], _, s => s
  | c :: cs, v, s =>
    match callStep G v c with
    | none => s
    | some (_, v') => marksRun G cs v' (marksAfter v s c)

section

variable {G : Geometry} {v v' : Volume} {s : Finset (Nat × Nat)} {c : LogCall} {cs : List LogCall}
  {a : Answer} {as : List Answer}

theorem marks_firstMount (fits : FitsTables G) (stack : Block) (uid gid : Nat) :
    Marks (firstMount G stack uid gid) {(1, 0)} := by
  intro z i
  rw [live_firstMount_iff fits stack uid gid ⟨z, i⟩, Finset.mem_singleton, BlockPos.mk.injEq,
    Prod.mk.injEq]

theorem marks_call (fits : FitsTables G) (h : Logged G v) (marks : Marks v s) (logs : Logs G v c)
    (hstep : callStep G v c = some (a, v')) : Marks v' (marksAfter v s c) := by
  intro z i
  cases c with
  | next =>
    rw [callStep_next] at hstep
    obtain ⟨_, rfl⟩ := Prod.mk.inj (Option.some.inj hstep)
    rw [live, getNext_gcBitmap]
    exact marks z i
  | read n buf len =>
    rw [callStep_read logs] at hstep
    obtain ⟨_, rfl⟩ := Prod.mk.inj (Option.some.inj hstep)
    exact marks z i
  | write buf len n =>
    cases buf with
    | none => exact logs.elim
    | some b =>
      obtain ⟨rfl, hn, _, _⟩ := logs
      obtain ⟨_, rfl⟩ := Prod.mk.inj (Option.some.inj hstep)
      obtain ⟨hrew, _⟩ := hodoWriteStruct_rewrites fits b (h.ne_zero fits hn) h.wp_le h.wp_index
      refine (hrew.entered.live_iff ⟨z, i⟩).trans ?_
      rw [marksAfter]
      obtain ⟨zone, index⟩ := v.info.wp
      obtain ⟨zone', index'⟩ := tableEntry v.info n
      simp only [Finset.mem_erase, Finset.mem_insert, BlockPos.mk.injEq, Prod.mk.injEq, ne_eq,
        marks z i]
  | erase n => exact logs.elim
  | gc kmem => exact logs.elim

theorem marks_run (fits : FitsTables G) (h : Logged G v) (marks : Marks v s)
    (each : EachCall (callStep G) (Logs G) cs v) (hrun : run (callStep G) cs v = some (as, v')) :
    Marks v' (marksRun G cs v s) := by
  induction cs generalizing v s as with
  | nil =>
    obtain ⟨_, rfl⟩ := Prod.mk.inj (Option.some.inj hrun)
    exact marks
  | cons c cs ih =>
    obtain ⟨a, v₁, hstep, h₁⟩ := logged_call fits h each.1
    rw [run_cons hstep, Option.map_eq_some_iff] at hrun
    obtain ⟨⟨as', v₂⟩, hrest, heq⟩ := hrun
    obtain ⟨_, rfl⟩ := Prod.mk.inj heq
    rw [marksRun, hstep]
    exact ih h₁ (marks_call fits h marks each.1 hstep) (each.2 a v₁ hstep) hrest

theorem Marks.liveCount_le (marks : Marks v s) (r : Nat) :
    liveCount v.info r ≤ (s.filter fun x => x.1 ≤ r).card :=
  liveCount_le_card fun z i _ hz hl => Finset.mem_filter.mpr ⟨(marks z i).mp hl, hz⟩

end

/-- Two data zones of four blocks. -/
def widerDevice : Geometry := ⟨5, 4 * hodoDatablockSize⟩

theorem widerDevice_fits : FitsTables widerDevice := by decide +kernel

/-- Two inodes under new numbers; the root inode is written again before and after the second. -/
def threeInodes : List LogCall :=
  [.next, .write (some (rootInode zeros 6 0 0)) hodoDatablockSize 6,
    .write (some (rootInode zeros 5 0 0)) hodoDatablockSize 5, .next,
    .write (some (rootInode zeros 7 0 0)) hodoDatablockSize 7,
    .write (some (rootInode zeros 5 0 0)) hodoDatablockSize 5]

/-- Three live blocks, dead ones before each of them, go through the swap zone and back. -/
theorem gc_keeps_three_inodes : ∃ as v,
    run (callStep widerDevice) threeInodes (firstMount widerDevice zeros 0 0) = some (as, v) ∧
      as.map (·.number) = [6, 6, 5, 7, 7, 5] ∧ Marks v {(1, 1), (1, 3), (2, 0)} ∧
      KeepsReads widerDevice zeros v := by
  have each : EachCall (callStep widerDevice) (Logs widerDevice) threeInodes
      (firstMount widerDevice zeros 0 0) := by
    decide +kernel
  obtain ⟨as, v, hrun, logged⟩ := logged_run widerDevice_fits zeros 0 0 each
  have marks := marks_run widerDevice_fits (logged_firstMount widerDevice_fits zeros 0 0)
    (marks_firstMount widerDevice_fits zeros 0 0) each hrun
  rw [show marksRun widerDevice threeInodes (firstMount widerDevice zeros 0 0) {(1, 0)} =
    {(1, 1), (1, 3), (2, 0)} by decide +kernel] at marks
  have hblocks : zoneBlocks widerDevice = 4 := by decide
  have hwp : v.info.wp = ⟨2, 1⟩ := by
    obtain ⟨_, rfl⟩ := Prod.mk.inj (Option.some.inj hrun)
    decide +kernel
  have hcount : ∀ r, liveCount v.info r ≤ 3 := fun r =>
    (marks.liveCount_le r).trans (Finset.card_filter_le _ _)
  refine ⟨as, v, hrun, ?_, marks, (gc_keeps_reads_iff widerDevice_fits ?_ zeros).mpr (Or.inr ?_)⟩
  · obtain ⟨rfl, _⟩ := Prod.mk.inj (Option.some.inj hrun)
    decide +kernel
  · refine logged.collectorState (by rw [hwp]; decide) fun r hr _ => ?_
    have hr' := hcount r
    rw [hblocks]
    omega
  · rw [hblocks]
    exact Nat.lt_succ_of_le (hcount _)

/-- The root inode is written again, then an inode under a new number. -/
def twoInodes : List LogCall :=
  [.write (some (rootInode zeros 5 0 0)) hodoDatablockSize 5, .next,
    .write (some (rootInode zeros 6 0 0)) hodoDatablockSize 6]

/-- Each of the data zones then holds one live block. -/
theorem twoInodes_run : ∃ as v,
    run (callStep smallDevice) twoInodes (firstMount smallDevice zeros 0 0) = some (as, v) ∧
      as.map (·.number) = [5, 6, 6] ∧ Logged smallDevice v ∧ v.info.wp = ⟨2, 1⟩ ∧
      Marks v {(1, 1), (2, 0)} := by
  have each : EachCall (callStep smallDevice) (Logs smallDevice) twoInodes
      (firstMount smallDevice zeros 0 0) := by
    decide +kernel
  obtain ⟨as, v, hrun, logged⟩ := logged_run smallDevice_fits zeros 0 0 each
  have marks := marks_run smallDevice_fits (logged_firstMount smallDevice_fits zeros 0 0)
    (marks_firstMount smallDevice_fits zeros 0 0) each hrun
  rw [show marksRun smallDevice twoInodes (firstMount smallDevice zeros 0 0) {(1, 0)} =
    {(1, 1), (2, 0)} by decide +kernel] at marks
  refine ⟨as, v, hrun, ?_, logged, ?_, marks⟩
  · obtain ⟨rfl, _⟩ := Prod.mk.inj (Option.some.inj hrun)
    decide +kernel
  · obtain ⟨_, rfl⟩ := Prod.mk.inj (Option.some.inj hrun)
    decide +kernel

/-- On a small device the second live block is lost. -/
theorem gc_loses_second_inode : FitsTables smallDevice ∧ ∃ as v,
    run (callStep smallDevice) twoInodes (firstMount smallDevice zeros 0 0) = some (as, v) ∧
      as.map (·.number) = [5, 6, 6] ∧ CollectorState smallDevice v ∧
      ∀ kmem, ¬ KeepsReads smallDevice kmem v := by
  obtain ⟨as, v, hrun, hnumbers, logged, hwp, marks⟩ := twoInodes_run
  have state : CollectorState smallDevice v := by
    refine logged.collectorState (by rw [hwp]; decide) fun r hr hle => ?_
    rw [smallDevice_blocks, Nat.mul_one]
    change r ≤ 2 at hle
    have hcard := marks.liveCount_le r
    obtain rfl | rfl : r = 1 ∨ r = 2 := by omega
    · exact hcard.trans (by decide)
    · exact hcard.trans (by decide)
  have many : ({(1, 1), (2, 0)} : Finset (Nat × Nat)).card ≤ liveCount v.info 2 := by
    refine card_le_liveCount fun x hx => ⟨?_, ?_, (marks x.1 x.2).mpr hx⟩
    · revert x
      decide
    · revert x
      rw [blocksPerZone_eq]
      decide
  refine ⟨smallDevice_fits, as, v, hrun, hnumbers, state, fun kmem => ?_⟩
  refine not_keepsReads_of_many smallDevice_fits ?_ state
    (Nat.le_of_eq smallDevice_blocks.symm) ?_ kmem
  · rw [smallDevice_blocks, blocksPerZone_eq]
    decide
  · rw [smallDevice_blocks, liveData_eq]
    exact many

end GeometryOutcome
