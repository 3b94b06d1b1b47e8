import HodoZns.LogStore

/-!
# When the collector's resets are safe

After any run of writes the resets of a collection all meet unused zones if and
only if no prefix of the zones holds more live blocks than its batches. A zone has one
block more than a batch, so a zone full of live blocks is reset too early.
-/

namespace ResetSafety

open ByteBlock BitmapWords Layout BlockLog ZoneLog NumberAllocator Collector CallRuns LogCalls
open WritePointers SequentialWrites Consistency Relocation BlockPacking GCOutcome LogStore

/-- Writes of blocks that name their number, which is new or was handed out. -/
def Polite (v : Volume) : LogCall → Prop
  | .next => True
  | .write buf len n =>
    len = hodoDatablockSize ∧ ∃ b, buf = some b ∧
      (n = 0 ∧ FreeNumber v.info ∧ Names b (hodoGetNextLogicalNumber v.info).1 ∨
        InTable v.info n ∧ allocated v.info (tableIndex v.info n) = true ∧ Names b n)
  | _ => False

theorem storeStep_of_polite {v : Volume} {s : Store} {c : LogCall} (h : Represents v s)
    (polite : Polite v c) : ∃ a s', storeStep s c = some (a, s') := by
  cases c with
  | next => exact ⟨_, _, rfl⟩
  | read => cases polite
  | erase => cases polite
  | gc => cases polite
  | write buf len n =>
    obtain ⟨hlen, b, rfl, ⟨rfl, free, names⟩ | ⟨hin, halloc, names⟩⟩ := polite
    · rw [(represents_getNext h).1] at names
      have hput : s.put b 0 = some (s.next.1, stamp b s.next.1,
          { s.next.2 with
            content := update s.next.2.content s.next.1 (some (stamp b s.next.1)) }) := by
        rw [Store.put, Store.choose, if_pos rfl, if_neg (h.not_full free)]
        simp only [if_pos names]
      exact ⟨_, _, by rw [storeStep, if_pos hlen, hput]; rfl⟩
    · have hused : s.used n := by
        have hcount := (h.allocated_iff _ hin.2).mp halloc
        rw [h.inTable] at hin
        simp only [tableIndex, h.consistent.starting, numberMappingTableEntry_eq] at hcount hin
        refine ⟨by rw [h.base]; omega, by rw [h.base]; omega⟩
      have hput : s.put b n = some (n, stamp b n,
          { s with content := update s.content n (some (stamp b n)) }) := by
        rw [Store.put, Store.choose, if_neg (h.consistent.ne_zero hin), if_pos hused]
        simp only [if_pos names]
      exact ⟨_, _, by rw [storeStep, if_pos hlen, hput]; rfl⟩

/-- The write pointer never moves back, and stops at the first zone without a file. -/
theorem hodoWriteStruct_wp (v : Volume) (hle : v.info.wp.zoneId ≤ 15) (buf : Option Block)
    (len n : Nat) :
    v.info.wp.zoneId ≤
        (hodoWriteStruct standardGeometry ioOk v buf len n).volume.info.wp.zoneId ∧
      (hodoWriteStruct standardGeometry ioOk v buf len n).volume.info.wp.zoneId ≤ 15 := by
  cases buf with
  | none => exact ⟨Nat.le_refl _, hle⟩
  | some b =>
    simp only [hodoWriteStruct_some]
    split
    · exact ⟨Nat.le_refl _, hle⟩
    · by_cases hz : v.info.wp.zoneId ≤ 14
      · simp only [filpOpen_ok hz, setWp, nextWp]
        split
        · rw [u16_of_lt (by omega)]
          simp only
          omega
        · exact ⟨Nat.le_refl _, hle⟩
      · have hopen : filpOpen standardGeometry ioOk v.info.wp.zoneId = some eNoEnt := by
          rw [show v.info.wp.zoneId = 15 by omega]
          rfl
        simp only [hopen, recordWrite_wp]
        exact ⟨Nat.le_refl _, hle⟩

theorem hodoWriteStruct_safe (G : Geometry) (r : IoResult) {v : Volume} (buf : Option Block)
    (len n : Nat) (safe : ∀ e ∈ v.trace, SafeReset e) :
    ∀ e ∈ (hodoWriteStruct G r v buf len n).volume.trace, SafeReset e := by
  cases buf with
  | none => exact safe
  | some b =>
    simp only [hodoWriteStruct_some]
    split
    · exact safe
    · cases filpOpen G r v.info.wp.zoneId with
      | some e => exact safe
      | none =>
        intro e he
        rcases List.mem_cons.mp he with rfl | he
        · trivial
        · exact safe e he

/-- What a run of writes keeps, up to the end of the data zones. -/
structure WriteRun (v : Volume) : Prop where
  zone_pos : 1 ≤ v.info.wp.zoneId
  zone_le : v.info.wp.zoneId ≤ 15
  represents : v.info.wp.zoneId ≤ 13 → ∃ s, Represents v s
  safe : ∀ e ∈ v.trace, SafeReset e

theorem writeRun_call {v : Volume} {c : LogCall} (h : WriteRun v) (polite : Polite v c) :
    ∃ a v', callStep standardGeometry v c = some (a, v') ∧ WriteRun v' := by
  have hpos := h.zone_pos
  have hzone := h.zone_le
  cases c with
  | read => cases polite
  | erase => cases polite
  | gc => cases polite
  | next =>
    refine ⟨_, _, callStep_next _ v, by rw [getNext_wp]; exact hpos,
      by rw [getNext_wp]; exact hzone, fun hz => ?_, h.safe⟩
    rw [getNext_wp] at hz
    obtain ⟨s, hs⟩ := h.represents hz
    exact ⟨_, (represents_getNext hs).2⟩
  | write buf len n =>
    obtain ⟨hle, hend⟩ := hodoWriteStruct_wp v hzone buf len n
    refine ⟨_, _, callStep_write _ v buf len n, by omega, hend, fun hz => ?_,
      hodoWriteStruct_safe standardGeometry ioOk buf len n h.safe⟩
    obtain ⟨s, hs⟩ := h.represents (Nat.le_trans hle hz)
    obtain ⟨a, s', hstep⟩ := storeStep_of_polite hs polite
    obtain ⟨v', hcall, hs'⟩ := call_simulates (c := .write buf len n) hs
      ⟨hpos, Nat.le_trans hle hz⟩ hstep
    obtain ⟨_, rfl⟩ := Prod.mk.inj (Option.some.inj hcall)
    exact ⟨s', hs'⟩

theorem writeRun_firstMount (stack : Block) (uid gid : Nat) :
    WriteRun (firstMount standardGeometry stack uid gid) := by
  refine ⟨(aligned_firstMount stack uid gid).zone_pos, ?_, fun _ =>
    ⟨_, represents_firstMount stack uid gid⟩, ?_⟩
  · rw [firstMount_eq]
    exact (hodoWriteStruct_wp _ (by rw [getNext_wp]; decide) _ _ _).2
  · rw [firstMount_eq]
    exact hodoWriteStruct_safe _ _ _ _ _ fun e he => by cases he

/-- A collection after a run resets no zone in use, exactly when that is sparse. -/
theorem gc_safe_iff {v : Volume} (h : WriteRun v) (data : WpInData v) (kmem : Block) :
    ∃ v', GC standardGeometry kmem v = some v' ∧
      ((∀ e ∈ v'.trace, SafeReset e) ↔ Sparse v.info) := by
  obtain ⟨s, hs⟩ := h.represents data.2
  obtain ⟨v', hgc, _, ⟨sparse, done, hpacked⟩ | ⟨crowded, e, he, hbad⟩⟩ :=
    GC_outcome ⟨hs.aligned.clearAhead, hs.consistent, data.2⟩ kmem
  · refine ⟨v', hgc, iff_of_true (fun e he => ?_) sparse⟩
    rcases hpacked.safe e he with he | he
    · exact h.safe e he
    · exact he
  · exact ⟨v', hgc, iff_of_false (fun safe => hbad (safe e he)) crowded⟩

/-- For every run of writes from a first mount, and a collection after it. -/
theorem resets_safe_iff (stack : Block) (uid gid : Nat) (cs : List LogCall) (kmem : Block)
    (calls : EachCall (callStep standardGeometry) Polite cs
      (firstMount standardGeometry stack uid gid)) :
    ∃ as v, run (callStep standardGeometry) cs (firstMount standardGeometry stack uid gid) =
        some (as, v) ∧
      (WpInData v → ∃ v', GC standardGeometry kmem v = some v' ∧
        ((∀ e ∈ v'.trace, SafeReset e) ↔ Sparse v.info)) := by
  obtain ⟨as, v, hrun, h⟩ := run_total Polite WriteRun
    (fun v c h polite => writeRun_call h polite) (writeRun_firstMount stack uid gid) calls
  exact ⟨as, v, hrun, fun data => gc_safe_iff h data kmem⟩

theorem isDat_emptyData : isDat emptyData = true := by decide +kernel

/-- A run of one write, and the collection after it. -/
theorem resets_safe_one_write : ∃ as v v', run (callStep standardGeometry)
      [.write (some emptyData) 4096 0] (firstMount standardGeometry zeros 0 0) = some (as, v) ∧
    GC standardGeometry zeros v = some v' ∧
      ((∀ e ∈ v'.trace, SafeReset e) ↔ Sparse v.info) := by
  obtain ⟨as, v, hrun, collected⟩ :=
    resets_safe_iff zeros 0 0 [.write (some emptyData) 4096 0] zeros
    ⟨⟨by simp, emptyData, rfl, Or.inl ⟨rfl, ⟨1, by decide +kernel, by decide +kernel⟩,
      Or.inl isDat_emptyData⟩⟩, fun _ _ _ => trivial⟩
  have data : WpInData v := by
    obtain ⟨_, rfl⟩ := Prod.mk.inj (Option.some.inj hrun)
    decide +kernel
  obtain ⟨v', hgc, safe⟩ := collected data
  exact ⟨as, v, v', hrun, hgc, safe⟩

/-- After `i` blocks under new numbers, none of them written twice. -/
structure Filled (i : Nat) (v : Volume) : Prop where
  represents : ∃ s, Represents v s ∧ s.count = i
  wp : v.info.wp = if i < blocksPerZone then ⟨1, i⟩ else ⟨2, 0⟩
  entry : ∀ k, k < i → tableEntry v.info (16 + k) = ⟨1, k⟩

theorem filled_firstMount : Filled 1 (firstMount standardGeometry zeros 0 0) := by
  refine ⟨⟨_, represents_firstMount zeros 0 0, rfl⟩, ?_, fun k hk => ?_⟩
  · rw [if_pos (by simp)]
    decide +kernel
  · obtain rfl : k = 0 := by omega
    decide +kernel

theorem filled_write {i : Nat} {v : Volume} (h : Filled i v) (hi : i < blocksPerZone) :
    Polite v (.write (some emptyData) 4096 0) ∧
    ∃ a v', callStep standardGeometry v (.write (some emptyData) 4096 0) = some (a, v') ∧
      Filled (i + 1) v' := by
  obtain ⟨s, hs, hcount⟩ := h.represents
  have hwp : v.info.wp = ⟨1, i⟩ := by rw [h.wp, if_pos hi]
  have data : WpInData v := by simp [WpInData, hwp]
  have hfree : s.count < numberMappingTableEntry := by
    simp only [blocksPerZone_eq] at hi
    simp only [numberMappingTableEntry_eq]
    omega
  have free : FreeNumber v.info := by
    refine ⟨s.count, hfree, ?_⟩
    cases halloc : allocated v.info s.count with
    | false => rfl
    | true => exact absurd ((hs.allocated_iff _ hfree).mp halloc) (Nat.lt_irrefl _)
  have hput : s.put emptyData 0 = some (16 + i, stamp emptyData (16 + i),
      { s with
        count := s.count + 1
        content := update s.content (16 + i) (some (stamp emptyData (16 + i))) }) := by
    rw [Store.put, Store.choose, if_pos rfl, if_neg (hs.not_full free), Store.next,
      if_neg (hs.not_full free), hs.base, hcount]
    simp only [if_pos (show Names emptyData (16 + i) from Or.inl isDat_emptyData)]
  obtain ⟨v', hwrite, hs', written⟩ := represents_write hs data hput
  rw [hodoDatablockSize_eq] at hwrite
  refine ⟨⟨by simp, emptyData, rfl, Or.inl ⟨rfl, free, Or.inl isDat_emptyData⟩⟩,
    _, v', by rw [callStep_write, hwrite], ⟨⟨_, hs', by simp only [hcount]⟩, ?_, fun k hk => ?_⟩⟩
  · rw [written.wp, hwp, nextWp_eq (by simp only; omega) hi]
    by_cases hlast : i + 1 = blocksPerZone
    · rw [if_pos hlast, if_neg (by omega)]
    · rw [if_neg hlast, if_pos (by omega)]
  · have hin : InTable v.info (16 + k) := by
      rw [hs.inTable]
      omega
    rw [written.entry _ hin]
    by_cases hk' : k = i
    · rw [if_pos (by rw [hk']), hwp, hk']
    · rw [if_neg (by omega)]
      exact h.entry k (by omega)

theorem filled_writes (m : Nat) {i : Nat} {v : Volume} (h : Filled i v)
    (hi : i + m ≤ blocksPerZone) :
    EachCall (callStep standardGeometry) Polite
      (List.replicate m (.write (some emptyData) 4096 0)) v ∧
    ∃ as v', run (callStep standardGeometry)
      (List.replicate m (.write (some emptyData) 4096 0)) v = some (as, v') ∧
      Filled (i + m) v' := by
  induction m generalizing i v with
  | zero => exact ⟨trivial, [], v, rfl, h⟩
  | succ m ih =>
    obtain ⟨polite, a, v', hstep, h'⟩ := filled_write h (by omega)
    obtain ⟨calls, as, v'', hrun, h''⟩ := ih h' (by omega)
    refine ⟨⟨polite, fun a₁ v₁ hstep₁ => ?_⟩, a :: as, v'', ?_, ?_⟩
    · rw [hstep] at hstep₁
      obtain ⟨_, rfl⟩ := Prod.mk.inj (Option.some.inj hstep₁)
      exact calls
    · rw [List.replicate_succ, run_cons hstep, hrun]
      rfl
    · rwa [show i + (m + 1) = i + 1 + m by omega]

theorem filled_crowded {v : Volume} (h : Filled blocksPerZone v) :
    WpInData v ∧ ¬ Sparse v.info := by
  have hwp : v.info.wp = ⟨2, 0⟩ := by rw [h.wp, if_neg (Nat.lt_irrefl _)]
  have data : WpInData v := by
    rw [WpInData, hwp]
    decide
  refine ⟨data, fun sparse => ?_⟩
  obtain ⟨s, hs, _⟩ := h.represents
  have hcount := sparse 1 (Nat.le_refl 1) (by decide)
  have hlive := oldPositions_live ⟨hs.aligned.clearAhead, hs.consistent, data.2⟩
    ((List.range blocksPerZone).map fun k => 16 + k) 1 (fun n hn => ?_)
    (List.Nodup.map (fun a b hab => by simpa using hab) List.nodup_range)
  · rw [List.length_map, List.length_range] at hlive
    simp only [blocksPerZone_eq] at hlive hcount
    omega
  · obtain ⟨k, hk, rfl⟩ := List.mem_map.mp hn
    have hentry := h.entry k (List.mem_range.mp hk)
    have hin : InTable v.info (16 + k) := by
      rw [hs.inTable]
      have hlt := List.mem_range.mp hk
      simp only [blocksPerZone_eq, numberMappingTableEntry_eq] at hlt ⊢
      omega
    rw [hentry]
    exact ⟨⟨hin, hentry, by simp⟩, Nat.le_refl 1⟩

/-- 65535 new blocks behind the root inode fill the first zone; the collection
that follows resets it while its last block is still mapped there. -/
def fullZoneRun : List LogCall := List.replicate 65535 (.write (some emptyData) 4096 0)

theorem fullZoneRun_unsafe :
    EachCall (callStep standardGeometry) Polite fullZoneRun
      (firstMount standardGeometry zeros 0 0) ∧
    ∃ as v v', run (callStep standardGeometry) fullZoneRun (firstMount standardGeometry zeros 0 0) =
        some (as, v) ∧ WpInData v ∧ GC standardGeometry zeros v = some v' ∧
      ∃ e ∈ v'.trace, ¬ SafeReset e := by
  obtain ⟨calls, as, v, hrun, hfilled⟩ :=
    filled_writes 65535 filled_firstMount (by rw [blocksPerZone_eq])
  rw [show 1 + 65535 = blocksPerZone from blocksPerZone_eq.symm] at hfilled
  obtain ⟨data, crowded⟩ := filled_crowded hfilled
  obtain ⟨s, hs, _⟩ := hfilled.represents
  obtain ⟨v', hgc, _, ⟨sparse, _⟩ | ⟨_, hbad⟩⟩ :=
    GC_outcome ⟨hs.aligned.clearAhead, hs.consistent, data.2⟩ zeros
  · exact absurd sparse crowded
  · exact ⟨calls, as, v, v', hrun, data, hgc, hbad⟩

end ResetSafety
