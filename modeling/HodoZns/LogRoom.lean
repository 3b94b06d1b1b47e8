import HodoZns.LogStore

/-!
# The end of the data zones

`hodo_write_struct` takes the next block of the log without a look at the zone it
lies in. The thirteen data zones hold `13 * BLOCKS_PER_ZONE` blocks, one of them
the root inode; the write after the last of them goes to the swap zone.
-/

namespace LogRoom

open ByteBlock BitmapWords Layout BlockLog ZoneLog NumberAllocator Collector CallRuns LogCalls
open WritePointers SequentialWrites Consistency LogStore

/-- Arguments that are refused, or a whole block under a new number or one of the table. -/
def Writes (v : Volume) : LogCall → Prop
  | .write buf len n =>
    (buf = none ∨ len = 0 ∨ hodoDatablockSize < len) ∨
      len = hodoDatablockSize ∧ (n = 0 ∧ FreeNumber v.info ∨ InTable v.info n)
  | _ => False

instance (v : Volume) (c : LogCall) : Decidable (Writes v c) := by
  cases c <;> unfold Writes <;> infer_instance

/-- The arguments pass the checks, so that the call takes a block of the log. -/
def takesBlock : LogCall → Bool
  | .write (some _) len _ => len ≠ 0 ∧ len ≤ hodoDatablockSize
  | _ => false

/-- The call failed and recorded nothing, or recorded its block in a data zone; the
swap zone is empty. -/
def InDataZones (v : Volume) (a : Answer) (v' : Volume) : Prop :=
  (a.ret < 0 ∧ v'.info = v.info ∨
    tableEntry v'.info a.number = v.info.wp ∧ WpInData v) ∧
  v.info.wp.zoneId < numberZones ∧ v'.dev 14 = []

/-- The log holds `k` blocks. -/
structure HoldsBlocks (k : Nat) (v : Volume) : Prop where
  aligned : Aligned v
  wp : v.info.wp = ⟨1 + k / blocksPerZone, k % blocksPerZone⟩

theorem holdsBlocks_firstMount (stack : Block) (uid gid : Nat) :
    HoldsBlocks 1 (firstMount standardGeometry stack uid gid) := by
  have written := (firstMount_written stack uid gid).2
  refine ⟨aligned_firstMount stack uid gid, ?_⟩
  have hwp : (hodoGetNextLogicalNumber unwritten.info).2.wp = ⟨1, 0⟩ := getNext_wp _
  rw [written.wp]
  simp only [hwp]
  rw [nextWp_eq (by decide) (by simp), blocksPerZone_eq]
  rfl

theorem HoldsBlocks.zone_lt {k : Nat} {v : Volume} (h : HoldsBlocks k v)
    (hk : k ≤ 13 * blocksPerZone) : v.info.wp.zoneId < numberZones := by
  rw [h.wp, numberZones_eq]
  simp only [blocksPerZone_eq] at hk ⊢
  omega

theorem HoldsBlocks.swap_empty {k : Nat} {v : Volume} (h : HoldsBlocks k v)
    (hk : k ≤ 13 * blocksPerZone) : v.dev 14 = [] := by
  have hwp := h.wp
  simp only [blocksPerZone_eq] at hk hwp
  rcases Nat.lt_or_ge v.info.wp.zoneId 14 with hlt | hge
  · exact h.aligned.ahead 14 hlt (Nat.le_refl _)
  · have hlen := h.aligned.at_wp
    have hfull : k / 65536 = 13 ∧ k % 65536 = 0 := by
      rw [hwp] at hge
      simp only at hge
      omega
    rw [hwp, hfull.1, hfull.2] at hlen
    exact List.length_eq_zero_iff.mp hlen

theorem nextWp_holds {k : Nat} (hk : k ≤ 13 * blocksPerZone) :
    nextWp standardGeometry ⟨1 + k / blocksPerZone, k % blocksPerZone⟩ hodoDatablockSize =
      ⟨1 + (k + 1) / blocksPerZone, (k + 1) % blocksPerZone⟩ := by
  simp only [blocksPerZone_eq] at hk
  rw [nextWp_eq (by simp only [blocksPerZone_eq]; omega) (by simp only [blocksPerZone_eq]; omega)]
  simp only [blocksPerZone_eq]
  split <;> simp only [BlockPos.mk.injEq] <;> omega

/-- What a write under the arguments of the callers does at block `k` of the log. -/
theorem write_takes {k : Nat} {v : Volume} (h : HoldsBlocks k v) (hk : k ≤ 13 * blocksPerZone)
    (b : Block) (n : Nat) :
    ∃ a v', callStep standardGeometry v (.write (some b) hodoDatablockSize n) = some (a, v') ∧
      a.ret = 4096 ∧ tableEntry v'.info a.number = v.info.wp ∧
      (k < 13 * blocksPerZone → HoldsBlocks (k + 1) v') := by
  have hwp := h.wp
  have hz : v.info.wp.zoneId ≤ 14 := by
    rw [hwp]
    simp only [blocksPerZone_eq] at hk ⊢
    omega
  have hwrite := hodoWriteStruct_ok b n hz h.aligned.at_wp h.aligned.index_lt
  refine ⟨_, _, callStep_write _ v (some b) _ n, by rw [hwrite], ?_, fun hlt => ⟨?_, ?_⟩⟩
  · rw [hwrite]
    simp only [setWp, appended, tableEntry, recordWrite, setTableEntry]
    exact update_same _ _ _
  · refine aligned_write h.aligned ?_ b n
    rw [hwp]
    simp only [blocksPerZone_eq] at hlt ⊢
    omega
  · rw [hwrite]
    simp only [setWp]
    rw [hwp]
    exact nextWp_holds hk

theorem refused_stays {v : Volume} {buf : Option Block} {len : Nat} (n : Nat)
    (refused : buf = none ∨ len = 0 ∨ hodoDatablockSize < len) :
    callStep standardGeometry v (.write buf len n) = some (⟨eInval, n, buf⟩, v) := by
  rw [callStep_write]
  cases buf with
  | none => rfl
  | some b =>
    have hlen : len = 0 ∨ hodoDatablockSize < len := by simpa using refused
    simp only [hodoWriteStruct_some, if_pos hlen]

theorem takesBlock_refused {buf : Option Block} {len : Nat} (n : Nat)
    (refused : buf = none ∨ len = 0 ∨ hodoDatablockSize < len) :
    takesBlock (.write buf len n) = false := by
  cases buf with
  | none => rfl
  | some b =>
    have hlen : len = 0 ∨ hodoDatablockSize < len := by simpa using refused
    simp only [takesBlock, decide_eq_false_iff_not]
    omega

/-- A run stays in the data zones exactly as long as they have blocks left. -/
theorem run_inDataZones {k : Nat} {v : Volume} {cs : List LogCall} (h : HoldsBlocks k v)
    (hk : k ≤ 13 * blocksPerZone) (calls : EachCall (callStep standardGeometry) Writes cs v) :
    EachStep (callStep standardGeometry) InDataZones cs v ↔
      k + cs.countP takesBlock ≤ 13 * blocksPerZone := by
  induction cs generalizing k v with
  | nil => exact iff_of_true trivial (by simpa using hk)
  | cons c cs ih =>
    obtain ⟨writes, hrest⟩ := calls
    cases c with
    | next => cases writes
    | read => cases writes
    | erase => cases writes
    | gc => cases writes
    | write buf len n =>
      by_cases refused : buf = none ∨ len = 0 ∨ hodoDatablockSize < len
      · have hstep := refused_stays (v := v) n refused
        have hrefused := takesBlock_refused n refused
        have hstays : InDataZones v ⟨eInval, n, buf⟩ v :=
          ⟨Or.inl ⟨show eInval < 0 by decide, rfl⟩, h.zone_lt hk, h.swap_empty hk⟩
        rw [eachStep_cons hstep, and_iff_right hstays,
          List.countP_cons_of_neg (by rw [hrefused]; decide)]
        exact ih h hk (hrest _ _ hstep)
      · obtain ⟨rfl, _⟩ := writes.resolve_left refused
        obtain ⟨b, rfl⟩ : ∃ b, buf = some b := Option.ne_none_iff_exists'.mp fun hnone =>
          refused (Or.inl hnone)
        obtain ⟨a, v', hstep, hret, hentry, hnext⟩ := write_takes h hk b n
        have htakes : takesBlock (.write (some b) hodoDatablockSize n) = true := by
          simp [takesBlock]
        rw [eachStep_cons hstep, List.countP_cons_of_pos htakes]
        rcases Nat.lt_or_ge k (13 * blocksPerZone) with hlt | hge
        · have h' := hnext hlt
          have hdata : WpInData v := by
            rw [WpInData, h.wp]
            simp only [blocksPerZone_eq] at hlt ⊢
            omega
          rw [and_iff_right ⟨Or.inr ⟨hentry, hdata⟩, h.zone_lt hk, h'.swap_empty hlt⟩,
            Nat.add_comm (cs.countP takesBlock), ← Nat.add_assoc]
          exact ih h' hlt (hrest _ _ hstep)
        · -- the data zones are full, and the block goes to the swap zone
          refine iff_of_false ?_ (by omega)
          rintro ⟨⟨⟨hneg, _⟩ | ⟨_, hdata⟩, _⟩, _⟩
          · rw [hret] at hneg
            exact absurd hneg (by decide)
          · have hle := hdata.2
            rw [h.wp] at hle
            simp only [blocksPerZone_eq] at hge hle
            omega

/-- For every run of writes from a first mount, of any length: it stays in the data
zones if and only if it takes fewer blocks than they have. -/
theorem writes_inDataZones_iff (stack : Block) (uid gid : Nat) (cs : List LogCall)
    (calls : EachCall (callStep standardGeometry) Writes cs
      (firstMount standardGeometry stack uid gid)) :
    EachStep (callStep standardGeometry) InDataZones cs
        (firstMount standardGeometry stack uid gid) ↔
      cs.countP takesBlock < 13 * blocksPerZone := by
  refine (run_inDataZones (holdsBlocks_firstMount stack uid gid) ?_ calls).trans (by omega)
  rw [blocksPerZone_eq]
  decide

/-- The root inode is written once more. -/
theorem one_write_inDataZones :
    EachStep
      (callStep standardGeometry) InDataZones [.write (some (rootInode zeros 16 0 0)) 4096 16]
        (firstMount standardGeometry zeros 0 0) ↔
      [LogCall.write (some (rootInode zeros 16 0 0)) 4096 16].countP takesBlock <
        13 * blocksPerZone :=
  writes_inDataZones_iff zeros 0 0 [.write (some (rootInode zeros 16 0 0)) 4096 16]
    (by decide +kernel)

theorem writes_root {v : Volume} (starting : v.info.startingLogicalNumber = 16) (b : Block)
    (m : Nat) : EachCall (callStep standardGeometry) Writes
      (List.replicate m (.write (some b) hodoDatablockSize 16)) v := by
  induction m generalizing v with
  | zero => trivial
  | succ m ih =>
    refine ⟨Or.inr ⟨rfl, Or.inr ⟨by decide, ?_⟩⟩, fun a v' hstep => ih ?_⟩
    · simp [tableIndex, starting]
    · rw [callStep_write] at hstep
      obtain ⟨_, rfl⟩ := Prod.mk.inj (Option.some.inj hstep)
      exact (hodoWriteStruct_starting _ _ v (some b) _ 16).trans starting

/-- As many writes of the root inode as the data zones have blocks. -/
def rootRun : List LogCall :=
  List.replicate (13 * blocksPerZone) (.write (some (rootInode zeros 16 0 0)) hodoDatablockSize 16)

theorem rootRun_leaves_dataZones :
    EachCall (callStep standardGeometry) Writes rootRun (firstMount standardGeometry zeros 0 0) ∧
    ¬ EachStep (callStep standardGeometry) InDataZones rootRun
      (firstMount standardGeometry zeros 0 0) := by
  have calls := writes_root (represents_firstMount zeros 0 0).consistent.starting
    (rootInode zeros 16 0 0) (13 * blocksPerZone)
  refine ⟨calls, fun each => ?_⟩
  have hcount := (run_inDataZones (holdsBlocks_firstMount zeros 0 0)
    (by rw [blocksPerZone_eq]; decide) calls).mp each
  have htakes : takesBlock
    (.write (some (rootInode zeros 16 0 0)) hodoDatablockSize 16) = true := by
    simp [takesBlock]
  rw [List.countP_replicate, if_pos htakes] at hcount
  omega

end LogRoom
