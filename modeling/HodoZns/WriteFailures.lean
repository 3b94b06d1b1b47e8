import HodoZns.Consistency

/-!
# Failed writes of the log

`hodo_write_struct` enters a block into the bitmaps and the table before it opens
the zone file, and moves `wp` on whatever `write_iter` answered. A failed write is
harmless when its arguments were refused, or when the zone file could not be opened
and what was entered had been there before.
-/

namespace WriteFailures

open ByteBlock BitmapWords Layout BlockLog ZoneLog NumberAllocator Collector LogCalls Consistency

/-- An error is a negative number, of an open (`IS_ERR`) as of a transfer. -/
structure NegativeErrors (r : IoResult) : Prop where
  openError : ∀ e, r.openError = some e → e < 0
  iterError : ∀ e, r.iterError = some e → e < 0

/-- The arguments that are refused before anything is done. -/
def Refused (buf : Option Block) (len : Nat) : Prop :=
  buf = none ∨ len = 0 ∨ hodoDatablockSize < len

/-- The causes for which a write can fail. -/
inductive Failure (G : Geometry) (r : IoResult) (v : Volume) (buf : Option Block) (len n : Nat) :
    Prop
  | arguments : Refused buf len → Failure G r v buf len n
  | noNumber : n = 0 → ¬ FreeNumber v.info → Failure G r v buf len n
  | noZoneFile : filpOpen G r v.info.wp.zoneId ≠ none → Failure G r v buf len n
  | transfer {b : Block} : buf = some b →
      (zoneWrite G r v v.info.wp.zoneId (v.info.wp.blockIndex * hodoDatablockSize) len n b).1 < 0 →
      Failure G r v buf len n

/-- The same mapping information, and no store outside its tables on the way. -/
structure SameInfo (m m' : MappingInfo) : Prop where
  starting : m'.startingLogicalNumber = m.startingLogicalNumber
  wp : m'.wp = m.wp
  table : ∀ i, i < numberMappingTableEntry → m'.mappingTable i = m.mappingTable i
  logicalEntryBitmap : m'.logicalEntryBitmap = m.logicalEntryBitmap
  gcBitmap : m'.gcBitmap = m.gcBitmap
  strayStores : m'.strayStores = m.strayStores

theorem SameInfo.refl (m : MappingInfo) : SameInfo m m :=
  ⟨rfl, rfl, fun _ _ => rfl, rfl, rfl, rfl⟩

/-- The log ends where the zone file of `wp` accepts the next block. -/
def AtPointer (v : Volume) : Prop := (v.dev v.info.wp.zoneId).length = v.info.wp.blockIndex

/-- The write reported an error and changed nothing. -/
structure Untouched (G : Geometry) (v : Volume) (w : WriteResult) : Prop where
  negative : w.ret < 0
  info : SameInfo v.info w.volume.info
  reads : ∀ r k outBuf len, InTable v.info k →
    hodoReadStruct G r w.volume k outBuf len = hodoReadStruct G r v k outBuf len
  pointer : AtPointer v → AtPointer w.volume

/-- What the write enters is there already: the number is mapped to `wp`, whose bit is
clear, or no number is free, the bit of `wp` is set, and the number -1 is one of the table
and mapped to `wp`. -/
def Entered (m : MappingInfo) (n : Nat) : Prop :=
  m.wp.zoneId < numberZones ∧
    if n = 0 then
      ¬ FreeNumber m ∧ live m m.wp.zoneId m.wp.blockIndex = true ∧ InTable m noNumber ∧
        tableEntry m noNumber = m.wp
    else tableEntry m n = m.wp ∧ live m m.wp.zoneId m.wp.blockIndex = false

theorem gcBitmap_eq_iff {m m' : MappingInfo} :
    m'.gcBitmap = m.gcBitmap ↔
      ∀ q : BlockPos, live m' q.zoneId q.blockIndex = live m q.zoneId q.blockIndex := by
  constructor
  · intro h q
    simp only [live, h]
  · intro h
    funext z
    exact ext_bit fun i => h ⟨z, i⟩

/-- A number handed out is no longer free. -/
theorem sameInfo_record_new {m : MappingInfo} (free : FreeNumber m) :
    ¬ SameInfo m (recordWrite m 0).2 := by
  intro same
  have hbits : (hodoGetNextLogicalNumber (hodoSetGCBitmap m m.wp)).2.logicalEntryBitmap =
      m.logicalEntryBitmap := same.logicalEntryBitmap
  rcases getNext_cases (hodoSetGCBitmap m m.wp) with ⟨k, _, hclear, _, heq⟩ | ⟨hfull, _⟩
  · have hset := allocated_setLogicalBitmap (hodoSetGCBitmap m m.wp) k k
    rw [heq] at hbits
    simp only [allocated] at hset hclear
    rw [hbits] at hset
    have hclear' : bit m.logicalEntryBitmap k = false := hclear
    simp [hclear'] at hset
  · obtain ⟨k, hk, hfree⟩ := free
    have htaken : allocated m k = true := hfull k hk
    rw [hfree] at htaken
    cases htaken

/-- Each of the stores is counted if it is outside the tables. -/
theorem strayStores_recordWrite_full (m : MappingInfo)
    (hrec : (recordWrite m 0).2 = setTableEntry (hodoSetGCBitmap m m.wp) noNumber m.wp) :
    (recordWrite m 0).2.strayStores = m.strayStores ↔
      m.wp.zoneId < numberZones ∧ tableIndex m noNumber < numberMappingTableEntry := by
  have hcount : (recordWrite m 0).2.strayStores =
      m.strayStores + (if numberZones ≤ m.wp.zoneId then 1 else 0) +
        if numberMappingTableEntry ≤ tableIndex m noNumber then 1 else 0 := by
    rw [hrec]
    rfl
  rw [hcount]
  split <;> split <;> omega

theorem strayStores_recordWrite_known {m : MappingInfo} {n : Nat} (hin : InTable m n)
    (hrec : (recordWrite m n).2 =
      setTableEntry (hodoUnsetGCBitmap (hodoSetGCBitmap m m.wp) (tableEntry m n)) n m.wp)
    (hentry : tableEntry m n = m.wp) :
    (recordWrite m n).2.strayStores = m.strayStores ↔ m.wp.zoneId < numberZones := by
  have hcount : (recordWrite m n).2.strayStores =
      m.strayStores + (if numberZones ≤ m.wp.zoneId then 1 else 0) +
          (if numberZones ≤ (tableEntry m n).zoneId then 1 else 0) +
        if numberMappingTableEntry ≤ tableIndex m n then 1 else 0 := by
    rw [hrec]
    rfl
  rw [hcount, hentry, if_neg (Nat.not_le.mpr hin.2)]
  split <;> omega

theorem sameInfo_record_full {m : MappingInfo} (full : ¬ FreeNumber m) :
    SameInfo m (recordWrite m 0).2 ↔ Entered m 0 := by
  have hnext : hodoGetNextLogicalNumber (hodoSetGCBitmap m m.wp) =
      (noNumber, hodoSetGCBitmap m m.wp) := by
    rcases getNext_cases (hodoSetGCBitmap m m.wp) with ⟨k, hk, hclear, _, _⟩ | ⟨_, heq⟩
    · exact absurd ⟨k, hk, hclear⟩ full
    · exact heq
  have hrec : (recordWrite m 0).2 = setTableEntry (hodoSetGCBitmap m m.wp) noNumber m.wp := by
    simp only [recordWrite, if_true, hnext]
  have hstray := strayStores_recordWrite_full m hrec
  rw [Entered, if_pos rfl]
  constructor
  · intro same
    obtain ⟨hzone, hidx⟩ := hstray.mp same.strayStores
    have htable := same.table _ hidx
    have hgc := same.gcBitmap
    rw [hrec] at htable hgc
    refine ⟨hzone, full, ?_, ⟨by decide, hidx⟩, htable.symm.trans (update_same _ _ _)⟩
    have hbit := gcBitmap_eq_iff.mp hgc m.wp
    have hset := live_setGCBitmap m m.wp m.wp
    rw [← hbit]
    exact hset.trans (by simp)
  · rintro ⟨hzone, _, hlive, hin, hentry⟩
    have hcount := hstray.mpr ⟨hzone, hin.2⟩
    rw [hrec] at hcount ⊢
    refine ⟨rfl, rfl, fun i hi => ?_, rfl, gcBitmap_eq_iff.mpr fun q => ?_, hcount⟩
    · by_cases hidx : i = tableIndex m noNumber
      · subst hidx
        exact (update_same _ _ _).trans hentry.symm
      · exact update_other _ _ hidx
    · refine (live_setGCBitmap m m.wp q).trans ?_
      by_cases hq : q = m.wp
      · rw [hq, hlive]
        simp
      · simp [hq]

theorem sameInfo_record_known {m : MappingInfo} {n : Nat} (hn : n ≠ 0) (hin : InTable m n) :
    SameInfo m (recordWrite m n).2 ↔ Entered m n := by
  have hrec : (recordWrite m n).2 =
      setTableEntry (hodoUnsetGCBitmap (hodoSetGCBitmap m m.wp) (tableEntry m n)) n m.wp := by
    simp only [recordWrite, if_neg hn]
    rfl
  have hlive : ∀ q : BlockPos, live (recordWrite m n).2 q.zoneId q.blockIndex =
      (!decide (q = tableEntry m n) && (decide (q = m.wp) || live m q.zoneId q.blockIndex)) := by
    intro q
    rw [hrec]
    refine (live_unsetGCBitmap (hodoSetGCBitmap m m.wp) (tableEntry m n) q).trans ?_
    rw [live_setGCBitmap]
  rw [Entered, if_neg hn]
  constructor
  · intro same
    have hentry : tableEntry m n = m.wp := by
      have h := same.table _ hin.2
      rw [hrec] at h
      exact h.symm.trans (update_same _ _ _)
    refine ⟨(strayStores_recordWrite_known hin hrec hentry).mp same.strayStores, hentry, ?_⟩
    rw [← gcBitmap_eq_iff.mp same.gcBitmap m.wp, hlive, hentry]
    simp
  · rintro ⟨hzone, hentry, hclear⟩
    refine ⟨?_, ?_, fun i hi => ?_, ?_, gcBitmap_eq_iff.mpr fun q => ?_,
      (strayStores_recordWrite_known hin hrec hentry).mpr hzone⟩
    · rw [hrec]
      rfl
    · rw [hrec]
      rfl
    · rw [hrec]
      by_cases hidx : i = tableIndex m n
      · subst hidx
        exact (update_same _ _ _).trans hentry.symm
      · exact update_other _ _ hidx
    · rw [hrec]
      rfl
    · rw [hlive, hentry]
      by_cases hq : q = m.wp
      · rw [hq, hclear]
        simp
      · simp [hq]

/-- Entering the block leaves the information alone exactly when it is there already. -/
theorem sameInfo_record_iff {m : MappingInfo} {n : Nat} (number : n = 0 ∨ InTable m n) :
    SameInfo m (recordWrite m n).2 ↔ Entered m n := by
  by_cases hn : n = 0
  · subst hn
    by_cases free : FreeNumber m
    · refine iff_of_false (sameInfo_record_new free) fun entered => ?_
      rw [Entered, if_pos rfl] at entered
      exact entered.2.1 free
    · exact sameInfo_record_full free
  · exact sameInfo_record_known hn (number.resolve_left hn)

variable {G : Geometry} {r : IoResult} {v : Volume} {buf : Option Block} {len n : Nat}

theorem write_refused (h : Refused buf len) :
    (hodoWriteStruct G r v buf len n).ret = eInval ∧
      (hodoWriteStruct G r v buf len n).volume = v := by
  cases buf with
  | none => exact ⟨rfl, rfl⟩
  | some b =>
    have hlen : len = 0 ∨ hodoDatablockSize < len := h.resolve_left (by simp)
    simp only [hodoWriteStruct_some, if_pos hlen]
    exact ⟨trivial, trivial⟩

theorem write_unopened {b : Block} {e : Int} (hlen : ¬ (len = 0 ∨ hodoDatablockSize < len))
    (hopen : filpOpen G r v.info.wp.zoneId = some e) :
    (hodoWriteStruct G r v (some b) len n).ret = e ∧
      (hodoWriteStruct G r v (some b) len n).volume =
        { v with info := (recordWrite v.info n).2 } := by
  simp only [hodoWriteStruct_some, if_neg hlen, hopen]
  exact ⟨trivial, trivial⟩

theorem write_opened {b : Block} (hlen : ¬ (len = 0 ∨ hodoDatablockSize < len))
    (hopen : filpOpen G r v.info.wp.zoneId = none) :
    (hodoWriteStruct G r v (some b) len n).volume.info.wp = nextWp G v.info.wp len := by
  simp only [hodoWriteStruct_some, if_neg hlen, hopen]
  rfl

/-- The next of a 16-bit counter is another value, also at its end. -/
theorem u16_succ_ne (n : Nat) : u16 (n + 1) ≠ n := by
  rw [u16]
  omega

theorem nextWp_ne (wp : BlockPos) : nextWp G wp len ≠ wp := by
  obtain ⟨z, i⟩ := wp
  rw [nextWp]
  split
  · intro h
    exact u16_succ_ne z (congrArg BlockPos.zoneId h)
  · intro h
    exact u16_succ_ne i (congrArg BlockPos.blockIndex h)

theorem filpOpen_neg (errors : NegativeErrors r) {zone : Nat} {e : Int}
    (h : filpOpen G r zone = some e) : e < 0 := by
  rw [filpOpen] at h
  cases hr : r.openError with
  | some e' =>
    rw [hr] at h
    obtain rfl := Option.some.inj h
    exact errors.openError _ hr
  | none =>
    rw [hr] at h
    simp only at h
    split at h
    · cases h
    · obtain rfl := Option.some.inj h
      decide

theorem Untouched.wp {w : WriteResult} (h : Untouched G v w) : w.volume.info.wp = v.info.wp :=
  h.info.wp

theorem untouched_of_sameInfo {w : WriteResult} (negative : w.ret < 0)
    (info : SameInfo v.info w.volume.info) (dev : w.volume.dev = v.dev) : Untouched G v w := by
  refine ⟨negative, info, fun r k outBuf len hin => ?_, fun h => ?_⟩
  · have hidx : tableIndex w.volume.info k = tableIndex v.info k := by
      simp only [tableIndex, info.starting]
    have hentry : tableEntry w.volume.info k = tableEntry v.info k := by
      rw [tableEntry, hidx, info.table _ hin.2, tableEntry]
    have hin' : InTable w.volume.info k := ⟨hin.1, by rw [hidx]; exact hin.2⟩
    rw [hodoReadStruct_eq, hodoReadStruct_eq, if_pos hin, if_pos hin', hentry]
    cases outBuf with
    | none => rfl
    | some buf => simp only [readAt_some, zoneRead, dev]
  · rw [AtPointer, info.wp, dev]
    exact h

/-- A write that fails, for whatever cause, changes nothing exactly when its arguments
were refused or it found what it enters already there and no zone file to open. -/
theorem untouched_iff (G : Geometry) (r : IoResult) (v : Volume) (buf : Option Block) (len n : Nat)
    (errors : NegativeErrors r)
    (number : n = 0 ∨ InTable v.info n ∧ allocated v.info (tableIndex v.info n) = true)
    (fails : Failure G r v buf len n) :
    Untouched G v (hodoWriteStruct G r v buf len n) ↔
      Refused buf len ∨ filpOpen G r v.info.wp.zoneId ≠ none ∧ Entered v.info n := by
  have hnumber : n = 0 ∨ InTable v.info n := number.imp_right And.left
  by_cases refused : Refused buf len
  · obtain ⟨hret, hvolume⟩ := write_refused (G := G) (r := r) (v := v) (n := n) refused
    refine iff_of_true (untouched_of_sameInfo ?_ ?_ ?_) (Or.inl refused)
    · rw [hret]
      decide
    · rw [hvolume]
      exact SameInfo.refl v.info
    · rw [hvolume]
  · obtain ⟨b, rfl⟩ : ∃ b, buf = some b :=
      Option.ne_none_iff_exists'.mp fun h => refused (Or.inl h)
    have hlen : ¬ (len = 0 ∨ hodoDatablockSize < len) := fun h => refused (Or.inr h)
    cases hopen : filpOpen G r v.info.wp.zoneId with
    | none =>
      refine iff_of_false (fun untouched => ?_) ?_
      · exact nextWp_ne v.info.wp ((write_opened hlen hopen).symm.trans untouched.wp)
      · rintro (h | ⟨h, _⟩)
        · exact refused h
        · exact h rfl
    | some e =>
      obtain ⟨hret, hvolume⟩ := write_unopened (n := n) (b := b) hlen hopen
      constructor
      · intro untouched
        have hinfo := untouched.info
        rw [hvolume] at hinfo
        exact Or.inr ⟨by simp, (sameInfo_record_iff hnumber).mp hinfo⟩
      · rintro (h | ⟨_, entered⟩)
        · exact absurd h refused
        · refine untouched_of_sameInfo ?_ ?_ ?_
          · rw [hret]
            exact filpOpen_neg errors hopen
          · rw [hvolume]
            exact (sameInfo_record_iff hnumber).mpr entered
          · rw [hvolume]

theorem untouched_iff_refused :
    Untouched standardGeometry (firstMount standardGeometry zeros 0 0)
        (hodoWriteStruct standardGeometry ⟨none, some (-5)⟩
          (firstMount standardGeometry zeros 0 0) none hodoDatablockSize 0) ↔
      Refused none hodoDatablockSize ∨
        filpOpen standardGeometry ⟨none, some (-5)⟩
          (firstMount standardGeometry zeros 0 0).info.wp.zoneId ≠ none ∧
        Entered (firstMount standardGeometry zeros 0 0).info 0 :=
  untouched_iff standardGeometry ⟨none, some (-5)⟩ (firstMount standardGeometry zeros 0 0)
    none hodoDatablockSize 0
    ⟨nofun, fun e h => by obtain rfl := Option.some.inj h; decide⟩ (Or.inl rfl)
    (.arguments (Or.inl rfl))

/-- The device answers `-EIO`, and `wp` leaves the zone's write pointer behind. -/
theorem transfer_error_moves_wp :
    Failure standardGeometry ⟨none, some (-5)⟩ (firstMount standardGeometry zeros 0 0)
        (some zeros) hodoDatablockSize 0 ∧
      AtPointer (firstMount standardGeometry zeros 0 0) ∧
      ¬ AtPointer (hodoWriteStruct standardGeometry ⟨none, some (-5)⟩
          (firstMount standardGeometry zeros 0 0) (some zeros) hodoDatablockSize 0).volume ∧
      ¬ Untouched standardGeometry (firstMount standardGeometry zeros 0 0)
        (hodoWriteStruct standardGeometry ⟨none, some (-5)⟩
          (firstMount standardGeometry zeros 0 0) (some zeros) hodoDatablockSize 0) := by
  have hwp : (firstMount standardGeometry zeros 0 0).info.wp = ⟨1, 1⟩ := by decide +kernel
  have hlength : ((firstMount standardGeometry zeros 0 0).dev 1).length = 1 := by decide +kernel
  have hopen : filpOpen standardGeometry ⟨none, some (-5)⟩
      (firstMount standardGeometry zeros 0 0).info.wp.zoneId = none := by
    rw [hwp]
    rfl
  have hlen : ¬ (hodoDatablockSize = 0 ∨ hodoDatablockSize < hodoDatablockSize) := by decide
  have hmoved := write_opened (n := 0) (b := zeros) hlen hopen
  have hpointer : AtPointer (firstMount standardGeometry zeros 0 0) := by
    rw [AtPointer, hwp]
    exact hlength
  have hbehind : ¬ AtPointer (hodoWriteStruct standardGeometry ⟨none, some (-5)⟩
      (firstMount standardGeometry zeros 0 0) (some zeros) hodoDatablockSize 0).volume := by
    rw [AtPointer, hmoved, hwp]
    decide +kernel
  refine ⟨.transfer rfl ?_, hpointer, hbehind, fun untouched => ?_⟩
  · rw [hwp]
    decide
  · exact hbehind (untouched.pointer hpointer)

end WriteFailures
