import HodoZns.Consistency

/-!
# Moving blocks

The collector reads a block, takes the number out of its header and writes it
again under that number. In a consistent volume this moves the number to the new
position and changes no contents. The swap-out loops do so for a whole batch.
-/

namespace Relocation

open ByteBlock BitmapWords Layout BlockLog ZoneLog NumberAllocator Collector LogCalls WritePointers
open Geometries Consistency

theorem isDat_putLogicalBlockNumber (b : Block) (n : Nat) :
    isDat (putLogicalBlockNumber b n) = isDat b := by
  simp only [isDat, putLogicalBlockNumber]
  rw [byteAt_putLE_outside b _ (by omega), byteAt_putLE_outside b _ (by omega),
    byteAt_putLE_outside b _ (by omega)]

/-- The buffer can be found again under number `n`: its header is stamped on the
way to the device, or it is an inode with that number. -/
def Names (b : Block) (n : Nat) : Prop := isDat b = true ∨ iIno b = n

instance (b : Block) (n : Nat) : Decidable (Names b n) :=
  inferInstanceAs (Decidable (isDat b = true ∨ iIno b = n))

theorem ownNumber_stamp {b : Block} {n : Nat} (h : Names b n) (hn : n < 2 ^ 32) :
    ownNumber (stamp b n) = n := by
  by_cases hdat : isDat b = true
  · rw [stamp, if_pos hdat, ownNumber, isDat_putLogicalBlockNumber, if_pos hdat]
    rw [logicalBlockNumber, putLogicalBlockNumber, getLE_putLE b n (by omega)]
    exact Nat.mod_eq_of_lt (by omega)
  · rw [stamp, if_neg hdat, ownNumber, if_neg hdat]
    exact h.resolve_left hdat

theorem stamp_own (b : Block) : stamp b (ownNumber b) = b := by
  by_cases hdat : isDat b = true
  · rw [stamp, if_pos hdat, ownNumber, if_pos hdat, putLogicalBlockNumber, logicalBlockNumber]
    exact putLE_getLE b 4 4
  · rw [stamp, if_neg hdat]

theorem readAt_blockAt {G : Geometry} {v : Volume} {p : BlockPos} (fits : FitsTables G)
    (hz : p.zoneId ≤ swapZone G) (hi : p.blockIndex < zoneBlocks G) (buf : Block) :
    readAt G ioOk v p (some buf) hodoDatablockSize =
      match blockAt v.dev p with
      | some b => (4096, some b)
      | none => (0, some buf) :=
  readAt_of_lt fits hz hi buf

theorem readAt_ok (v : Volume) {p : BlockPos} (hz : p.zoneId ≤ 14)
    (hi : p.blockIndex < blocksPerZone)
    (buf : Block) :
    readAt standardGeometry ioOk v p (some buf) hodoDatablockSize =
      match blockAt v.dev p with
      | some b => (4096, some b)
      | none => (0, some buf) :=
  readAt_blockAt standard_fits (by rwa [swapZone_standard]) (by rwa [zoneBlocks_standard]) buf

theorem gcRead_some {v : Volume} {p : BlockPos} {b : Block} (hz : p.zoneId ≤ 14)
    (hi : p.blockIndex < blocksPerZone) (hb : blockAt v.dev p = some b) (temp : Block) :
    gcRead standardGeometry v p temp = b :=
  gcRead_block standard_fits (by rwa [swapZone_standard]) (by rwa [zoneBlocks_standard]) hb

/-- Past the end of a zone the buffer keeps what it held. -/
theorem gcRead_none {v : Volume} {p : BlockPos} (hz : p.zoneId ≤ 14)
    (hi : p.blockIndex < blocksPerZone) (hb : blockAt v.dev p = none) (temp : Block) :
    gcRead standardGeometry v p temp = temp :=
  gcRead_past standard_fits (by rwa [swapZone_standard]) (by rwa [zoneBlocks_standard]) hb

theorem entry_ne_end {v : Volume} (h : Consistent v) {n : Nat} {p : BlockPos}
    (hn : InTable v.info n) (hz : p.zoneId ≠ 0) (hend : (v.dev p.zoneId).length = p.blockIndex) :
    tableEntry v.info n ≠ p :=
  fun he => h.not_mapped_end hend ⟨hn, he, hz⟩

theorem appends_write {v : Volume} (h : Consistent v) {n : Nat} {b : Block} (hn : InTable v.info n)
    (hb : ownNumber b = n) (hz : v.info.wp.zoneId ≠ 0) (hle : v.info.wp.zoneId ≤ 14)
    (hend : (v.dev v.info.wp.zoneId).length = v.info.wp.blockIndex)
    (hi : v.info.wp.blockIndex < blocksPerZone) (w : BlockPos) :
    Appends v (setWp (appended v (recordWrite v.info n).2 v.info.wp.zoneId n b) w) n
      v.info.wp b := by
  have hrec := (records_recordWrite v.info (h.ne_zero hn) (entry_ne_end h hn hz hend)).2
  have hfirst := recordWrite_number v.info (h.ne_zero hn)
  have inside := recordWrite_strayStores (Nat.lt_succ_of_le (Nat.le_succ_of_le hle))
    (fun _ => h.entry_zone_lt hn) (by rw [hfirst]; exact hn.2)
  exact ⟨⟨hrec.starting, hrec.table, hrec.live_iff, hrec.zoneZero⟩, rfl, hn, hz, hle, hend, hi, hb,
    inside⟩

theorem appends_move {v : Volume} (h : Consistent v) {n : Nat} {b : Block} (hn : InTable v.info n)
    (hb : ownNumber b = n) (hz : v.info.swapWp.zoneId ≠ 0) (hle : v.info.swapWp.zoneId ≤ 14)
    (hend : (v.dev v.info.swapWp.zoneId).length = v.info.swapWp.blockIndex)
    (hi : v.info.swapWp.blockIndex < blocksPerZone) (w : BlockPos) :
    Appends v (setSwapWp (appended v (recordMove v.info n) v.info.swapWp.zoneId n b) w) n
      v.info.swapWp b := by
  have hrec := records_recordMove v.info (entry_ne_end h hn hz hend)
  have inside :=
    recordMove_strayStores (Nat.lt_succ_of_le (Nat.le_succ_of_le hle)) (h.entry_zone_lt hn) hn.2
  exact ⟨⟨hrec.starting, hrec.table, hrec.live_iff, hrec.zoneZero⟩, rfl, hn, hz, hle, hend, hi, hb,
    inside⟩

structure SameData (v₀ v : Volume) : Prop where
  consistent : Consistent v
  stored_eq : ∀ n, InTable v₀.info n → stored v n = stored v₀ n
  bitmap : v.info.logicalEntryBitmap = v₀.info.logicalEntryBitmap
  starting : v.info.startingLogicalNumber = v₀.info.startingLogicalNumber
  outside : ∀ z i, z = 0 ∨ 15 ≤ z → live v.info z i = true → live v₀.info z i = true
  strayed : v.info.strayStores = v₀.info.strayStores

theorem SameData.inTable {v₀ v : Volume} (h : SameData v₀ v) {n : Nat} :
    InTable v.info n ↔ InTable v₀.info n := by
  simp only [InTable, tableIndex, h.starting]

theorem sameData_refl {v : Volume} (h : Consistent v) : SameData v v :=
  ⟨h, fun _ _ => rfl, rfl, rfl, fun _ _ _ h => h, rfl⟩

/-- The write pointers say nothing about the data. -/
theorem SameData.setWp {v₀ v : Volume} (h : SameData v₀ v) (pos : BlockPos) :
    SameData v₀ (setWp v pos) where
  consistent := ⟨h.consistent.starting, h.consistent.inZones, h.consistent.live_iff,
    h.consistent.inj, h.consistent.content⟩
  stored_eq := h.stored_eq
  bitmap := h.bitmap
  starting := h.starting
  outside := h.outside
  strayed := h.strayed

theorem SameData.setSwapWp {v₀ v : Volume} (h : SameData v₀ v) (pos : BlockPos) :
    SameData v₀ (setSwapWp v pos) where
  consistent := ⟨h.consistent.starting, h.consistent.inZones, h.consistent.live_iff,
    h.consistent.inj, h.consistent.content⟩
  stored_eq := h.stored_eq
  bitmap := h.bitmap
  starting := h.starting
  outside := h.outside
  strayed := h.strayed

theorem SameData.trans {v₀ v₁ v₂ : Volume} (h : SameData v₀ v₁) (h' : SameData v₁ v₂) :
    SameData v₀ v₂ :=
  ⟨h'.consistent, fun n hn => (h'.stored_eq n (h.inTable.mpr hn)).trans (h.stored_eq n hn),
    h'.bitmap.trans h.bitmap, h'.starting.trans h.starting,
    fun z i hz hi => h.outside z i hz (h'.outside z i hz hi), h'.strayed.trans h.strayed⟩

/-- Writing a stored block again under its number. -/
theorem sameData_of_appends {v v' : Volume} {n : Nat} {p : BlockPos} {b : Block}
    (a : Appends v v' n p b) (h : Consistent v) (hb : stored v n = some b)
    (hbitmap : v'.info.logicalEntryBitmap = v.info.logicalEntryBitmap) : SameData v v' := by
  refine ⟨a.consistent h, fun n' hn' => ?_, hbitmap, a.records.starting, fun z i hz hi => ?_,
    a.strayed⟩
  · rw [a.stored h hn']
    split
    case isTrue he => rw [he, hb]
    case isFalse => rfl
  · by_cases hzero : z = 0
    · rw [hzero] at hi ⊢
      exact a.records.zoneZero i a.zone_ne hi
    · rcases (a.records.live_iff ⟨z, i⟩ hzero).mp hi with he | hq
      · have hle := a.zone_le
        rw [← he] at hle
        simp only at hle
        omega
      · exact hq.1

theorem sameData_of_blocks {v v' : Volume} (h : Consistent v) (hinfo : v'.info = v.info)
    (hblock : ∀ n p, Mapped v.info n p → blockAt v'.dev p = blockAt v.dev p) : SameData v v' := by
  refine ⟨⟨?_, ?_, ?_, ?_, ?_⟩, fun n hn => ?_, by rw [hinfo], by rw [hinfo],
    fun z i _ hi => by rwa [hinfo] at hi, by rw [hinfo]⟩
  · rw [hinfo]
    exact h.starting
  · rw [hinfo]
    exact h.inZones
  · rw [hinfo]
    exact h.live_iff
  · rw [hinfo]
    exact h.inj
  · rw [hinfo]
    intro n p hm
    rw [hblock n p hm]
    exact h.content hm
  · simp only [stored, hinfo]
    split
    · rfl
    case isFalse hne => exact hblock n _ (mapped_entry hn hne)

/-- Resetting a zone into which nothing is mapped. -/
theorem sameData_truncate {v : Volume} (h : Consistent v) (zone : Nat) (hz : zone ≤ 14)
    (unused : ∀ n p, Mapped v.info n p → p.zoneId ≠ zone) :
    SameData v (truncateZone standardGeometry v zone) := by
  rw [truncateZone_ok v hz]
  refine sameData_of_blocks h rfl fun n p hm => ?_
  simp only [blockAt, update_other _ _ (unused n p hm)]

/-- A reset that meets no mapping-table entry into the zone. -/
def SafeReset (e : Event) : Prop :=
  match e.io with
  | .write _ _ _ => True
  | .reset zone => ∀ k, k < numberMappingTableEntry → (e.table k).zoneId ≠ zone

theorem safeReset_of_unused {m : MappingInfo} {zone : Nat} (hz : zone ≠ 0)
    (unused : ∀ n p, Mapped m n p → p.zoneId ≠ zone) (dev : Nat → List Block) :
    SafeReset ⟨.reset zone, m.mappingTable, dev⟩ := by
  intro k hk he
  have hidx := tableIndex_number m hk
  have hentry : tableEntry m ((m.startingLogicalNumber + k) % 2 ^ 32) = m.mappingTable k := by
    rw [tableEntry, hidx]
  refine unused _ _ ⟨⟨Nat.mod_lt _ (by decide), by rw [hidx]; exact hk⟩, hentry, ?_⟩ he
  rw [he]
  exact hz

theorem unused_of_safeReset {m : MappingInfo} {zone : Nat} {dev : Nat → List Block}
    (safe : SafeReset ⟨.reset zone, m.mappingTable, dev⟩) {n : Nat} {p : BlockPos}
    (hm : Mapped m n p) : p.zoneId ≠ zone := by
  obtain ⟨⟨_, hidx⟩, hentry, _⟩ := hm
  rw [← hentry]
  exact safe (tableIndex m n) hidx

/-- `v'` is `v` with the block of number `n` moved to `p`. -/
structure Moved (v v' : Volume) (n : Nat) (p : BlockPos) : Prop where
  same : SameData v v'
  entry : ∀ n', InTable v.info n' →
    tableEntry v'.info n' = if n' = n then p else tableEntry v.info n'
  kept : ∀ e ∈ v.trace, e ∈ v'.trace
  safe : ∀ e ∈ v'.trace, e ∈ v.trace ∨ SafeReset e

theorem swapOutOne_moves {v : Volume} (h : Consistent v) {ptr : BlockPos} {temp b : Block} {n : Nat}
    (hread : gcRead standardGeometry v ptr temp = b) (hn : InTable v.info n)
    (hs : stored v n = some b) (hb : ownNumber b = n) (hz : v.info.wp.zoneId ≠ 0)
    (hle : v.info.wp.zoneId ≤ 14) (hend : (v.dev v.info.wp.zoneId).length = v.info.wp.blockIndex)
    (hi : v.info.wp.blockIndex < blocksPerZone) :
    (swapOutOne standardGeometry ptr temp v).1 = b ∧
    Moved v (swapOutOne standardGeometry ptr temp v).2 n v.info.wp := by
  have hne := h.ne_zero hn
  have hfirst := recordWrite_number v.info hne
  have hstamp : stamp b n = b := by rw [← hb, stamp_own]
  rw [swapOutOne_ok ptr temp hle hend hi]
  simp only [hread, hb, hfirst, hstamp]
  have a := appends_write h hn hb hz hle hend hi
    (nextWp standardGeometry v.info.wp hodoDatablockSize)
  refine ⟨trivial, sameData_of_appends a h hs (recordWrite_bitmap v.info hne), ?_, ?_, ?_⟩
  · exact fun n' hn' => a.records.entry hn hn'
  · exact fun e he => List.mem_cons_of_mem _ he
  · intro e he
    rcases List.mem_cons.mp he with rfl | he
    · exact Or.inr trivial
    · exact Or.inl he

theorem swapInOne_moves {v : Volume} (h : Consistent v) {pos : BlockPos} {temp b : Block} {n : Nat}
    (hread : gcRead standardGeometry v pos temp = b) (hn : InTable v.info n)
    (hs : stored v n = some b) (hb : ownNumber b = n) (hz : v.info.swapWp.zoneId ≠ 0)
    (hle : v.info.swapWp.zoneId ≤ 14)
    (hend : (v.dev v.info.swapWp.zoneId).length = v.info.swapWp.blockIndex)
    (hi : v.info.swapWp.blockIndex + 1 < blocksPerZone) :
    Moved v (swapInOne standardGeometry pos temp v).2 n v.info.swapWp := by
  rw [swapInOne_ok pos temp hle hend hi]
  simp only [hread, hb]
  have a := appends_move h hn hb hz hle hend (by omega)
    ⟨v.info.swapWp.zoneId, v.info.swapWp.blockIndex + 1⟩
  refine ⟨sameData_of_appends a h hs rfl, ?_, ?_, ?_⟩
  · exact fun n' hn' => a.records.entry hn hn'
  · exact fun e he => List.mem_cons_of_mem _ he
  · intro e he
    rcases List.mem_cons.mp he with rfl | he
    · exact Or.inr trivial
    · exact Or.inl he

/-- Where block `j` of a batch of `len` is after `i` turns of a swap-out into
`zone`. The turn after the last block writes that block a second time. -/
def spillPos (zone len i j : Nat) : BlockPos :=
  if i ≤ j then ⟨14, j⟩
  else if len < i ∧ j + 1 = len then ⟨zone, len⟩
  else ⟨zone, j⟩

/-- The batch that lies in the swap zone of `v₀`, after `i` turns. -/
structure Spilling (v₀ : Volume) (a : Nat) (batch : List Nat) (i : Nat) (temp : Block)
    (v : Volume) : Prop where
  out : SwappingOut v₀ a i v
  same : SameData v₀ v
  moved : ∀ j (h : j < batch.length), tableEntry v.info batch[j] = spillPos a batch.length i j
  others : ∀ n, InTable v₀.info n → n ∉ batch → tableEntry v.info n = tableEntry v₀.info n
  held : ∀ n, 0 < i → batch[i - 1]? = some n → stored v₀ n = some temp
  kept : ∀ e ∈ v₀.trace, e ∈ v.trace
  safe : ∀ e ∈ v.trace, e ∈ v₀.trace ∨ SafeReset e

/-- The zone to fill is empty and the swap zone holds the batch. -/
structure SpillStart (v₀ : Volume) (a : Nat) (batch : List Nat) : Prop where
  zone_pos : 1 ≤ a
  zone_le : a ≤ 13
  nodup : batch.Nodup
  inTable : ∀ n ∈ batch, InTable v₀.info n
  swap_full : (v₀.dev 14).length = batch.length

variable {v₀ v : Volume} {a i : Nat} {batch : List Nat} {temp : Block}

/-- One turn moves number `n`, whichever it is, to the write pointer. -/
theorem Spilling.turn (h : Spilling v₀ a batch i temp v) (start : SpillStart v₀ a batch)
    (hi : i < blocksPerZone) {n : Nat} {b : Block} (hn : InTable v₀.info n)
    (hread : gcRead standardGeometry v ⟨14, i⟩ temp = b) (hs : stored v n = some b)
    (hb : ownNumber b = n) :
    (swapOutOne standardGeometry ⟨14, i⟩ temp v).1 = b ∧
    Moved v (swapOutOne standardGeometry ⟨14, i⟩ temp v).2 n ⟨a, i⟩ ∧
    SwappingOut v₀ a (i + 1) (swapOutOne standardGeometry ⟨14, i⟩ temp v).2 := by
  have hwp := h.out.wp_of_lt hi
  have hpos := start.zone_pos
  have hle := start.zone_le
  obtain ⟨hfst, hmoved⟩ := swapOutOne_moves h.same.consistent hread (h.same.inTable.mpr hn) hs hb
    (by rw [hwp]; simp only; omega) (by rw [hwp]; simp only; omega)
    (by rw [hwp]; exact h.out.filled) (by rw [hwp]; exact hi)
  rw [hwp] at hmoved
  exact ⟨hfst, hmoved, swappingOut_turn hle hi h.out ⟨14, i⟩ temp⟩

/-- A turn within the batch. -/
theorem spilling_within (start : SpillStart v₀ a batch) (hi : i < batch.length)
    (hlt : i < blocksPerZone) (h : Spilling v₀ a batch i temp v) :
    Spilling v₀ a batch (i + 1) (swapOutOne standardGeometry ⟨14, i⟩ temp v).1
      (swapOutOne standardGeometry ⟨14, i⟩ temp v).2 := by
  have hn := start.inTable batch[i] (List.getElem_mem hi)
  have hentry : tableEntry v.info batch[i] = ⟨14, i⟩ := by
    rw [h.moved i hi, spillPos, if_pos (Nat.le_refl i)]
  have hmapped : Mapped v.info batch[i] ⟨14, i⟩ := ⟨h.same.inTable.mpr hn, hentry, by simp⟩
  obtain ⟨b, hblock, hb⟩ := h.same.consistent.content hmapped
  have hs : stored v batch[i] = some b := by rw [stored_of_mapped hmapped, hblock]
  obtain ⟨hfst, hmoved, hout⟩ := h.turn start hlt hn
    (gcRead_some (by simp) hlt hblock temp) hs hb
  refine ⟨hout, h.same.trans hmoved.same, fun j hj => ?_, fun n hn' hnot => ?_, fun n _ hlast => ?_,
    fun e he => hmoved.kept e (h.kept e he), fun e he => ?_⟩
  · rw [hmoved.entry _ (h.same.inTable.mpr (start.inTable _ (List.getElem_mem hj)))]
    by_cases hji : j = i
    · subst hji
      rw [if_pos rfl, spillPos, if_neg (by omega), if_neg (by omega)]
    · rw [if_neg (fun he => hji ((start.nodup.getElem_inj_iff).mp he)), h.moved j hj, spillPos,
        spillPos]
      by_cases hij : i ≤ j
      · rw [if_pos hij, if_pos (by omega)]
      · rw [if_neg hij, if_neg (by omega), if_neg (by omega), if_neg (by omega)]
  · rw [hmoved.entry n (h.same.inTable.mpr hn'), if_neg]
    · exact h.others n hn' hnot
    · rintro rfl
      exact hnot (List.getElem_mem hi)
  · rw [Nat.add_sub_cancel, List.getElem?_eq_getElem hi] at hlast
    obtain rfl := Option.some.inj hlast
    rw [← h.same.stored_eq _ hn, hs, hfst]
  · rcases hmoved.safe e he with he | he
    · exact h.safe e he
    · exact Or.inr he

/-- The turn after the batch reads nothing and moves the last block once more. -/
theorem spilling_again (start : SpillStart v₀ a batch) (hpos : 0 < batch.length)
    (hlt : batch.length < blocksPerZone) (h : Spilling v₀ a batch batch.length temp v) :
    Spilling v₀ a batch (batch.length + 1)
      (swapOutOne standardGeometry ⟨14, batch.length⟩ temp v).1
      (swapOutOne standardGeometry ⟨14, batch.length⟩ temp v).2 := by
  have hzone := start.zone_le
  have hlast : batch.length - 1 < batch.length := by omega
  have hn := start.inTable _ (List.getElem_mem hlast)
  have hheld := h.held _ hpos (List.getElem?_eq_getElem hlast)
  have hs := (h.same.stored_eq _ hn).trans hheld
  have hzpos := start.zone_pos
  have hmapped : Mapped v.info batch[batch.length - 1] ⟨a, batch.length - 1⟩ := by
    refine ⟨h.same.inTable.mpr hn, ?_, by simp only; omega⟩
    rw [h.moved _ hlast, spillPos, if_neg (by omega), if_neg (by omega)]
  obtain ⟨b, hb, hown⟩ := h.same.consistent.stored_eq_some hmapped
  have hbt : b = temp := by
    rw [hs] at hb
    exact (Option.some.inj hb).symm
  rw [hbt] at hown
  have hnone : blockAt v.dev ⟨14, batch.length⟩ = none := by
    rw [blockAt, h.out.others 14 (by omega), List.getElem?_eq_none]
    exact Nat.le_of_eq start.swap_full
  obtain ⟨hfst, hmoved, hout⟩ := h.turn start hlt hn (gcRead_none (by simp) hlt hnone temp) hs hown
  refine ⟨hout, h.same.trans hmoved.same, fun j hj => ?_, fun n hn' hnot => ?_, fun n _ hnone => ?_,
    fun e he => hmoved.kept e (h.kept e he), fun e he => ?_⟩
  · rw [hmoved.entry _ (h.same.inTable.mpr (start.inTable _ (List.getElem_mem hj)))]
    by_cases hjl : j = batch.length - 1
    · subst hjl
      rw [if_pos rfl, spillPos, if_neg (by omega), if_pos (by omega)]
    · rw [if_neg (fun he => hjl ((start.nodup.getElem_inj_iff).mp he)), h.moved j hj, spillPos,
        spillPos, if_neg (by omega), if_neg (by omega), if_neg (by omega), if_neg (by omega)]
  · rw [hmoved.entry n (h.same.inTable.mpr hn'), if_neg]
    · exact h.others n hn' hnot
    · rintro rfl
      exact hnot (List.getElem_mem hlast)
  · rw [Nat.add_sub_cancel, List.getElem?_eq_none (Nat.le_refl _)] at hnone
    cases hnone
  · rcases hmoved.safe e he with he | he
    · exact h.safe e he
    · exact Or.inr he

end Relocation
