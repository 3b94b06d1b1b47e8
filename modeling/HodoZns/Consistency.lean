import HodoZns.SequentialWrites

/-!
# Bitmap, mapping table and self-description

A consistent volume marks exactly the positions of mapped numbers, maps no two
numbers to one position, and finds under each mapped number a block that names
it. Writing a block under a number, whether for a caller or to move it, and
resetting a zone without mapped blocks keep a volume consistent.
-/

namespace Consistency

open ByteBlock BitmapWords Layout BlockLog ZoneLog NumberAllocator Collector LogCalls WritePointers

/-- Number `n` is mapped to position `p`. -/
def Mapped (m : MappingInfo) (n : Nat) (p : BlockPos) : Prop :=
  InTable m n ∧ tableEntry m n = p ∧ p.zoneId ≠ 0

def blockAt (dev : Nat → List Block) (p : BlockPos) : Option Block :=
  (dev p.zoneId)[p.blockIndex]?

structure Consistent (v : Volume) : Prop where
  starting : v.info.startingLogicalNumber = 16
  inZones : ∀ {n p}, Mapped v.info n p → p.zoneId ≤ 14 ∧ p.blockIndex < blocksPerZone
  live_iff : ∀ {p : BlockPos}, p.zoneId ≠ 0 → p.zoneId ≤ 14 → p.blockIndex < blocksPerZone →
    (live v.info p.zoneId p.blockIndex = true ↔ ∃ n, Mapped v.info n p)
  inj : ∀ {n n' p}, Mapped v.info n p → Mapped v.info n' p → n = n'
  content : ∀ {n p}, Mapped v.info n p → ∃ b, blockAt v.dev p = some b ∧ ownNumber b = n

/-- The block found under a number; an unmapped number has none. -/
def stored (v : Volume) (n : Nat) : Option Block :=
  if (tableEntry v.info n).zoneId = 0 then none else blockAt v.dev (tableEntry v.info n)

theorem mapped_entry {m : MappingInfo} {n : Nat} (hn : InTable m n)
    (h : (tableEntry m n).zoneId ≠ 0) : Mapped m n (tableEntry m n) :=
  ⟨hn, rfl, h⟩

theorem stored_of_mapped {v : Volume} {n : Nat} {p : BlockPos} (h : Mapped v.info n p) :
    stored v n = blockAt v.dev p := by
  rw [stored, if_neg (by rw [h.2.1]; exact h.2.2), h.2.1]

theorem Consistent.stored_eq_some {v : Volume} (h : Consistent v) {n : Nat} {p : BlockPos}
    (hm : Mapped v.info n p) : ∃ b, stored v n = some b ∧ ownNumber b = n := by
  rw [stored_of_mapped hm]
  exact h.content hm

theorem Consistent.ne_zero {v : Volume} (h : Consistent v) {n : Nat} (hn : InTable v.info n) :
    n ≠ 0 := by
  rintro rfl
  obtain ⟨_, hidx⟩ := hn
  simp [tableIndex, h.starting] at hidx

/-- Mapped positions lie in the written part of their zone. -/
theorem Consistent.index_lt_length {v : Volume} (h : Consistent v) {n : Nat} {p : BlockPos}
    (hm : Mapped v.info n p) : p.blockIndex < (v.dev p.zoneId).length := by
  obtain ⟨b, hb, _⟩ := h.content hm
  exact (List.getElem?_eq_some_iff.mp hb).1

theorem tableIndex_inj {m : MappingInfo} {n n' : Nat} (hn : n < 2 ^ 32) (hn' : n' < 2 ^ 32)
    (h : tableIndex m n = tableIndex m n') : n = n' := by
  simp only [tableIndex] at h
  have := Nat.mod_lt m.startingLogicalNumber (show 0 < 2 ^ 32 by decide)
  omega

theorem Consistent.entry_zone_lt {v : Volume} (h : Consistent v) {n : Nat} (hn : InTable v.info n) :
    (tableEntry v.info n).zoneId < numberZones := by
  rw [numberZones_eq]
  by_cases hz : (tableEntry v.info n).zoneId = 0
  · omega
  · have hle := (h.inZones (mapped_entry hn hz)).1
    omega

theorem setGCBitmap_strayStores {m : MappingInfo} {p : BlockPos} (h : p.zoneId < numberZones) :
    (hodoSetGCBitmap m p).strayStores = m.strayStores :=
  congrArg (m.strayStores + ·) (if_neg (Nat.not_le.mpr h))

theorem unsetGCBitmap_strayStores {m : MappingInfo} {p : BlockPos} (h : p.zoneId < numberZones) :
    (hodoUnsetGCBitmap m p).strayStores = m.strayStores :=
  congrArg (m.strayStores + ·) (if_neg (Nat.not_le.mpr h))

theorem setTableEntry_strayStores {m : MappingInfo} {n : Nat} (p : BlockPos)
    (h : tableIndex m n < numberMappingTableEntry) :
    (setTableEntry m n p).strayStores = m.strayStores :=
  congrArg (m.strayStores + ·) (if_neg (Nat.not_le.mpr h))

/-- All stores of a write are inside the tables. -/
theorem recordWrite_strayStores {m : MappingInfo} {n : Nat} (hwp : m.wp.zoneId < numberZones)
    (hentry : n ≠ 0 → (tableEntry m n).zoneId < numberZones)
    (hin : tableIndex m (recordWrite m n).1 < numberMappingTableEntry) :
    (recordWrite m n).2.strayStores = m.strayStores := by
  have hset := setGCBitmap_strayStores (m := m) hwp
  by_cases hn : n = 0
  · simp only [recordWrite, if_pos hn] at hin ⊢
    rw [setTableEntry_strayStores m.wp, getNext_strayStores, hset]
    rw [tableIndex, getNext_starting]
    exact hin
  · simp only [recordWrite, if_neg hn] at hin ⊢
    have hunset := unsetGCBitmap_strayStores (m := hodoSetGCBitmap m m.wp) (hentry hn)
    refine (setTableEntry_strayStores m.wp ?_).trans (hunset.trans hset)
    exact hin

theorem recordMove_strayStores {m : MappingInfo} {n : Nat} (hwp : m.swapWp.zoneId < numberZones)
    (hentry : (tableEntry m n).zoneId < numberZones)
    (hin : tableIndex m n < numberMappingTableEntry) :
    (recordMove m n).strayStores = m.strayStores := by
  have hunset := unsetGCBitmap_strayStores (m := hodoSetGCBitmap m m.swapWp) hentry
  refine (setTableEntry_strayStores m.swapWp ?_).trans
    (hunset.trans (setGCBitmap_strayStores hwp))
  exact hin

/-- `m'` is `m` with number `n` recorded at `p` instead of its old position. -/
structure Records (m m' : MappingInfo) (n : Nat) (p : BlockPos) : Prop where
  starting : m'.startingLogicalNumber = m.startingLogicalNumber
  table : m'.mappingTable = update m.mappingTable (tableIndex m n) p
  live_iff : ∀ q : BlockPos, q.zoneId ≠ 0 → (live m' q.zoneId q.blockIndex = true ↔
    q = p ∨ live m q.zoneId q.blockIndex = true ∧ tableEntry m n ≠ q)
  zoneZero : ∀ i, p.zoneId ≠ 0 → live m' 0 i = true → live m 0 i = true

theorem live_setGCBitmap (m : MappingInfo) (p q : BlockPos) :
    live (hodoSetGCBitmap m p) q.zoneId q.blockIndex =
      (decide (q = p) || live m q.zoneId q.blockIndex) := by
  obtain ⟨z, i⟩ := p
  obtain ⟨z', i'⟩ := q
  have hi : i % 32 < 32 := Nat.mod_lt _ (by omega)
  simp only [live, hodoSetGCBitmap, BlockPos.mk.injEq]
  by_cases hz : z' = z
  · subst hz
    rw [update_same, bit_setBit _ hi, Nat.div_add_mod' i 32]
    simp
  · rw [update_other _ _ hz]
    simp [hz]

theorem live_unsetGCBitmap (m : MappingInfo) (p q : BlockPos) :
    live (hodoUnsetGCBitmap m p) q.zoneId q.blockIndex =
      (!decide (q = p) && live m q.zoneId q.blockIndex) := by
  obtain ⟨z, i⟩ := p
  obtain ⟨z', i'⟩ := q
  have hi : i % 32 < 32 := Nat.mod_lt _ (by omega)
  simp only [live, hodoUnsetGCBitmap, BlockPos.mk.injEq]
  by_cases hz : z' = z
  · subst hz
    rw [update_same, bit_clearBit _ hi, Nat.div_add_mod' i 32]
    simp
  · rw [update_other _ _ hz]
    simp [hz]

/-- The bit of the old position is cleared last. -/
theorem live_set_unset (m : MappingInfo) (n : Nat) (p q : BlockPos) :
    live (setTableEntry (hodoUnsetGCBitmap (hodoSetGCBitmap m p) (tableEntry m n)) n p)
        q.zoneId q.blockIndex = true ↔
      q ≠ tableEntry m n ∧ (q = p ∨ live m q.zoneId q.blockIndex = true) := by
  have hrow : live (setTableEntry (hodoUnsetGCBitmap (hodoSetGCBitmap m p) (tableEntry m n)) n p)
      q.zoneId q.blockIndex =
      live (hodoUnsetGCBitmap (hodoSetGCBitmap m p) (tableEntry m n)) q.zoneId q.blockIndex := rfl
  rw [hrow, live_unsetGCBitmap, live_setGCBitmap]
  simp only [Bool.and_eq_true, Bool.not_eq_true', decide_eq_false_iff_not, Bool.or_eq_true,
    decide_eq_true_eq, ne_eq]

/-- Set the new bit, clear the old one, then change the entry. -/
theorem records_of_set_unset (m : MappingInfo) {n : Nat} {p : BlockPos} (h : tableEntry m n ≠ p) :
    Records m
      (setTableEntry (hodoUnsetGCBitmap (hodoSetGCBitmap m p) (tableEntry m n)) n p) n p := by
  have hlive := live_set_unset m n p
  refine ⟨rfl, rfl, fun q _ => (hlive q).trans ⟨?_, ?_⟩, fun i hp hi => ?_⟩
  · rintro ⟨hne, rfl | hq⟩
    · exact Or.inl rfl
    · exact Or.inr ⟨hq, fun he => hne he.symm⟩
  · rintro (rfl | ⟨hq, hne⟩)
    · exact ⟨fun he => h he.symm, Or.inl rfl⟩
    · exact ⟨fun he => hne he.symm, Or.inr hq⟩
  · rcases ((hlive ⟨0, i⟩).mp hi).2 with rfl | hq
    · exact absurd rfl hp
    · exact hq

theorem records_recordMove (m : MappingInfo) {n : Nat} (h : tableEntry m n ≠ m.swapWp) :
    Records m (recordMove m n) n m.swapWp :=
  records_of_set_unset m h

theorem records_recordWrite (m : MappingInfo) {n : Nat} (hn : n ≠ 0) (h : tableEntry m n ≠ m.wp) :
    (recordWrite m n).1 = n ∧ Records m (recordWrite m n).2 n m.wp := by
  rw [recordWrite, if_neg hn]
  exact ⟨rfl, records_of_set_unset m h⟩

/-- A write under number 0 takes the first free number. -/
theorem records_recordWrite_zero (m : MappingInfo) {k : Nat} (hk : k < numberMappingTableEntry)
    (hfree : allocated m k = false) (hbefore : ∀ j, j < k → allocated m j = true)
    (hunmapped : (m.mappingTable k).zoneId = 0) :
    (recordWrite m 0).1 = (m.startingLogicalNumber + k) % 2 ^ 32 ∧
    Records m (recordWrite m 0).2 ((m.startingLogicalNumber + k) % 2 ^ 32) m.wp ∧
    ∀ j, allocated (recordWrite m 0).2 j = (decide (j = k) || allocated m j) := by
  have hnext : hodoGetNextLogicalNumber (hodoSetGCBitmap m m.wp) =
      ((m.startingLogicalNumber + k) % 2 ^ 32,
        hodoSetLogicalBitmap (hodoSetGCBitmap m m.wp) (k / 32) (k % 32)) := by
    rcases getNext_cases (hodoSetGCBitmap m m.wp) with ⟨k', _, hfree', hbefore', heq⟩ | ⟨hfull, _⟩
    · have hkk : k' = k := by
        rcases Nat.lt_trichotomy k' k with hlt | heq | hgt
        · have := hbefore k' hlt
          rw [show allocated m k' = false from hfree'] at this
          cases this
        · exact heq
        · have := hbefore' k hgt
          rw [show allocated (hodoSetGCBitmap m m.wp) k = false from hfree] at this
          cases this
      rw [heq, hkk]
      rfl
    · have := hfull k hk
      rw [show allocated (hodoSetGCBitmap m m.wp) k = false from hfree] at this
      cases this
  have hidx := tableIndex_number m hk
  have hrec : recordWrite m 0 = ((m.startingLogicalNumber + k) % 2 ^ 32,
      setTableEntry (hodoSetLogicalBitmap (hodoSetGCBitmap m m.wp) (k / 32) (k % 32))
        ((m.startingLogicalNumber + k) % 2 ^ 32) m.wp) := by
    simp only [recordWrite, if_true, hnext]
  rw [hrec]
  have hset : ∀ q : BlockPos, live (setTableEntry (hodoSetLogicalBitmap (hodoSetGCBitmap m m.wp)
      (k / 32) (k % 32)) ((m.startingLogicalNumber + k) % 2 ^ 32) m.wp) q.zoneId q.blockIndex =
      true ↔ q = m.wp ∨ live m q.zoneId q.blockIndex = true := by
    intro q
    have hiff := Bool.eq_iff_iff.mp (live_setGCBitmap m m.wp q)
    simp only [Bool.or_eq_true, decide_eq_true_eq] at hiff
    exact hiff
  refine ⟨rfl, ⟨rfl, rfl, fun q hq => ?_, fun i hp hi => ?_⟩, fun j => ?_⟩
  · have hne : tableEntry m ((m.startingLogicalNumber + k) % 2 ^ 32) ≠ q := by
      intro he
      rw [tableEntry, hidx] at he
      rw [← he] at hq
      exact hq hunmapped
    simp only [hne, ne_eq, not_false_eq_true, and_true]
    exact hset q
  · rcases (hset ⟨0, i⟩).mp hi with he | hq
    · exact absurd (congrArg BlockPos.zoneId he).symm hp
    · exact hq
  · exact allocated_setLogicalBitmap (hodoSetGCBitmap m m.wp) k j

theorem Records.inTable {m m' : MappingInfo} {n n' : Nat} {p : BlockPos} (h : Records m m' n p) :
    InTable m' n' ↔ InTable m n' := by
  simp only [InTable, tableIndex, h.starting]

/-- One entry of the table is changed. -/
theorem entry_of_update {m m' : MappingInfo} {n n' : Nat} {p : BlockPos}
    (starting : m'.startingLogicalNumber = m.startingLogicalNumber)
    (table : m'.mappingTable = update m.mappingTable (tableIndex m n) p)
    (hn : InTable m n) (hn' : InTable m n') :
    tableEntry m' n' = if n' = n then p else tableEntry m n' := by
  have hidx : tableIndex m' n' = tableIndex m n' := by simp only [tableIndex, starting]
  rw [tableEntry, hidx, table, update]
  by_cases hne : n' = n
  · rw [if_pos hne, if_pos (by rw [hne])]
  · rw [if_neg hne, if_neg fun he => hne (tableIndex_inj hn'.1 hn.1 he)]
    rfl

theorem Records.entry {m m' : MappingInfo} {n n' : Nat} {p : BlockPos} (h : Records m m' n p)
    (hn : InTable m n) (hn' : InTable m n') :
    tableEntry m' n' = if n' = n then p else tableEntry m n' :=
  entry_of_update h.starting h.table hn hn'

theorem Records.mapped_iff {m m' : MappingInfo} {n n' : Nat} {p q : BlockPos}
    (h : Records m m' n p) (hn : InTable m n) (hp : p.zoneId ≠ 0) :
    Mapped m' n' q ↔ if n' = n then q = p else Mapped m n' q := by
  simp only [Mapped, h.inTable]
  by_cases hn' : InTable m n'
  · simp only [h.entry hn hn']
    split
    case isTrue hne => exact ⟨fun hq => hq.2.1.symm, fun hq => ⟨hn', hq.symm, hq ▸ hp⟩⟩
    case isFalse => rfl
  · have hne : n' ≠ n := fun he => hn' (he ▸ hn)
    simp only [if_neg hne, hn', false_and]

theorem blockAt_append {dev : Nat → List Block} {z : Nat} {b : Block} {p : BlockPos}
    (h : p.blockIndex < (dev p.zoneId).length) :
    blockAt (update dev z (dev z ++ [b])) p = blockAt dev p := by
  simp only [blockAt]
  by_cases hz : p.zoneId = z
  · rw [hz] at h ⊢
    rw [update_same, List.getElem?_append_left h]
  · rw [update_other _ _ hz]

theorem blockAt_append_end {dev : Nat → List Block} {b : Block} {p : BlockPos}
    (h : (dev p.zoneId).length = p.blockIndex) :
    blockAt (update dev p.zoneId (dev p.zoneId ++ [b])) p = some b := by
  rw [blockAt, update_same, ← h, List.getElem?_concat_length]

/-- `v'` is `v` with block `b` written under number `n` at the end of `p`'s zone. -/
structure Appends (v v' : Volume) (n : Nat) (p : BlockPos) (b : Block) : Prop where
  records : Records v.info v'.info n p
  dev : v'.dev = update v.dev p.zoneId (v.dev p.zoneId ++ [b])
  inTable : InTable v.info n
  zone_ne : p.zoneId ≠ 0
  zone_le : p.zoneId ≤ 14
  at_end : (v.dev p.zoneId).length = p.blockIndex
  index_lt : p.blockIndex < blocksPerZone
  names : ownNumber b = n
  strayed : v'.info.strayStores = v.info.strayStores

/-- The end of a zone is nobody's position. -/
theorem Consistent.not_mapped_end {v : Volume} (h : Consistent v) {n : Nat} {p : BlockPos}
    (hend : (v.dev p.zoneId).length = p.blockIndex) : ¬ Mapped v.info n p := by
  intro hm
  have := h.index_lt_length hm
  omega

theorem Appends.consistent {v v' : Volume} {n : Nat} {p : BlockPos} {b : Block}
    (a : Appends v v' n p b) (h : Consistent v) : Consistent v' := by
  have mapped : ∀ {n' q}, Mapped v'.info n' q ↔ if n' = n then q = p else Mapped v.info n' q :=
    a.records.mapped_iff a.inTable a.zone_ne
  have fresh : ∀ {n'}, ¬ Mapped v.info n' p := h.not_mapped_end a.at_end
  constructor
  case starting => rw [a.records.starting, h.starting]
  case inZones =>
    intro n' q hm
    rw [mapped] at hm
    split at hm
    · rw [hm]
      exact ⟨a.zone_le, a.index_lt⟩
    · exact h.inZones hm
  case live_iff =>
    intro q hq hle hlt
    rw [a.records.live_iff q hq, h.live_iff hq hle hlt]
    constructor
    · rintro (rfl | ⟨⟨n', hm⟩, hne⟩)
      · exact ⟨n, by rw [mapped, if_pos rfl]⟩
      · refine ⟨n', ?_⟩
        rw [mapped, if_neg ?_]
        · exact hm
        · rintro rfl
          exact hne hm.2.1
    · rintro ⟨n', hm⟩
      rw [mapped] at hm
      split at hm
      · exact Or.inl hm
      case isFalse hne =>
        refine Or.inr ⟨⟨n', hm⟩, fun he => ?_⟩
        exact hne (h.inj hm ⟨a.inTable, he, hq⟩)
  case inj =>
    intro n₁ n₂ q h₁ h₂
    rw [mapped] at h₁ h₂
    split at h₁ <;> split at h₂
    case isTrue.isTrue he₁ he₂ => rw [he₁, he₂]
    case isTrue.isFalse => exact absurd (h₁ ▸ h₂) fresh
    case isFalse.isTrue => exact absurd (h₂ ▸ h₁) fresh
    case isFalse.isFalse => exact h.inj h₁ h₂
  case content =>
    intro n' q hm
    rw [mapped] at hm
    rw [a.dev]
    split at hm
    case isTrue he => exact ⟨b, by rw [hm]; exact blockAt_append_end a.at_end, by rw [a.names, he]⟩
    case isFalse =>
      obtain ⟨b', hb', hown⟩ := h.content hm
      exact ⟨b', by rw [blockAt_append (h.index_lt_length hm), hb'], hown⟩

/-- Only number `n` gets new contents. -/
theorem Appends.stored {v v' : Volume} {n n' : Nat} {p : BlockPos} {b : Block}
    (a : Appends v v' n p b) (h : Consistent v) (hn' : InTable v.info n') :
    stored v' n' = if n' = n then some b else stored v n' := by
  have hentry := a.records.entry a.inTable hn'
  by_cases he : n' = n
  · rw [if_pos he] at hentry ⊢
    rw [Consistency.stored, hentry, if_neg a.zone_ne, a.dev, blockAt_append_end a.at_end]
  · rw [if_neg he] at hentry ⊢
    simp only [Consistency.stored, hentry]
    split
    · rfl
    case isFalse hz =>
      rw [a.dev, blockAt_append (h.index_lt_length (mapped_entry hn' hz))]

end Consistency
