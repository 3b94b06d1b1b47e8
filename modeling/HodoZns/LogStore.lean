import HodoZns.GCOutcome

/-!
# The log as a plain map

What the translation layer is for: numbers are handed out one after the other,
and a block is found again under the number it was written under. The plain map
knows no zones, no log and no collector.
-/

namespace LogStore

open ByteBlock BitmapWords Layout BlockLog ZoneLog NumberAllocator Collector CallRuns LogCalls
open WritePointers SequentialWrites Consistency Relocation BlockPacking GCOutcome

/-- The numbers `base, …, base + count - 1` have been handed out. -/
structure Store where
  base : Nat
  count : Nat
  content : Nat → Option Block

def Store.used (s : Store) (n : Nat) : Prop := s.base ≤ n ∧ n < s.base + s.count

instance (s : Store) (n : Nat) : Decidable (s.used n) :=
  inferInstanceAs (Decidable (s.base ≤ n ∧ n < s.base + s.count))

def Store.full (s : Store) : Prop := numberMappingTableEntry ≤ s.count

instance (s : Store) : Decidable s.full :=
  inferInstanceAs (Decidable (numberMappingTableEntry ≤ s.count))

def Store.next (s : Store) : Nat × Store :=
  if s.full then (noNumber, s) else (s.base + s.count, { s with count := s.count + 1 })

/-- The number a block is written under: 0 asks for a new one. -/
def Store.choose (s : Store) (n : Nat) : Option (Nat × Store) :=
  if n = 0 then if s.full then none else some s.next
  else if s.used n then some (n, s) else none

/-- A block that does not name its number is not accepted. -/
def Store.put (s : Store) (b : Block) (n : Nat) : Option (Nat × Block × Store) :=
  match s.choose n with
  | none => none
  | some (n, s) =>
    if Names b n then
      some (n, stamp b n, { s with content := update s.content n (some (stamp b n)) })
    else none

def storeStep (s : Store) : LogCall → Option (Answer × Store)
  | .next => some (⟨0, s.next.1, none⟩, s.next.2)
  | .write none _ _ => none
  | .write (some b) len n =>
    if len = hodoDatablockSize then (s.put b n).map fun (n, b, s) => (⟨4096, n, some b⟩, s)
    else none
  | .read _ none _ => none
  | .read n (some _) len =>
    if len = hodoDatablockSize then (s.content n).map fun b => (⟨4096, n, some b⟩, s)
    else none
  | .erase _ => none
  | .gc _ => some (⟨0, 0, none⟩, s)

/-- After the first mount the root inode is there. -/
def mountedStore (stack : Block) (uid gid : Nat) : Store where
  base := 16
  count := 1
  content := update (fun _ => none) 16 (some (rootInode stack 16 uid gid))

structure Represents (v : Volume) (s : Store) : Prop where
  aligned : Aligned v
  consistent : Consistent v
  base : s.base = 16
  count_le : s.count ≤ numberMappingTableEntry
  allocated_iff : ∀ k, k < numberMappingTableEntry → (allocated v.info k = true ↔ k < s.count)
  content : ∀ n, InTable v.info n → stored v n = s.content n
  used : ∀ n b, s.content n = some b → s.used n
  inside : v.info.strayStores = 0

theorem Represents.inTable {v : Volume} {s : Store} (h : Represents v s) {n : Nat} :
    InTable v.info n ↔ 16 ≤ n ∧ n < 16 + numberMappingTableEntry := by
  simp only [InTable, tableIndex, h.consistent.starting, numberMappingTableEntry_eq]
  omega

theorem Represents.inTable_of_used {v : Volume} {s : Store} (h : Represents v s) {n : Nat}
    (hn : s.used n) : InTable v.info n := by
  have hle := h.count_le
  obtain ⟨hlo, hhi⟩ := hn
  rw [h.base] at hlo hhi
  rw [h.inTable]
  omega

/-- A number that was not handed out has no block. -/
theorem Represents.unmapped {v : Volume} {s : Store} (h : Represents v s) {n : Nat}
    (hn : InTable v.info n) (hnot : ¬ s.used n) : (tableEntry v.info n).zoneId = 0 := by
  by_contra hz
  obtain ⟨b, hb, _⟩ := h.consistent.stored_eq_some (mapped_entry hn hz)
  rw [h.content n hn] at hb
  exact hnot (h.used n b hb)

theorem Represents.stored_names {v : Volume} {s : Store} (h : Represents v s) {n : Nat} {b : Block}
    (hb : s.content n = some b) : ∃ p, Mapped v.info n p ∧ blockAt v.dev p = some b := by
  have hn := h.inTable_of_used (h.used n b hb)
  have hs := (h.content n hn).trans hb
  have hz : (tableEntry v.info n).zoneId ≠ 0 := by
    intro hz
    rw [stored, if_pos hz] at hs
    cases hs
  have hm := mapped_entry hn hz
  exact ⟨_, hm, by rw [← hs, stored_of_mapped hm]⟩

theorem Represents.not_full {v : Volume} {s : Store} (h : Represents v s)
    (free : FreeNumber v.info) : ¬ s.full := by
  obtain ⟨k, hk, hfree⟩ := free
  intro hfull
  rw [(h.allocated_iff k hk).mpr (Nat.lt_of_lt_of_le hk hfull)] at hfree
  cases hfree

theorem represents_read {v : Volume} {s : Store} (h : Represents v s) {n : Nat} {b : Block}
    (hb : s.content n = some b) (buf : Block) :
    hodoReadStruct standardGeometry ioOk v n (some buf) hodoDatablockSize =
      some (4096, some b) := by
  obtain ⟨p, hm, hblock⟩ := h.stored_names hb
  obtain ⟨hz, hi⟩ := h.consistent.inZones hm
  rw [hodoReadStruct_eq, if_pos hm.1, hm.2.1, readAt_ok v hz hi, hblock]

/-- The first free number is the one the map hands out. -/
theorem represents_getNext {v : Volume} {s : Store} (h : Represents v s) :
    (hodoGetNextLogicalNumber v.info).1 = s.next.1 ∧
    Represents { v with info := (hodoGetNextLogicalNumber v.info).2 } s.next.2 := by
  have hle := h.count_le
  rcases getNext_cases v.info with ⟨k, hk, hfree, hbefore, heq⟩ | ⟨hall, heq⟩
  · have hnot : ¬ k < s.count := fun hlt => by
      rw [(h.allocated_iff k hk).mpr hlt] at hfree
      cases hfree
    have hkc : k = s.count := by
      rcases Nat.lt_trichotomy k s.count with hlt | heq | hgt
      · exact absurd hlt hnot
      · exact heq
      · have := (h.allocated_iff s.count (by omega)).mp (hbefore _ hgt)
        omega
    subst hkc
    have hfull : ¬ s.full := by
      rw [Store.full]
      omega
    rw [heq, Store.next, if_neg hfull]
    refine ⟨?_, aligned_of_info h.aligned rfl, ?_, h.base, hk, fun j hj => ?_, h.content,
      fun n b hb => ?_, h.inside⟩
    · simp only [numberMappingTableEntry_eq] at hk
      rw [h.consistent.starting, h.base]
      exact Nat.mod_eq_of_lt (by omega)
    · exact ⟨h.consistent.starting, h.consistent.inZones, h.consistent.live_iff, h.consistent.inj,
        h.consistent.content⟩
    · rw [allocated_setLogicalBitmap]
      simp only [Bool.or_eq_true, decide_eq_true_eq, h.allocated_iff j hj]
      omega
    · obtain ⟨hlo, hhi⟩ := h.used n b hb
      exact ⟨hlo, by simp only; omega⟩
  · have hfull : s.full := by
      by_contra hfull
      simp only [Store.full] at hfull
      have := (h.allocated_iff s.count (by omega)).mp (hall s.count (by omega))
      omega
    rw [heq, Store.next, if_pos hfull]
    exact ⟨rfl, h⟩

/-- What a write records before the transfer, for a new number and for an old one. -/
structure Chosen (v : Volume) (s s' : Store) (n L : Nat) : Prop where
  number : (recordWrite v.info n).1 = L
  records : Records v.info (recordWrite v.info n).2 L v.info.wp
  inTable : InTable v.info L
  allocated_iff : ∀ k, k < numberMappingTableEntry →
    (allocated (recordWrite v.info n).2 k = true ↔ k < s'.count)
  base : s'.base = s.base
  content : s'.content = s.content
  count_le : s.count ≤ s'.count ∧ s'.count ≤ numberMappingTableEntry
  used : s'.used L
  strayed : (recordWrite v.info n).2.strayStores = v.info.strayStores

theorem chosen_of_choose {v : Volume} {s s' : Store} {n L : Nat} (h : Represents v s)
    (hz : WpInData v) (hchoose : s.choose n = some (L, s')) : Chosen v s s' n L := by
  have hwp : v.info.wp.zoneId ≠ 0 := by
    have := hz.1
    omega
  have hle : v.info.wp.zoneId ≤ 14 := Nat.le_succ_of_le hz.2
  have hend := h.aligned.at_wp
  rw [Store.choose] at hchoose
  by_cases hn : n = 0
  · subst hn
    rw [if_pos rfl] at hchoose
    by_cases hfull : s.full
    · rw [if_pos hfull] at hchoose
      cases hchoose
    rw [if_neg hfull, Store.next, if_neg hfull] at hchoose
    obtain ⟨rfl, rfl⟩ := Prod.mk.inj (Option.some.inj hchoose)
    have hcount : s.count < numberMappingTableEntry := Nat.not_le.mp hfull
    have hmod : (v.info.startingLogicalNumber + s.count) % 2 ^ 32 = s.base + s.count := by
      simp only [numberMappingTableEntry_eq] at hcount
      rw [h.consistent.starting, h.base]
      exact Nat.mod_eq_of_lt (by omega)
    have hin : InTable v.info (s.base + s.count) := by
      rw [h.inTable, h.base]
      omega
    have hunmapped := h.unmapped hin fun hused => Nat.lt_irrefl _ hused.2
    have hidx := tableIndex_number v.info hcount
    rw [tableEntry, ← hmod, hidx] at hunmapped
    obtain ⟨hnum, hrec, halloc⟩ := records_recordWrite_zero v.info hcount
      (by
        cases hc : allocated v.info s.count with
        | false => rfl
        | true => exact absurd ((h.allocated_iff _ hcount).mp hc) (Nat.lt_irrefl _))
      (fun j hj => (h.allocated_iff j (by omega)).mpr hj) hunmapped
    rw [hmod] at hnum hrec
    refine ⟨hnum, hrec, hin, fun k hk => ?_, rfl, rfl, ⟨Nat.le_succ _, hcount⟩,
      ⟨Nat.le_add_right _ _, Nat.lt_succ_self _⟩,
      recordWrite_strayStores (Nat.lt_succ_of_le (Nat.le_succ_of_le hle)) (absurd rfl)
        (by rw [hnum]; exact hin.2)⟩
    rw [halloc k]
    simp only [Bool.or_eq_true, decide_eq_true_eq, h.allocated_iff k hk]
    omega
  · rw [if_neg hn] at hchoose
    by_cases hused : s.used n
    · rw [if_pos hused] at hchoose
      obtain ⟨rfl, rfl⟩ := Prod.mk.inj (Option.some.inj hchoose)
      have hin := h.inTable_of_used hused
      obtain ⟨hnum, hrec⟩ := records_recordWrite v.info hn (entry_ne_end h.consistent hin hwp hend)
      refine ⟨hnum, hrec, hin, fun k hk => ?_, rfl, rfl, ⟨Nat.le_refl _, h.count_le⟩, hused,
        recordWrite_strayStores (Nat.lt_succ_of_le (Nat.le_succ_of_le hle))
          (fun _ => h.consistent.entry_zone_lt hin)
          (by rw [hnum]; exact hin.2)⟩
      rw [allocated, recordWrite_bitmap v.info hn]
      exact h.allocated_iff k hk
    · rw [if_neg hused] at hchoose
      cases hchoose

/-- What a successful write leaves of the volume it found. -/
structure Written (v v' : Volume) (L : Nat) : Prop where
  wp : v'.info.wp = nextWp standardGeometry v.info.wp hodoDatablockSize
  entry : ∀ n, InTable v.info n →
    tableEntry v'.info n = if n = L then v.info.wp else tableEntry v.info n

theorem represents_write {v : Volume} {s s' : Store} {b b' : Block} {n L : Nat}
    (h : Represents v s) (hz : WpInData v) (hput : s.put b n = some (L, b', s')) :
    ∃ v', hodoWriteStruct standardGeometry ioOk v (some b) hodoDatablockSize n =
      ⟨4096, L, some b', v'⟩ ∧ Represents v' s' ∧ Written v v' L := by
  have hwp : v.info.wp.zoneId ≠ 0 := by
    have := hz.1
    omega
  rw [Store.put] at hput
  cases hchoose : s.choose n with
  | none =>
    rw [hchoose] at hput
    cases hput
  | some r =>
    obtain ⟨L₁, s₁⟩ := r
    rw [hchoose] at hput
    simp only at hput
    by_cases hnames : Names b L₁
    case neg =>
      rw [if_neg hnames] at hput
      cases hput
    rw [if_pos hnames] at hput
    obtain ⟨rfl, hrest⟩ := Prod.mk.inj (Option.some.inj hput)
    obtain ⟨rfl, rfl⟩ := Prod.mk.inj hrest
    have c := chosen_of_choose h hz hchoose
    have hwrite := hodoWriteStruct_ok b n (by have := hz.2; omega) h.aligned.at_wp
      h.aligned.index_lt
    have haligned := aligned_write h.aligned hz.2 b n
    rw [hwrite] at haligned
    simp only [c.number] at hwrite haligned
    refine ⟨_, hwrite, ?_⟩
    have a : Appends v (setWp (appended v (recordWrite v.info n).2 v.info.wp.zoneId L₁
        (stamp b L₁)) (nextWp standardGeometry v.info.wp hodoDatablockSize)) L₁ v.info.wp
        (stamp b L₁) :=
      ⟨⟨c.records.starting, c.records.table, c.records.live_iff, c.records.zoneZero⟩, rfl,
        c.inTable, hwp, by have := hz.2; omega, h.aligned.at_wp, h.aligned.index_lt,
        ownNumber_stamp hnames c.inTable.1, c.strayed⟩
    refine ⟨⟨haligned, a.consistent h.consistent, c.base.trans h.base, c.count_le.2,
      c.allocated_iff, fun n' hn' => ?_, fun n' b₁ hb₁ => ?_, a.strayed.trans h.inside⟩, rfl,
      fun n' hn' => a.records.entry c.inTable hn'⟩
    · have hin := a.records.inTable.mp hn'
      rw [a.stored h.consistent hin]
      simp only [update, c.content]
      split
      · rfl
      · exact h.content n' hin
    · simp only [update] at hb₁
      split at hb₁
      case isTrue he =>
        rw [he]
        exact c.used
      case isFalse =>
        rw [c.content] at hb₁
        obtain ⟨hlo, hhi⟩ := h.used n' b₁ hb₁
        have hle := c.count_le.1
        exact ⟨by rw [c.base]; exact hlo, by simp only [c.base]; omega⟩

theorem represents_gc {v : Volume} {s : Store} (h : Represents v s) (hz : WpInData v)
    (hsparse : Sparse v.info) (kmem : Block) :
    ∃ v', GC standardGeometry kmem v = some v' ∧ Represents v' s ∧
      v'.info.logicalEntryBitmap = v.info.logicalEntryBitmap := by
  obtain ⟨v', hgc, haligned, ⟨_, done, hpacked⟩ | ⟨hcrowded, _⟩⟩ :=
    GC_outcome ⟨h.aligned.clearAhead, h.consistent, hz.2⟩ kmem
  · have hsame := hpacked.same
    refine ⟨v', hgc, ⟨haligned, hsame.consistent, h.base, h.count_le, fun k hk => ?_,
      fun n hn => ?_, h.used, hsame.strayed.trans h.inside⟩, hsame.bitmap⟩
    · rw [allocated, hsame.bitmap]
      exact h.allocated_iff k hk
    · have hin := hsame.inTable.mp hn
      rw [hsame.stored_eq n hin]
      exact h.content n hin
  · exact absurd hsparse hcrowded

theorem isDat_putInodeFields (stack : Block) (f : InodeFields) :
    isDat (putInodeFields stack f) = false := by
  have hfirst : byteAt (putInodeFields stack f) 0 = chr 'I' := by
    simp only [putInodeFields]
    iterate 6 rw [byteAt_putLE_outside _ _ (by omega)]
    rw [byteAt_copyIn_outside _ _ (by omega)]
    iterate 2 rw [byteAt_putLE_outside _ _ (by omega)]
    rw [putMagic, byteAt_copyIn_inside _ _ (by omega) (by omega) (by omega)]
    rfl
  rw [isDat, hfirst]
  rfl

theorem iIno_putInodeFields (stack : Block) (f : InodeFields) :
    iIno (putInodeFields stack f) = f.iIno % 2 ^ 32 := by
  simp only [iIno, putInodeFields]
  iterate 4 rw [getLE_putLE_outside _ _ (by omega)]
  rw [getLE_putLE _ _ (by omega), show 256 ^ 4 = 2 ^ 32 by decide]

theorem names_rootInode (stack : Block) {n : Nat} (hn : n < 2 ^ 32) (uid gid : Nat) :
    Names (rootInode stack n uid gid) n := by
  refine Or.inr ?_
  rw [rootInode, iIno_putInodeFields]
  exact Nat.mod_eq_of_lt hn

theorem stamp_rootInode (stack : Block) (n uid gid : Nat) :
    stamp (rootInode stack n uid gid) n = rootInode stack n uid gid := by
  rw [stamp, if_neg]
  rw [rootInode, isDat_putInodeFields]
  decide

theorem represents_unwritten : Represents unwritten ⟨16, 0, fun _ => none⟩ := by
  have hunmapped : ∀ {n p}, ¬ Mapped unwritten.info n p := by
    rintro n p ⟨_, hentry, hz⟩
    exact hz (hentry ▸ rfl)
  have hdead : ∀ z i, live unwritten.info z i = false := fun _ i => testBit_full false (i % 32)
  have hfree : ∀ k, allocated unwritten.info k = false := fun k => testBit_full false (k % 32)
  refine ⟨aligned_unwritten, ⟨rfl, ?_, ?_, ?_, ?_⟩, rfl, Nat.zero_le _, ?_, fun _ _ => rfl, ?_,
    rfl⟩
  · exact fun hm => absurd hm hunmapped
  · intro p _ _ _
    rw [hdead]
    exact iff_of_false (by decide) fun ⟨n, hm⟩ => hunmapped hm
  · exact fun hm => absurd hm hunmapped
  · exact fun hm => absurd hm hunmapped
  · intro k _
    rw [hfree]
    exact iff_of_false (by decide) (Nat.not_lt_zero k)
  · rintro n b hb
    cases hb

theorem firstMount_written (stack : Block) (uid gid : Nat) :
    Represents (firstMount standardGeometry stack uid gid) (mountedStore stack uid gid) ∧
    Written { unwritten with info := (hodoGetNextLogicalNumber unwritten.info).2 }
      (firstMount standardGeometry stack uid gid) 16 := by
  obtain ⟨hnumber, hnext⟩ := represents_getNext represents_unwritten
  have hfull : ¬ Store.full ⟨16, 0, fun _ => none⟩ := by
    simp [Store.full]
  simp only [Store.next, if_neg hfull] at hnumber hnext
  have hput : Store.put ⟨16, 1, fun _ => none⟩ (rootInode stack 16 uid gid) 16 =
      some (16, rootInode stack 16 uid gid, mountedStore stack uid gid) := by
    simp only [Store.put, Store.choose]
    rw [if_neg (by decide), if_pos (by decide)]
    simp only
    rw [if_pos (names_rootInode stack (by decide) uid gid), stamp_rootInode]
    rfl
  obtain ⟨v', hwrite, h, written⟩ :=
    represents_write hnext ⟨by rw [getNext_wp]; exact Nat.le_refl 1,
    by rw [getNext_wp]; decide⟩ hput
  have hmount : firstMount standardGeometry stack uid gid = v' := by
    rw [firstMount_eq, hnumber, hwrite]
  rw [hmount]
  exact ⟨h, written⟩

theorem represents_firstMount (stack : Block) (uid gid : Nat) :
    Represents (firstMount standardGeometry stack uid gid) (mountedStore stack uid gid) :=
  (firstMount_written stack uid gid).1

/-- What a run needs from the log: room in the data zones, and no crowded zones
when the collector is called. -/
def RoomFor (v : Volume) : LogCall → Prop
  | .write _ _ _ => WpInData v
  | .gc _ => WpInData v ∧ Sparse v.info
  | _ => True

theorem call_simulates {v : Volume} {s s' : Store} {c : LogCall} {a : Answer}
    (h : Represents v s) (room : RoomFor v c) (hstep : storeStep s c = some (a, s')) :
    ∃ v', callStep standardGeometry v c = some (a, v') ∧ Represents v' s' := by
  cases c with
  | next =>
    obtain ⟨rfl, rfl⟩ := Prod.mk.inj (Option.some.inj hstep)
    obtain ⟨hnumber, h'⟩ := represents_getNext h
    exact ⟨_, by rw [callStep, ← hnumber], h'⟩
  | write buf len n =>
    cases buf with
    | none => cases hstep
    | some b =>
      rw [storeStep] at hstep
      split at hstep
      case isFalse => cases hstep
      case isTrue hlen =>
      obtain ⟨⟨L, b', s₁⟩, hput, heq⟩ := Option.map_eq_some_iff.mp hstep
      obtain ⟨rfl, rfl⟩ := Prod.mk.inj heq
      obtain ⟨v', hwrite, h', _⟩ := represents_write h room hput
      exact ⟨v', by rw [callStep, hlen, hwrite], h'⟩
  | read n outBuf len =>
    cases outBuf with
    | none => cases hstep
    | some buf =>
      rw [storeStep] at hstep
      split at hstep
      case isFalse => cases hstep
      case isTrue hlen =>
      obtain ⟨b, hb, heq⟩ := Option.map_eq_some_iff.mp hstep
      obtain ⟨rfl, rfl⟩ := Prod.mk.inj heq
      exact ⟨v, by rw [callStep, hlen, represents_read h hb]; rfl, h⟩
  | erase n => cases hstep
  | gc kmem =>
    obtain ⟨rfl, rfl⟩ := Prod.mk.inj (Option.some.inj hstep)
    obtain ⟨v', hgc, h', _⟩ := represents_gc h room.1 room.2 kmem
    exact ⟨v', by rw [callStep, hgc]; rfl, h'⟩

/-- What the plain map answers to a run from the first mount, the log answers. -/
theorem log_refines_store (stack : Block) (uid gid : Nat) (cs : List LogCall) (as : List Answer)
    (s : Store)
    (room : EachCall (callStep standardGeometry) RoomFor cs
      (firstMount standardGeometry stack uid gid))
    (answers : run storeStep cs (mountedStore stack uid gid) = some (as, s)) :
    ∃ v, run (callStep standardGeometry) cs (firstMount standardGeometry stack uid gid) =
      some (as, v) := by
  obtain ⟨v, hrun, _⟩ := run_simulates RoomFor Represents
    (fun v s c a s' h room hstep => call_simulates h room hstep)
    (represents_firstMount stack uid gid) room answers
  exact ⟨v, hrun⟩

/-- Live blocks are blocks of the plain map. -/
theorem liveCount_le_count {v : Volume} {s : Store} (h : Represents v s) (hz : WpInData v) {r : Nat}
    (hr : r ≤ 13) : liveCount v.info r ≤ s.count := by
  calc liveCount v.info r ≤ ((List.range s.count).map fun k => 16 + k).length :=
        liveCount_le ⟨h.aligned.clearAhead, h.consistent, hz.2⟩ hr fun n p hm _ => by
          obtain ⟨b, hb, _⟩ := h.consistent.stored_eq_some hm
          rw [h.content n hm.1] at hb
          obtain ⟨hlo, hhi⟩ := h.used n b hb
          rw [h.base] at hlo hhi
          exact List.mem_map.mpr ⟨n - 16, List.mem_range.mpr (by omega), by omega⟩
    _ = s.count := by rw [List.length_map, List.length_range]

/-- Few blocks never crowd the zones. -/
theorem sparse_of_count {v : Volume} {s : Store} (h : Represents v s) (hz : WpInData v)
    (hcount : s.count ≤ blocksPerZone - 1) : Sparse v.info := by
  intro r hr hr'
  calc liveCount v.info r ≤ s.count := liveCount_le_count h hz hr'
    _ ≤ 1 * (blocksPerZone - 1) := by omega
    _ ≤ r * (blocksPerZone - 1) := Nat.mul_le_mul_right _ hr

/-- One data block is written, the collector runs, and the block is read. -/
def storedRun : List LogCall :=
  [.write (some emptyData) 4096 0, .gc zeros, .read 17 (some zeros) 4096]

def storedMap : Store where
  base := 16
  count := 2
  content := update (mountedStore zeros 0 0).content 17 (some (stamp emptyData 17))

theorem storeStep_emptyData : storeStep (mountedStore zeros 0 0) (.write (some emptyData) 4096 0) =
    some (⟨4096, 17, some (stamp emptyData 17)⟩, storedMap) := by
  have hdat : isDat emptyData = true := by decide +kernel
  have hnames : Names emptyData 17 := Or.inl hdat
  simp [storeStep, Store.put, Store.choose, Store.full, Store.next, mountedStore, hnames, storedMap]

theorem storedRun_read : ∃ v, run (callStep standardGeometry) storedRun
    (firstMount standardGeometry zeros 0 0) = some ([⟨4096, 17, some (stamp emptyData 17)⟩,
      ⟨0, 0, none⟩, ⟨4096, 17, some (stamp emptyData 17)⟩], v) := by
  have room : WpInData (firstMount standardGeometry zeros 0 0) := by decide +kernel
  have answers : run storeStep storedRun (mountedStore zeros 0 0) =
      some ([⟨4096, 17, some (stamp emptyData 17)⟩, ⟨0, 0, none⟩,
        ⟨4096, 17, some (stamp emptyData 17)⟩], storedMap) := by
    rw [storedRun, run_cons storeStep_emptyData]
    simp [run, storeStep, storedMap]
  refine log_refines_store zeros 0 0 storedRun _ _ ⟨room, fun a v hstep => ?_⟩ answers
  obtain ⟨v', hcall, h⟩ := call_simulates (c := .write (some emptyData) 4096 0)
    (represents_firstMount zeros 0 0) room storeStep_emptyData
  rw [hstep] at hcall
  obtain ⟨_, rfl⟩ := Prod.mk.inj (Option.some.inj hcall)
  have data : WpInData v := by
    obtain ⟨_, rfl⟩ := Prod.mk.inj (Option.some.inj hstep)
    decide +kernel
  exact ⟨⟨data, sparse_of_count h data (by simp [storedMap])⟩,
    fun _ _ _ => ⟨trivial, fun _ _ _ => trivial⟩⟩

end LogStore
