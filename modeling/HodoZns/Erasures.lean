import HodoZns.VolumeMachine

/-!
# The log after an erasure

`hodo_erase_table_entry` leaves the position of the block marked live, and the
block that `hodo_unlink` then writes under the number does not name it. Neither
matters to the other numbers: a volume that is like a represented one, up to the
GC bitmap and the entries of unmapped numbers, answers for all that is mapped
there.
-/

namespace Erasures

open ByteBlock BitmapWords Layout BlockLog ZoneLog NumberAllocator LogCalls WritePointers
  Consistency
open SequentialWrites Collector BlockPacking LogStore Programs Kernel StoreMachine VolumeMachine

/-- `v` is like `w` in all that a number mapped in `w` depends on. -/
structure Near (v w : Volume) : Prop where
  starting : v.info.startingLogicalNumber = w.info.startingLogicalNumber
  bitmap : v.info.logicalEntryBitmap = w.info.logicalEntryBitmap
  wp : v.info.wp = w.info.wp
  dev : v.dev = w.dev
  strayed : v.info.strayStores = w.info.strayStores
  entry : ∀ i, (w.info.mappingTable i).zoneId ≠ 0 → v.info.mappingTable i = w.info.mappingTable i
  zones : ∀ n, InTable v.info n → (tableEntry v.info n).zoneId < numberZones

theorem Represents.near {v : Volume} {s : Store} (h : Represents v s) : Near v v :=
  ⟨rfl, rfl, rfl, rfl, rfl, fun _ _ => rfl, fun _ hn => h.consistent.entry_zone_lt hn⟩

section

variable {v w : Volume} {s : Store}

theorem Near.index_eq (h : Near v w) (n : Nat) : tableIndex v.info n = tableIndex w.info n := by
  simp only [tableIndex, h.starting]

theorem Near.inTable (h : Near v w) {n : Nat} : InTable v.info n ↔ InTable w.info n := by
  simp only [InTable, h.index_eq]

theorem Near.getNext (h : Near v w) :
    (hodoGetNextLogicalNumber v.info).1 = (hodoGetNextLogicalNumber w.info).1 ∧
    Near { v with info := (hodoGetNextLogicalNumber v.info).2 }
      { w with info := (hodoGetNextLogicalNumber w.info).2 } := by
  simp only [hodoGetNextLogicalNumber, h.bitmap, h.starting]
  split
  · refine ⟨rfl, h.starting, ?_, h.wp, h.dev, h.strayed, h.entry, h.zones⟩
    simp only [hodoSetLogicalBitmap, h.bitmap]
  · exact ⟨rfl, h⟩

/-- A bit of the GC bitmap does not matter, as long as its row is there. -/
theorem Near.unsetGCBitmap (h : Near v w) {p q : BlockPos} (hp : p.zoneId < numberZones)
    (hq : q.zoneId < numberZones) :
    Near { v with info := hodoUnsetGCBitmap v.info p }
      { w with info := hodoUnsetGCBitmap w.info q } where
  starting := h.starting
  bitmap := h.bitmap
  wp := h.wp
  dev := h.dev
  strayed :=
    (unsetGCBitmap_strayStores hp).trans (h.strayed.trans (unsetGCBitmap_strayStores hq).symm)
  entry := h.entry
  zones := h.zones

theorem Near.setTableEntry (h : Near v w) (n : Nat) {p : BlockPos} (hp : p.zoneId < numberZones) :
    Near { v with info := setTableEntry v.info n p }
      { w with info := setTableEntry w.info n p } where
  starting := h.starting
  bitmap := h.bitmap
  wp := h.wp
  dev := h.dev
  strayed := by
    simp only [BlockLog.setTableEntry, h.strayed, h.index_eq]
  entry i hi := by
    simp only [BlockLog.setTableEntry, h.index_eq, update] at hi ⊢
    split
    case isTrue => rfl
    case isFalse hne =>
      rw [if_neg hne] at hi
      exact h.entry i hi
  zones n' hn' := by
    have hentry : tableEntry (BlockLog.setTableEntry v.info n p) n' =
        if tableIndex v.info n' = tableIndex v.info n then p else tableEntry v.info n' := rfl
    simp only [hentry]
    split
    · exact hp
    · exact h.zones n' hn'

/-- A write is recorded in both in the same way. -/
theorem Near.recorded (h : Near v w) {n : Nat} (hwp : w.info.wp.zoneId < numberZones)
    (hn : n ≠ 0 → InTable w.info n ∧ (tableEntry w.info n).zoneId < numberZones) :
    (recordWrite v.info n).1 = (recordWrite w.info n).1 ∧
    Near { v with info := (recordWrite v.info n).2 }
      { w with info := (recordWrite w.info n).2 } := by
  have hset : Near { v with info := hodoSetGCBitmap v.info v.info.wp }
      { w with info := hodoSetGCBitmap w.info w.info.wp } := by
    refine ⟨h.starting, h.bitmap, h.wp, h.dev, ?_, h.entry, h.zones⟩
    simp only [hodoSetGCBitmap, h.strayed, h.wp]
  simp only [recordWrite, h.wp] at hset ⊢
  by_cases hzero : n = 0
  · obtain ⟨hnumber, hnext⟩ := hset.getNext
    simp only [if_pos hzero, hnumber]
    exact ⟨trivial, hnext.setTableEntry _ hwp⟩
  · obtain ⟨hin, hentry⟩ := hn hzero
    simp only [if_neg hzero]
    exact ⟨trivial, (hset.unsetGCBitmap (h.zones n (h.inTable.mpr hin)) hentry).setTableEntry n hwp⟩

theorem Near.write (h : Near v w) (aligned : Aligned w) (hz : w.info.wp.zoneId ≤ 13) (b : Block)
    {n : Nat} (hn : n ≠ 0 → InTable w.info n ∧ (tableEntry w.info n).zoneId < numberZones) :
    ∃ v', hodoWriteStruct standardGeometry ioOk v (some b) hodoDatablockSize n =
      { hodoWriteStruct standardGeometry ioOk w (some b) hodoDatablockSize n with volume := v' } ∧
      Near v' (hodoWriteStruct standardGeometry ioOk w (some b) hodoDatablockSize n).volume := by
  have hwp : w.info.wp.zoneId < numberZones := by
    rw [numberZones_eq]
    omega
  obtain ⟨hnumber, near⟩ := h.recorded hwp hn
  have hend : (v.dev v.info.wp.zoneId).length = v.info.wp.blockIndex := by
    rw [h.wp, h.dev]
    exact aligned.at_wp
  rw [hodoWriteStruct_ok b n (by omega) aligned.at_wp aligned.index_lt,
    hodoWriteStruct_ok b n (by rw [h.wp]; omega) hend (by rw [h.wp]; exact aligned.index_lt)]
  simp only [hnumber]
  refine ⟨_, rfl, near.starting, near.bitmap, ?_, ?_, near.strayed, near.entry, near.zones⟩
  · simp only [setWp, h.wp]
  · simp only [setWp, appended, h.wp, h.dev]

theorem Near.read (h : Near v w) (rep : Represents w s) {n : Nat} {b : Block}
    (hb : s.content n = some b) (buf : Block) :
    hodoReadStruct standardGeometry ioOk v n (some buf) hodoDatablockSize =
      some (4096, some b) := by
  obtain ⟨p, hm, _⟩ := rep.stored_names hb
  have hentry : tableEntry v.info n = tableEntry w.info n := by
    rw [tableEntry, h.index_eq]
    exact h.entry _ (by rw [← tableEntry, hm.2.1]; exact hm.2.2)
  have hread := represents_read rep hb buf
  rw [hodoReadStruct_eq, if_pos hm.1] at hread
  rw [hodoReadStruct_eq, if_pos (h.inTable.mpr hm.1), hentry, ← hread]
  simp only [readAt_some, zoneRead, h.dev]

end

/-- The machine over the log follows the one over the map; when the log is not `intact`,
only in what is there in the map. -/
structure Follows (intact : Bool) (m : Machine Volume) (a : Machine Store) : Prop where
  near : ∃ w, (intact = true → w = m.disk) ∧ Near m.disk w ∧ Represents w a.disk
  beyond : ∀ k, numberMappingTableEntry ≤ k → allocated m.disk.info k = false
  inodes : m.inodes = a.inodes
  inodeCount : m.inodeCount = a.inodeCount
  tick : m.tick = a.tick

theorem Follows.represents {m : Machine Volume} {a : Machine Store} (h : Follows true m a) :
    Represents m.disk a.disk := by
  obtain ⟨w, hw, _, rep⟩ := h.near
  rwa [hw rfl] at rep

theorem allocated_getNext_beyond {m : MappingInfo} {k : Nat} (hk : numberMappingTableEntry ≤ k) :
    allocated (hodoGetNextLogicalNumber m).2 k = allocated m k := by
  rcases getNext_cases m with ⟨j, hj, _, _, heq⟩ | ⟨_, heq⟩
  · rw [heq, allocated_setLogicalBitmap, decide_eq_false (by omega), Bool.false_or]
  · rw [heq]

theorem allocated_recordWrite_beyond {m : MappingInfo} {n k : Nat}
    (hk : numberMappingTableEntry ≤ k) :
    allocated (recordWrite m n).2 k = allocated m k := by
  simp only [recordWrite]
  by_cases hn : n = 0
  · simp only [if_pos hn]
    exact allocated_getNext_beyond hk
  · simp only [if_neg hn]
    rfl

theorem allocated_write_beyond (v : Volume) (b : Block) (n : Nat) {k : Nat}
    (hk : numberMappingTableEntry ≤ k) :
    allocated (hodoWriteStruct standardGeometry ioOk v (some b) hodoDatablockSize n).volume.info k =
      allocated v.info k := by
  simp only [hodoWriteStruct_some]
  split
  · rfl
  · split <;> exact allocated_recordWrite_beyond hk

theorem follows_mounted (stack : Block) (uid gid groups : Nat) (now : Timespec) :
    Follows true (Operations.mounted (firstMount standardGeometry stack uid gid) groups now)
      (Operations.mounted (mountedStore stack uid gid) groups now) := by
  have rep := represents_firstMount stack uid gid
  refine ⟨⟨_, fun _ => rfl, Represents.near rep, rep⟩, fun k hk => ?_, rfl, rfl, rfl⟩
  have hfree : allocated unwritten.info k = false := testBit_full false (k % 32)
  simp only [Operations.mounted, firstMount_eq]
  exact (allocated_write_beyond _ _ _ hk).trans ((allocated_getNext_beyond hk).trans hfree)

/-- A number that is written under is new or one that was handed out. -/
theorem used_of_put {s s' : Store} {b b' : Block} {n L : Nat} (hput : s.put b n = some (L, b', s'))
    (hn : n ≠ 0) : s.used n := by
  by_contra hused
  simp only [Store.put, Store.choose, if_neg hn, if_neg hused] at hput
  cases hput

section

variable {intact : Bool}

theorem follows_write {m : Machine Volume} {a : Machine Store} (E : Env) (h : Follows intact m a)
    (buf : Block) (n : Nat) (fits : Fits m (.write buf n)) :
    Matches (Follows intact) (machine volumeDisk E (.write buf n) m)
      (machine storeDisk E (.write buf n) a) := by
  obtain ⟨w, same, near, rep⟩ := h.near
  obtain ⟨data, free⟩ := fits
  have data' : WpInData w := by
    rw [WpInData, ← near.wp]
    exact data
  have hroom : ¬ (n = 0 ∧ a.disk.full) := by
    rintro ⟨hn, hfull⟩
    obtain ⟨k, hk, hfree⟩ := free hn
    rw [allocated, near.bitmap] at hfree
    exact rep.not_full ⟨k, hk, hfree⟩ hfull
  simp only [machine, storeDisk, volumeDisk, if_neg hroom]
  cases hput : a.disk.put buf n with
  | none => trivial
  | some r =>
    obtain ⟨L, b, s'⟩ := r
    obtain ⟨w', hwrite, rep', _⟩ := represents_write rep data' hput
    have known : n ≠ 0 → InTable w.info n ∧ (tableEntry w.info n).zoneId < numberZones :=
      fun hn => by
        have hin := rep.inTable_of_used (used_of_put hput hn)
        exact ⟨hin, rep.consistent.entry_zone_lt hin⟩
    obtain ⟨v', hwrite', near'⟩ := near.write rep.aligned data'.2 buf known
    rw [hwrite] at hwrite' near'
    have inside : v'.info.strayStores = 0 := near'.strayed.trans rep'.inside
    simp only [hwrite', unlessStrayed, if_pos inside, Outcome.map, Option.getD_some]
    refine ⟨_, rfl, ⟨w', fun hi => ?_, near', rep'⟩, fun k hk => ?_, h.inodes, h.inodeCount, h.tick⟩
    · rw [same hi, hwrite'] at hwrite
      exact (congrArg WriteResult.volume hwrite).symm
    · have hkept := allocated_write_beyond m.disk buf n hk
      rw [hwrite'] at hkept
      exact hkept.trans (h.beyond k hk)

theorem command_follows (E : Env) (m : Machine Volume) (a : Machine Store) (c : Cmd)
    (h : Follows intact m a) (fits : Fits m c) :
    Matches (Follows intact) (machine volumeDisk E c m) (machine storeDisk E c a) := by
  obtain ⟨w, same, near, rep⟩ := h.near
  cases c with
  | startingNumber =>
    refine ⟨m, ?_, h⟩
    simp only [volumeDisk, storeDisk, machine, rep.base, near.starting,
      rep.consistent.starting]
  | next =>
    obtain ⟨k, hk, hfree⟩ := fits
    rw [allocated, near.bitmap] at hfree
    have hfull : ¬ a.disk.full := rep.not_full ⟨k, hk, hfree⟩
    obtain ⟨hnumber, rep'⟩ := represents_getNext rep
    obtain ⟨hnumber', near'⟩ := near.getNext
    simp only [machine, storeDisk, volumeDisk, if_neg hfull, Outcome.map]
    refine ⟨m.setDisk { m.disk with info := (hodoGetNextLogicalNumber m.disk.info).2 },
      by rw [hnumber', hnumber], ⟨_, fun hi => ?_, near', rep'⟩,
      fun k hk => (allocated_getNext_beyond hk).trans (h.beyond k hk), h.inodes,
        h.inodeCount, h.tick⟩
    rw [same hi]
    rfl
  | write buf n => exact follows_write E h buf n fits
  | read n buf =>
    simp only [machine, storeDisk, volumeDisk]
    cases hc : a.disk.content n with
    | none => trivial
    | some b =>
      simp only [near.read rep hc, Outcome.map]
      exact ⟨m, rfl, h⟩
  | erase n => trivial
  | gc temp => trivial
  | kmalloc =>
    exact ⟨{ m with tick := m.tick + 1 },
      by simp only [machine, h.tick], h.near, h.beyond, h.inodes,
      h.inodeCount, congrArg (· + 1) h.tick⟩
  | auto =>
    exact ⟨{ m with tick := m.tick + 1 },
      by simp only [machine, h.tick], h.near, h.beyond, h.inodes,
      h.inodeCount, congrArg (· + 1) h.tick⟩
  | now =>
    exact ⟨{ m with tick := m.tick + 1 },
      by simp only [machine, h.tick], h.near, h.beyond, h.inodes,
      h.inodeCount, congrArg (· + 1) h.tick⟩
  | newInode =>
    refine ⟨{ m with
        inodes := update m.inodes m.inodeCount newInode
        inodeCount := m.inodeCount + 1 },
          by simp only [machine, h.inodeCount], h.near, h.beyond, ?_,
      congrArg (· + 1) h.inodeCount, h.tick⟩
    simp only [h.inodes, h.inodeCount]
  | inode ref => exact ⟨m, by rw [machine, h.inodes], h⟩
  | setInode ref f =>
    refine ⟨_, rfl, h.near, h.beyond, ?_, h.inodeCount, h.tick⟩
    simp only [h.inodes]

theorem program_follows {α : Type} {E : Env} {p : Program α} {m : Machine Volume}
    {a : Machine Store} {Q : α → Machine Store → Prop} (h : Follows intact m a)
    (fits : Guarded (machine volumeDisk E) Fits p m) (safe : wp (machine storeDisk E) p Q a) :
    ∃ r m' a', exec (machine volumeDisk E) p m = .done (r, m') ∧ Follows intact m' a' ∧ Q r a' :=
  exec_simulates Fits (Follows intact) (fun m a c => command_follows E m a c) h fits safe

end

/-- The program ends over the log, in a state that follows one over the map. -/
def Safely {α : Type} (clock : Nat → Timespec) (intact intact' : Bool) (p : Program α)
    (Q : α → Machine Store → Prop) (m : Machine Volume) (a : Machine Store) : Prop :=
  Follows intact m a → Guarded (machine volumeDisk (zeroFilled clock)) Fits p m →
    ∃ r m' a', exec (machine volumeDisk (zeroFilled clock)) p m = .done (r, m') ∧
      Follows intact' m' a' ∧ Q r a'

section

variable {α β : Type} {clock : Nat → Timespec} {intact intact' intact'' : Bool}
  {m : Machine Volume} {a : Machine Store}

theorem safely_of_wp {p : Program α} {Q : α → Machine Store → Prop}
    (safe : wp (plain storeDisk clock) p Q a) : Safely clock intact intact p Q m a :=
  fun h fits => program_follows h fits safe

theorem safely_bind {p : Program α} {f : α → Program β} {Q : α → Machine Store → Prop}
    {Q' : β → Machine Store → Prop} (hp : Safely clock intact intact' p Q m a)
    (hf : ∀ r m' a', exec (machine volumeDisk (zeroFilled clock)) p m = .done (r, m') → Q r a' →
      Safely clock intact' intact'' (f r) Q' m' a') :
    Safely clock intact intact'' (p >>= f) Q' m a := by
  intro h fits
  obtain ⟨fits₁, fits₂⟩ := guarded_bind.mp fits
  obtain ⟨r, m₁, a₁, hexec, h₁, hQ⟩ := hp h fits₁
  obtain ⟨r', m', a', hexec', h', hQ'⟩ := hf r m₁ a₁ hexec hQ h₁ (fits₂ r m₁ hexec)
  exact ⟨r', m', a', by rw [exec_bind, hexec]; exact hexec', h', hQ'⟩

theorem safely_mono {p : Program α} {Q Q' : α → Machine Store → Prop}
    (hp : Safely clock intact intact' p Q m a) (hQ : ∀ r a', Q r a' → Q' r a') :
    Safely clock intact intact' p Q' m a := by
  intro h fits
  obtain ⟨r, m', a', hexec, h', hq⟩ := hp h fits
  exact ⟨r, m', a', hexec, h', hQ r a' hq⟩

end

/-- The volume in which a number was never written. -/
def forget (w : Volume) (n : Nat) : Volume :=
  { w with info := setTableEntry (hodoUnsetGCBitmap w.info (tableEntry w.info n)) n ⟨0, 0⟩ }

def Store.without (s : Store) (n : Nat) : Store := { s with content := update s.content n none }

section

variable {v w : Volume} {s : Store} {n : Nat}

theorem mapped_forget (hn : InTable w.info n) {n' : Nat} {p : BlockPos} :
    Mapped (forget w n).info n' p ↔ n' ≠ n ∧ Mapped w.info n' p := by
  have hin : InTable (forget w n).info n' ↔ InTable w.info n' := Iff.rfl
  have hentry : tableEntry (forget w n).info n' =
      if tableIndex w.info n' = tableIndex w.info n then ⟨0, 0⟩ else tableEntry w.info n' := rfl
  simp only [Mapped, hin, hentry]
  constructor
  · rintro ⟨hn', he, hz⟩
    split at he
    case isTrue => exact absurd (he ▸ rfl) hz
    case isFalse hne => exact ⟨fun heq => hne (heq ▸ rfl), hn', he, hz⟩
  · rintro ⟨hne, hn', he, hz⟩
    rw [if_neg fun hidx => hne (tableIndex_inj hn'.1 hn.1 hidx)]
    exact ⟨hn', he, hz⟩

theorem stored_forget (hn : InTable w.info n) {n' : Nat} (hn' : InTable w.info n') :
    stored (forget w n) n' = if n' = n then none else stored w n' := by
  have hentry : tableEntry (forget w n).info n' =
      if tableIndex w.info n' = tableIndex w.info n then ⟨0, 0⟩ else tableEntry w.info n' := rfl
  simp only [stored, hentry]
  by_cases he : n' = n
  · rw [he, if_pos rfl, if_pos rfl, if_pos rfl]
  · rw [if_neg he, if_neg fun hidx => he (tableIndex_inj hn'.1 hn.1 hidx)]
    rfl

theorem forget_strayStores (hn : InTable w.info n)
    (hentry : (tableEntry w.info n).zoneId < numberZones) :
    (forget w n).info.strayStores = w.info.strayStores := by
  have hunset := unsetGCBitmap_strayStores (m := w.info) hentry
  refine Eq.trans (setTableEntry_strayStores ⟨0, 0⟩ ?_) hunset
  exact hn.2

theorem represents_forget (rep : Represents w s) (used : s.used n) :
    Represents (forget w n) (Store.without s n) := by
  have hn := rep.inTable_of_used used
  have mapped : ∀ {n' p}, Mapped (forget w n).info n' p ↔ n' ≠ n ∧ Mapped w.info n' p :=
    mapped_forget hn
  refine ⟨aligned_of_info rep.aligned rfl, ⟨rep.consistent.starting, fun hm => ?_, ?_, ?_, ?_⟩,
    rep.base, rep.count_le, rep.allocated_iff, fun n' hn' => ?_, fun n' b hb => ?_,
    (forget_strayStores hn (rep.consistent.entry_zone_lt hn)).trans rep.inside⟩
  · exact rep.consistent.inZones (mapped.mp hm).2
  · intro p hp hle hlt
    have hlive : live (forget w n).info p.zoneId p.blockIndex =
        live (hodoUnsetGCBitmap w.info (tableEntry w.info n)) p.zoneId p.blockIndex := rfl
    rw [hlive, live_unsetGCBitmap, Bool.and_eq_true, Bool.not_eq_true', decide_eq_false_iff_not,
      rep.consistent.live_iff hp hle hlt]
    constructor
    · rintro ⟨hne, n', hm⟩
      exact ⟨n', mapped.mpr ⟨fun he => hne (he ▸ hm.2.1.symm), hm⟩⟩
    · rintro ⟨n', hm⟩
      obtain ⟨hne, hm⟩ := mapped.mp hm
      exact ⟨fun he => hne (rep.consistent.inj hm ⟨hn, he.symm, hp⟩), n', hm⟩
  · exact fun hm hm' => rep.consistent.inj (mapped.mp hm).2 (mapped.mp hm').2
  · exact fun hm => rep.consistent.content (mapped.mp hm).2
  · rw [stored_forget hn hn']
    simp only [Store.without, update]
    split
    · rfl
    · exact rep.content n' hn'
  · simp only [Store.without, update] at hb
    split at hb
    · cases hb
    · exact rep.used n' b hb

theorem erase_strayStores {m : MappingInfo} {n : Nat}
    (hn : tableIndex m n < numberMappingTableEntry) :
    (hodoEraseTableEntry m n).strayStores = m.strayStores := by
  rw [← setTableEntry_strayStores { tableEntry m n with zoneId := 0 } hn]
  simp only [hodoEraseTableEntry, hodoUnsetLogicalBitmap]
  split <;> rfl

theorem erase_tableEntry (m : MappingInfo) (n n' : Nat) :
    tableEntry (hodoEraseTableEntry m n) n' =
      if tableIndex m n' = tableIndex m n then { tableEntry m n with zoneId := 0 }
      else tableEntry m n' := by
  rw [tableEntry, tableIndex, erase_starting, ← tableIndex]
  simp only [hodoEraseTableEntry, hodoUnsetLogicalBitmap]
  split <;> rfl

/-- The bit that is cleared was clear, so no number is freed. -/
theorem near_erase (near : Near v w) (hn : InTable w.info n)
    (starting : w.info.startingLogicalNumber = 16)
    (hentry : (tableEntry w.info n).zoneId < numberZones) (clear : allocated v.info n = false) :
    Near { v with info := hodoEraseTableEntry v.info n } (forget w n) := by
  have hlt : n < 2 ^ 31 := by
    obtain ⟨hlt, hidx⟩ := hn
    simp only [tableIndex, starting, numberMappingTableEntry_eq] at hidx
    omega
  have hmod : n % 2 ^ 32 = n := Nat.mod_eq_of_lt (by omega)
  have hint : toInt32 n = (n : Int) := by
    rw [toInt32, hmod, if_pos hlt]
    exact_mod_cast hmod
  have hbitmap : (hodoEraseTableEntry v.info n).logicalEntryBitmap = v.info.logicalEntryBitmap := by
    have hdiv : ((n : Int).tdiv 32) = ((n / 32 : Nat) : Int) := rfl
    have hrem : ((n : Int).tmod 32) = ((n % 32 : Nat) : Int) := rfl
    simp only [hodoEraseTableEntry, hodoUnsetLogicalBitmap, hint, hdiv, hrem, Int.toNat_natCast]
    rw [if_pos ⟨Int.natCast_nonneg _, Int.natCast_nonneg _⟩]
    exact modifyWord_clearBit clear
  refine ⟨?_, hbitmap.trans near.bitmap, ?_, near.dev, ?_, fun i hi => ?_, fun n' hn' => ?_⟩
  · simp only [erase_starting]
    exact near.starting
  · simp only [erase_wp]
    exact near.wp
  · calc (hodoEraseTableEntry v.info n).strayStores
        = v.info.strayStores := erase_strayStores (near.inTable.mpr hn).2
      _ = w.info.strayStores := near.strayed
      _ = (forget w n).info.strayStores := (forget_strayStores hn hentry).symm
  · have hforget : (forget w n).info.mappingTable i =
        if i = tableIndex w.info n then ⟨0, 0⟩ else w.info.mappingTable i := rfl
    have herase : (hodoEraseTableEntry v.info n).mappingTable i =
        if i = tableIndex v.info n then { tableEntry v.info n with zoneId := 0 }
        else v.info.mappingTable i := by
      simp only [hodoEraseTableEntry, hodoUnsetLogicalBitmap]
      split <;> rfl
    rw [hforget] at hi ⊢
    rw [herase, near.index_eq]
    split at hi
    case isTrue => exact absurd rfl hi
    case isFalse hne =>
      rw [if_neg hne, if_neg hne]
      exact near.entry i hi
  · have hin : InTable v.info n' := by
      rwa [InTable, tableIndex, erase_starting, ← tableIndex] at hn'
    rw [erase_tableEntry]
    split
    · exact Nat.succ_pos 15
    · exact near.zones n' hin

/-- A block that is written under a number without one, and does not matter. -/
theorem represents_dead (rep : Represents w s) (data : WpInData w) (b : Block) (n : Nat) :
    Represents { (hodoWriteStruct standardGeometry ioOk w (some b) hodoDatablockSize n).volume with
      info := { w.info with wp := nextWp standardGeometry w.info.wp hodoDatablockSize } } s := by
  have aligned := aligned_write rep.aligned data.2 b n
  have hwrite := hodoWriteStruct_ok b n (by have := data.2; omega) rep.aligned.at_wp
    rep.aligned.index_lt
  rw [hwrite] at aligned ⊢
  have hkept : ∀ {n' p}, Mapped w.info n' p →
      blockAt (update w.dev w.info.wp.zoneId
        (w.dev w.info.wp.zoneId ++ [stamp b (recordWrite w.info n).1])) p = blockAt w.dev p :=
    fun hm => blockAt_append (rep.consistent.index_lt_length hm)
  refine ⟨aligned_of_info aligned rfl, ⟨rep.consistent.starting, fun hm => ?_, fun hp hle hlt => ?_,
    fun hm hm' => ?_, fun hm => ?_⟩, rep.base, rep.count_le, rep.allocated_iff, fun n' hn' => ?_,
    rep.used, rep.inside⟩
  · exact rep.consistent.inZones hm
  · exact rep.consistent.live_iff hp hle hlt
  · exact rep.consistent.inj hm hm'
  · obtain ⟨b', hb', hown⟩ := rep.consistent.content hm
    exact ⟨b', (hkept hm).trans hb', hown⟩
  · rw [← rep.content n' hn']
    simp only [stored]
    by_cases hz : (tableEntry w.info n').zoneId = 0
    · exact (if_pos hz).trans (if_pos hz).symm
    · exact (if_neg hz).trans ((hkept (mapped_entry hn' hz)).trans (if_neg hz).symm)

theorem entry_of_none (rep : Represents w s) (hn : InTable w.info n) (hc : s.content n = none) :
    (tableEntry w.info n).zoneId = 0 := by
  by_contra hz
  obtain ⟨b, hb, _⟩ := rep.consistent.stored_eq_some (mapped_entry hn hz)
  rw [rep.content n hn, hc] at hb
  cases hb

theorem near_dead (near : Near v w) (rep : Represents w s) (data : WpInData v)
    (hn : InTable w.info n) (hc : s.content n = none) (b : Block) :
    ∃ v' w', hodoWriteStruct standardGeometry ioOk v (some b) hodoDatablockSize n =
      ⟨4096, n, some (stamp b n), v'⟩ ∧ Near v' w' ∧ Represents w' s := by
  have data' : WpInData w := by
    rw [WpInData, ← near.wp]
    exact data
  have hle : w.info.wp.zoneId ≤ 14 := by
    have := data'.2
    omega
  have hne : n ≠ 0 := rep.consistent.ne_zero hn
  have hin : InTable v.info n := near.inTable.mpr hn
  have hwp' : v.info.wp.zoneId < numberZones := by
    rw [near.wp, numberZones_eq]
    omega
  have hunset : (tableEntry w.info n).zoneId = 0 := entry_of_none rep hn hc
  have hend : (v.dev v.info.wp.zoneId).length = v.info.wp.blockIndex := by
    rw [near.wp, near.dev]
    exact rep.aligned.at_wp
  have hwrite := hodoWriteStruct_ok b n hle rep.aligned.at_wp rep.aligned.index_lt
  have hwrite' := hodoWriteStruct_ok b n (by rw [near.wp]; exact hle) hend
    (by rw [near.wp]; exact rep.aligned.index_lt)
  have hnumber : ∀ m, (recordWrite m n).1 = n := fun m => recordWrite_number m hne
  refine ⟨setWp (appended v (recordWrite v.info n).2 v.info.wp.zoneId n (stamp b n))
    (nextWp standardGeometry v.info.wp hodoDatablockSize), _, ?_, ?_,
    represents_dead rep data' b n⟩
  · rw [hwrite']
    simp only [hnumber]
  · rw [hwrite]
    refine ⟨?_, ?_, ?_, ?_, ?_, fun i hi => ?_, fun n' hn' => ?_⟩
    · exact (recordWrite_starting v.info n).trans near.starting
    · exact (recordWrite_bitmap v.info hne).trans near.bitmap
    · simp only [setWp, near.wp]
    · simp only [setWp, appended, near.wp, near.dev, hnumber]
    · exact (recordWrite_strayStores hwp' (fun _ => near.zones n hin)
        (by rw [hnumber]; exact hin.2)).trans
        near.strayed
    · refine (congrFun (recordWrite_table v.info hne) i).trans ?_
      rw [near.index_eq, update_other]
      · exact near.entry i hi
      · rintro rfl
        exact hi hunset
    · have hidx : tableIndex (recordWrite v.info n).2 n' = tableIndex v.info n' := by
        simp only [tableIndex, recordWrite_starting]
      have hin' : InTable v.info n' := by
        refine ⟨hn'.1, ?_⟩
        rw [← hidx]
        exact hn'.2
      have hentry : (recordWrite v.info n).2.mappingTable (tableIndex v.info n') =
          if tableIndex v.info n' = tableIndex v.info n then v.info.wp else tableEntry v.info n' :=
        congrFun (recordWrite_table v.info hne) (tableIndex v.info n')
      change ((recordWrite v.info n).2.mappingTable
        (tableIndex (recordWrite v.info n).2 n')).zoneId < numberZones
      rw [hidx, hentry]
      split
      · exact hwp'
      · exact near.zones n' hin'

end

/-- The part of `hodo_unlink` that deals with the target's inode. -/
def unlinkInode (n : Nat) : Program Unit := do
  eraseTableEntry n
  let stack ← auto
  let inode ← hodoRead n stack
  let _ ← hodoWrite (putNlink inode 0) n
  pure ()

theorem exec_eraseTableEntry {E : Env} {m : Machine Volume} {n : Nat}
    (inside : (hodoEraseTableEntry m.disk.info n).strayStores = 0) :
    exec (machine volumeDisk E) (eraseTableEntry n) m =
      .done ((), m.setDisk { m.disk with info := hodoEraseTableEntry m.disk.info n }) := by
  simp only [eraseTableEntry, Cmd.give, exec_cmd, machine, volumeDisk, unlessStrayed,
    if_pos inside, Outcome.map]

/-- What is read of a number of the table is not always its block. -/
theorem exec_hodoRead_any {E : Env} {m : Machine Volume} {n : Nat} (hin : InTable m.disk.info n)
    (buf : Block) : ∃ c, exec (machine volumeDisk E) (hodoRead n buf) m = .done (c, m) := by
  simp only [hodoRead, Cmd.give, exec_bind, exec_cmd, machine, volumeDisk, hodoReadStruct_eq,
    if_pos hin, Outcome.map, exec_pure]
  exact ⟨_, rfl⟩

/-- The number is no longer there, and no other one is touched. What is written back
under it does not matter. -/
theorem unlinkInode_runs {clock : Nat → Timespec} {intact : Bool} {m : Machine Volume}
    {a : Machine Store} {n : Nat} (used : a.disk.used n) (spare : a.disk.count ≤ n) :
    Safely clock intact false (unlinkInode n)
      (fun _ a' => a' = Machine.later (a.setDisk (Store.without a.disk n))) m a := by
  intro h fits
  obtain ⟨w, _, near, rep⟩ := h.near
  have hn := rep.inTable_of_used used
  have clear : allocated m.disk.info n = false := by
    by_cases hlt : n < numberMappingTableEntry
    · rw [Bool.eq_false_iff, allocated, near.bitmap]
      exact fun hset => Nat.not_lt.mpr spare ((rep.allocated_iff n hlt).mp hset)
    · exact h.beyond n (Nat.not_lt.mp hlt)
  have near₁ := near_erase near hn rep.consistent.starting (rep.consistent.entry_zone_lt hn) clear
  have rep₁ := represents_forget rep used
  have hin : InTable (forget w n).info n := hn
  have hnone : (Store.without a.disk n).content n = none := by
    simp only [Store.without, update_same]
  let m₁ := m.setDisk { m.disk with info := hodoEraseTableEntry m.disk.info n }
  have inside₁ : (hodoEraseTableEntry m.disk.info n).strayStores = 0 :=
    near₁.strayed.trans rep₁.inside
  have herase : exec (machine volumeDisk (zeroFilled clock)) (eraseTableEntry n) m =
      .done ((), m₁) := exec_eraseTableEntry inside₁
  have hauto : exec (machine volumeDisk (zeroFilled clock)) auto m₁ =
      .done (zeros, { m₁ with tick := m.tick + 1 }) := rfl
  obtain ⟨b, hinode⟩ := exec_hodoRead_any (E := zeroFilled clock)
    (m := { m₁ with tick := m.tick + 1 }) (near₁.inTable.mpr hin) zeros
  have data : WpInData m₁.disk := by
    have fits₁ := (guarded_bind.mp fits).2 _ _ herase
    have fits₂ := (guarded_bind.mp fits₁).2 _ _ hauto
    exact ((guarded_bind.mp fits₂).2 _ _ hinode).1.1
  obtain ⟨v', w', hput, near', rep'⟩ := near_dead near₁ rep₁ data hin hnone (putNlink b 0)
  have hput : hodoWriteStruct standardGeometry ioOk m₁.disk (some (putNlink b 0))
      hodoDatablockSize n = ⟨4096, n, some (stamp (putNlink b 0) n), v'⟩ := hput
  have hwrite : exec (machine volumeDisk (zeroFilled clock)) (hodoWrite (putNlink b 0) n)
      { m₁ with tick := m.tick + 1 } =
      .done ((4096, n), { m₁ with disk := v', tick := m.tick + 1 }) := by
    have inside : v'.info.strayStores = 0 := near'.strayed.trans rep'.inside
    simp only [hodoWrite, Cmd.give, exec_bind, exec_cmd, machine, volumeDisk, hput, unlessStrayed,
      if_pos inside, Outcome.map, exec_pure]
    rfl
  refine ⟨(), { m₁ with disk := v', tick := m.tick + 1 },
    Machine.later (a.setDisk (Store.without a.disk n)), ?_,
    ⟨⟨w', fun h => absurd h Bool.false_ne_true, near', rep'⟩, fun k hk => ?_, h.inodes,
      h.inodeCount,
      congrArg (· + 1) h.tick⟩, rfl⟩
  case refine_1 => simp only [unlinkInode, exec_bind, herase, hauto, hinode, hwrite, exec_pure]
  case refine_2 =>
    have hkept := allocated_write_beyond m₁.disk (putNlink b 0) n hk
    rw [hput] at hkept
    have herased : allocated m₁.disk.info k = allocated m.disk.info k :=
      congrArg (fun bm => bit bm k) (near₁.bitmap.trans near.bitmap.symm)
    exact hkept.trans (herased.trans (h.beyond k hk))

/-- As long as nothing was erased the collector finds a consistent log. -/
theorem collect_runs {clock : Nat → Timespec} {m : Machine Volume} {a : Machine Store}
    (data : WpInData m.disk) (sparse : Sparse m.disk.info) (temp : Block) :
    Safely clock true true (collect temp) (fun _ a' => a' = a) m a := by
  intro h _
  obtain ⟨v', hgc, rep, hbitmap⟩ := represents_gc h.represents data sparse temp
  refine ⟨(), m.setDisk v', a, ?_, ⟨⟨v', fun _ => rfl, Represents.near rep, rep⟩, fun k hk => ?_,
    h.inodes, h.inodeCount, h.tick⟩, rfl⟩
  · simp only [Kernel.collect, Cmd.give, exec_cmd, machine, volumeDisk, hgc, unlessStrayed,
      if_pos rep.inside, Outcome.map]
  · rw [allocated, Machine.setDisk, hbitmap]
    exact h.beyond k hk

end Erasures
