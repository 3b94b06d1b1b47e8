import Mathlib.Data.List.Find
import HodoZns.Emptiness
import HodoZns.IndexWalks

/-!
# What the directory walkers cover

An entry that hangs below the last pointer of an index block is stored but not
seen: the lookup, the listing, the removal and the test for emptiness pass it by.
-/

namespace WalkCoverage

open ByteBlock Layout BlockLog ZoneLog LogCalls CallRuns LogStore Programs Kernel StoreMachine
  FileBlocks BlockForest
open BlockFields TreeWrites FileWrites Directories Operations DirectoryWrites VolumeMachine FsRuns
  Soundness
open Ownership FileReads Emptiness DirectoryBlocks DirectoryMaps DirectoryRuns Trees IndexWalks

def direntsUnder (c : Nat → Option Block) (slots : Nat) (b : Block) : List Dirent :=
  (dirBlocks c slots b).flatMap validDirents

def nameField (d : Dirent) : Name := ofBytes (byteAt d)

/-- The name is padded with zeros. -/
structure Padded (d : Dirent) : Prop where
  len : d.nameLen ≤ 16
  zero : ∀ i, d.nameLen ≤ i → i < 16 → byteAt d i = 0

/-- A block of entries: what is not one of them starts with a zero. -/
def DirentBlock (t : Block) : Prop :=
  ∀ j ∈ direntOffsets, byteAt (direntAt t j) 0 = 0 ∨
    isDirentValid (direntAt t j) = true ∧ Padded (direntAt t j)

instance (d : Dirent) : Decidable (Padded d) :=
  decidable_of_iff (d.nameLen ≤ 16 ∧ ∀ i, i < 16 → d.nameLen ≤ i → byteAt d i = 0)
    ⟨fun ⟨h, h'⟩ => ⟨h, fun i hle hi => h' i hi hle⟩,
      fun h => ⟨h.len, fun i hi hle => h.zero i hle hi⟩⟩

instance (t : Block) : Decidable (DirentBlock t) :=
  inferInstanceAs (Decidable (∀ j ∈ direntOffsets, byteAt (direntAt t j) 0 = 0 ∨
    isDirentValid (direntAt t j) = true ∧ Padded (direntAt t j)))

/-- The number of the first of the entries with the name, or `NOTHING_FOUND`. -/
def firstNumber (ds : List Dirent) (name : Name) : Nat :=
  ((ds.find? fun d => d.hasName name).map Dirent.iIno).getD nothingFound

theorem hasName_nameField {d d' : Dirent} :
    d'.hasName (nameField d) = true ↔ ∀ i, i < 16 → byteAt d' i = byteAt d i := by
  rw [hasName_iff]
  refine forall_congr' fun i => imp_congr_right fun hi => ?_
  rw [nameField, byteAt_ofBytes, if_pos hi]

theorem valid_of_mem {t : Block} {d : Dirent} (h : d ∈ validDirents t) : isDirentValid d = true :=
  (List.mem_filter.mp h).2

theorem first_ne_zero {d : Dirent} (h : isDirentValid d = true) : byteAt d 0 ≠ 0 := by
  simp only [isDirentValid, Bool.and_eq_true, bne_iff_ne] at h
  exact h.1.1.1

theorem iIno_ne_zero {d : Dirent} (h : isDirentValid d = true) : d.iIno ≠ nothingFound := by
  simp only [isDirentValid, Bool.and_eq_true, bne_iff_ne] at h
  exact h.1.2

section Blocks

variable {t : Block} {name : Name}

theorem DirentBlock.padded (h : DirentBlock t) {d : Dirent} (hd : d ∈ validDirents t) :
    Padded d := by
  obtain ⟨hmem, hvalid⟩ := List.mem_filter.mp hd
  obtain ⟨j, hj, rfl⟩ := List.mem_map.mp hmem
  exact ((h j hj).resolve_left (first_ne_zero hvalid)).2

/-- The slot that is found is that of the first valid entry with the name. -/
theorem DirentBlock.find (h : DirentBlock t) (hname : byteAt name 0 ≠ 0) :
    (validDirents t).find? (fun d => d.hasName name) = (findName t name).map (direntAt t) := by
  have hvalid : ∀ j ∈ direntOffsets, (direntAt t j).hasName name = true →
      isDirentValid (direntAt t j) = true := by
    intro j hj hhas
    have hfirst := (hasName_iff _ _).mp hhas 0 (by omega)
    exact ((h j hj).resolve_left (by rwa [hfirst])).1
  rw [validDirents, List.find?_filter, List.find?_map, findName]
  congr 1
  apply List.find?_congr
  intro j hj
  rw [Function.comp, Bool.eq_iff_iff, decide_eq_true_iff]
  exact ⟨And.right, fun hhas => ⟨hvalid j hj hhas, hhas⟩⟩

theorem DirentBlock.number (h : DirentBlock t) (hname : byteAt name 0 ≠ 0) :
    findInodeNumberFromDirectBlock t name = firstNumber (validDirents t) name := by
  rw [findInodeNumberFromDirectBlock, firstNumber, h.find hname]
  cases findName t name with
  | none => rfl
  | some j => rfl

theorem DirentBlock.has (h : DirentBlock t) (hname : byteAt name 0 ≠ 0) :
    findName t name ≠ none ↔ ∃ d ∈ validDirents t, d.hasName name = true := by
  rw [← List.find?_isSome, h.find hname, Option.isSome_map, Option.isSome_iff_ne_none]

theorem readAll_valid (t : Block) (s : DirContext × Nat) :
    readAllDirentsFromDirectBlock t s = (validDirents t).foldl (fun s d => readDirent d s) s := by
  rw [validDirents, List.foldl_filter, List.foldl_map, readAllDirentsFromDirectBlock]
  congr 1
  funext s j
  rw [readDirent]
  split
  · rfl
  · rfl

theorem checkEmpty_valid {d : Dirent} (hd : d ∈ validDirents t) :
    checkDirectoryEmptyFromDirectBlock t = false := by
  obtain ⟨hmem, hvalid⟩ := List.mem_filter.mp hd
  obtain ⟨j, hj, rfl⟩ := List.mem_map.mp hmem
  have hfirst := first_ne_zero hvalid
  rw [byteAt_direntAt _ _ (by omega)] at hfirst
  rw [Bool.eq_false_iff]
  intro hall
  rw [direntOffsets_eq, List.mem_map] at hj
  obtain ⟨k, hk, rfl⟩ := hj
  have hk := List.mem_range.mp hk
  have hzero := List.all_eq_true.mp hall (40 * k) (by
    rw [List.mem_range, hodoDataSize_eq]
    omega)
  exact hfirst (by simpa using hzero)

end Blocks

theorem firstNumber_append {ds ds' : List Dirent} (hvalid : ∀ d ∈ ds, isDirentValid d = true)
    (name : Name) : firstNumber (ds ++ ds') name =
      if firstNumber ds name ≠ nothingFound then firstNumber ds name else firstNumber ds' name := by
  cases hfind : ds.find? fun d => d.hasName name with
  | none =>
    have hnumber : firstNumber ds name = nothingFound := by
      rw [firstNumber, hfind]
      rfl
    rw [hnumber, if_neg (not_not.mpr rfl), firstNumber, List.find?_append, hfind, Option.none_or,
      firstNumber]
  | some d =>
    have hnumber : firstNumber ds name = d.iIno := by
      rw [firstNumber, hfind]
      rfl
    rw [hnumber, if_pos (iIno_ne_zero (hvalid d (List.mem_of_find?_eq_some hfind))), firstNumber,
      List.find?_append, hfind]
    rfl

theorem visitEach_number {ts : List Block} (h : ∀ t ∈ ts, DirentBlock t) {name : Name}
    (hname : byteAt name 0 ≠ 0) :
    visitEach (fun t (_ : Unit) =>
        if findInodeNumberFromDirectBlock t name ≠ nothingFound
        then .inr (findInodeNumberFromDirectBlock t name) else .inl ()) ts () =
      if firstNumber (ts.flatMap validDirents) name ≠ nothingFound
      then .inr (firstNumber (ts.flatMap validDirents) name) else .inl () := by
  induction ts with
  | nil => rfl
  | cons t ts ih =>
    rw [visitEach, List.flatMap_cons, firstNumber_append fun d hd => valid_of_mem hd,
      (h t List.mem_cons_self).number hname]
    by_cases hfound : firstNumber (validDirents t) name ≠ nothingFound
    · simp only [if_pos hfound]
    · simp only [if_neg hfound]
      exact ih fun t ht => h t (List.mem_cons_of_mem _ ht)

theorem visitEach_list (ts : List Block) (s : DirContext × Nat) :
    visitEach (β := DirContext × Nat) (fun t s => .inl (readAllDirentsFromDirectBlock t s)) ts s =
      .inl ((ts.flatMap validDirents).foldl (fun s d => readDirent d s) s) := by
  induction ts generalizing s with
  | nil => rfl
  | cons t ts ih =>
    rw [visitEach, List.flatMap_cons, List.foldl_append, ← readAll_valid]
    exact ih _

/-- A buffer with enough room takes all entries. -/
theorem listed_all {ds : List Dirent} (hvalid : ∀ d ∈ ds, isDirentValid d = true) {pos room : Nat}
    (es : List Emitted) (hroom : ds.length ≤ room) :
    ((ds.foldl (fun s d => readDirent d s) (⟨pos, room, es⟩, pos)).1).emitted =
      es ++ ds.map Dirent.emitted := by
  induction ds generalizing pos room es with
  | nil => simp
  | cons d ds ih =>
    obtain ⟨room, rfl⟩ : ∃ r, room = r + 1 := ⟨room - 1, by simp at hroom; omega⟩
    have hstep : readDirent d (⟨pos, room + 1, es⟩, pos) =
        (⟨pos + 1, room, es ++ [d.emitted]⟩, pos + 1) := by
      rw [readDirent, if_pos (hvalid d List.mem_cons_self), if_pos rfl]
      rfl
    rw [List.foldl_cons, hstep, ih (fun d hd => hvalid d (List.mem_cons_of_mem _ hd)) _
      (by simpa using hroom), List.map_cons, List.append_assoc]
    rfl

theorem visitEach_empty {ts : List Block} {d : Dirent} (hd : d ∈ ts.flatMap validDirents) :
    visitEach (fun t (_ : Unit) =>
      if checkDirectoryEmptyFromDirectBlock t then .inl () else .inr ()) ts () = .inr () := by
  induction ts with
  | nil => cases hd
  | cons t ts ih =>
    rw [visitEach]
    by_cases ht : d ∈ validDirents t
    · rw [checkEmpty_valid ht]
      rfl
    · rw [List.flatMap_cons, List.mem_append] at hd
      have hrest := ih (hd.resolve_left ht)
      cases checkDirectoryEmptyFromDirectBlock t with
      | true => exact hrest
      | false => rfl

theorem leafBlocks_sublist (c : Nat → Option Block) (k p : Nat) :
    (leafBlocks c walkedSlots k p).Sublist (leafBlocks c allSlots k p) := by
  induction k generalizing p with
  | zero => exact List.Sublist.refl _
  | succ k ih =>
    have hrange : (List.range walkedSlots).Sublist (List.range allSlots) :=
      List.range_sublist.mpr (by decide)
    exact (List.Sublist.flatMap_right _ fun i _ => ih _).trans (hrange.flatMap _)

/-- What is walked over is part of what there is, in the same order. -/
theorem dirBlocks_sublist (c : Nat → Option Block) (b : Block) :
    (dirBlocks c walkedSlots b).Sublist (dirBlocks c allSlots b) :=
  List.Sublist.flatMap_right _ fun _ _ => leafBlocks_sublist c _ _

/-- What is emitted of a padded entry tells its name. -/
theorem hasName_of_emitted {d d' : Dirent} (h : Padded d) (h' : Padded d')
    (heq : d'.emitted = d.emitted) : d'.hasName (nameField d) = true := by
  have hbytes : (List.range d'.nameLen).map (byteAt d') = (List.range d.nameLen).map (byteAt d) :=
    congrArg Emitted.name heq
  have hlen : d'.nameLen = d.nameLen := by simpa using congrArg List.length hbytes
  rw [hasName_nameField]
  intro i hi
  by_cases hlt : i < d.nameLen
  · have hget : ((List.range d'.nameLen).map (byteAt d'))[i]? =
      ((List.range d.nameLen).map (byteAt d))[i]? := by
      rw [hbytes]
    simpa [hlen, hlt] using hget
  · rw [h.zero i (by omega) hi, h'.zero i (by omega) hi]

section Walked

variable {D : Disk Store} [LikeStore D] {clock : Nat → Timespec} {m : Machine Store} {n : Nat}
  {b : Block}

theorem wp_findWalked (valid : Valid m.disk) (forest : IsForest m.disk.content)
    (hn : m.disk.content n = some b) (hb : isDat b = false)
    (blocks : ∀ t ∈ dirBlocks m.disk.content walkedSlots b, DirentBlock t) {name : Name}
    (hname : byteAt name 0 ≠ 0) :
    wp (plain D clock) (findInodeNumber b name)
      (fun r _ => r = firstNumber (direntsUnder m.disk.content walkedSlots b) name) m := by
  simp only [findInodeNumber, wp_bind, wp_kmalloc]
  apply wp_mono _ (wp_walkAll (s := m.disk) (fun _ _ => rfl) valid forest hn hb zeros ()
    (Machine.later m) rfl)
  rintro r m' ⟨hr, -⟩
  rw [visitEach_number blocks hname] at hr
  rw [direntsUnder]
  cases r with
  | inl r =>
    rw [wp_pure]
    split at hr
    case isTrue => cases hr
    case isFalse hzero => exact (not_not.mp hzero).symm
  | inr r =>
    rw [wp_pure]
    split at hr
    case isTrue => exact Sum.inr.inj hr
    case isFalse => cases hr

theorem wp_listWalked (valid : Valid m.disk) (forest : IsForest m.disk.content)
    (hn : m.disk.content n = some b) (hb : isDat b = false) {room : Nat}
    (hroom : (direntsUnder m.disk.content walkedSlots b).length ≤ room) :
    wp (plain D clock) (readAllDirents b ⟨2, room, []⟩ 2)
      (fun r _ =>
        r.1.emitted = (direntsUnder m.disk.content walkedSlots b).map Dirent.emitted) m := by
  simp only [readAllDirents, wp_bind, wp_kmalloc]
  apply wp_mono _ (wp_walkAll (s := m.disk) (fun _ _ => rfl) valid forest hn hb zeros _
    (Machine.later m) rfl)
  rintro r m' ⟨hr, -⟩
  rw [visitEach_list] at hr
  have hvalid : ∀ d ∈ direntsUnder m.disk.content walkedSlots b, isDirentValid d = true := by
    intro d hd
    obtain ⟨t, _, hd⟩ := List.mem_flatMap.mp hd
    exact valid_of_mem hd
  cases r with
  | inl r =>
    rw [wp_pure]
    have hstate : r.2 = _ := Sum.inl.inj hr
    rw [hstate]
    exact listed_all hvalid [] hroom
  | inr r => cases hr

theorem wp_checkWalked (valid : Valid m.disk) (forest : IsForest m.disk.content)
    (hn : m.disk.content n = some b) (hb : isDat b = false) {d : Dirent}
    (hd : d ∈ direntsUnder m.disk.content walkedSlots b) :
    wp (plain D clock) (checkDirectoryEmpty b) (fun r _ => r = false) m := by
  simp only [checkDirectoryEmpty, wp_bind, wp_kmalloc]
  apply wp_mono _ (wp_walkAll (s := m.disk) (fun _ _ => rfl) valid forest hn hb zeros ()
    (Machine.later m) rfl)
  rintro r m' ⟨hr, -⟩
  rw [visitEach_empty hd] at hr
  cases r with
  | inl r => cases hr
  | inr r =>
    rw [wp_pure]

end Walked

/-- The tree of a directory on the volume. -/
structure DirectoryTree (m : Machine Volume) (n : Nat) (b : Block) : Prop where
  stored : ∃ a, Agrees m a ∧ Valid a.disk
  forest : IsForest (onDisk m.disk)
  inode : onDisk m.disk n = some b
  isInode : isDat b = false
  blocks : ∀ t ∈ dirBlocks (onDisk m.disk) allSlots b, DirentBlock t

/-- The walkers do with the entry what they should. -/
structure Covered (clock : Nat → Timespec) (m : Machine Volume) (n : Nat) (b : Block) (d : Dirent) :
    Prop where
  found : ∃ m', exec (machine volumeDisk (zeroFilled clock)) (findInodeNumber b (nameField d)) m =
    .done (firstNumber (direntsUnder (onDisk m.disk) allSlots b) (nameField d), m')
  listed : ∀ room, (direntsUnder (onDisk m.disk) allSlots b).length ≤ room →
    ∃ r m', exec (machine volumeDisk (zeroFilled clock)) (readAllDirents b ⟨2, room, []⟩ 2) m =
      .done (r, m') ∧ d.emitted ∈ r.1.emitted
  removed : Guarded (machine volumeDisk (zeroFilled clock)) Fits
    (removeDirent b (nameField d) n) m →
    ∃ r m', exec (machine volumeDisk (zeroFilled clock)) (removeDirent b (nameField d) n) m =
      .done (r, m') ∧ r.1 = 1
  notEmpty : ∃ m', exec (machine volumeDisk (zeroFilled clock)) (checkDirectoryEmpty b) m =
    .done (false, m')

section Tree

variable {clock : Nat → Timespec} {m : Machine Volume} {n : Nat} {b : Block} {d : Dirent}

/-- The entry is emitted from a pointer that is followed, and is not behind another of its name. -/
structure Followed (c : Nat → Option Block) (b : Block) (d : Dirent) : Prop where
  seen : ∃ d' ∈ direntsUnder c walkedSlots b, d'.emitted = d.emitted
  first : firstNumber (direntsUnder c walkedSlots b) (nameField d) =
    firstNumber (direntsUnder c allSlots b) (nameField d)

theorem first_name_ne_zero (h : isDirentValid d = true) : byteAt (nameField d) 0 ≠ 0 := by
  rw [nameField, byteAt_ofBytes, if_pos (by omega)]
  exact first_ne_zero h

theorem walked_length_le (c : Nat → Option Block) (b : Block) :
    (direntsUnder c walkedSlots b).length ≤ (direntsUnder c allSlots b).length :=
  ((dirBlocks_sublist c b).flatMap validDirents).length_le

theorem Covered.followed (covered : Covered clock m n b d) (tree : DirectoryTree m n b)
    (hvalid : isDirentValid d = true) : Followed (onDisk m.disk) b d := by
  obtain ⟨⟨a, agrees, valid⟩, forest, hn, hb, blocks⟩ := tree
  have hdisk := Represents.onDisk agrees.represents
  rw [hdisk] at forest hn blocks ⊢
  constructor
  · obtain ⟨r, m', hexec, hmem⟩ := covered.listed _ (by rw [hdisk])
    obtain ⟨r', m'', _, hexec', _, hr'⟩ := program_runs agrees
      (guarded_of_only fits_of_passive (passive_readAllDirents b _ 2) m)
      (wp_listWalked valid forest hn hb (walked_length_le _ b))
    obtain ⟨rfl, -⟩ := Prod.mk.inj (Outcome.done.inj (hexec.symm.trans hexec'))
    rw [hr'] at hmem
    exact List.mem_map.mp hmem
  · obtain ⟨m', hexec⟩ := covered.found
    obtain ⟨r', m'', _, hexec', _, hr'⟩ := program_runs agrees
      (guarded_of_only fits_of_passive (passive_findInodeNumber b _) m)
      (wp_findWalked valid forest hn hb
        (fun t ht => blocks t ((dirBlocks_sublist _ _).subset ht)) (first_name_ne_zero hvalid))
    obtain ⟨rfl, -⟩ := Prod.mk.inj (Outcome.done.inj (hexec.symm.trans hexec'))
    rw [← hr', hdisk]

theorem Followed.covered (h : Followed (onDisk m.disk) b d) (tree : DirectoryTree m n b)
    (hvalid : isDirentValid d = true) (padded : Padded d) : Covered clock m n b d := by
  obtain ⟨⟨a, agrees, valid⟩, forest, hn, hb, blocks⟩ := tree
  obtain ⟨⟨d', hd', hemitted⟩, hfirst⟩ := h
  have hdisk := Represents.onDisk agrees.represents
  rw [hdisk] at forest hn blocks hd' hfirst
  have hname := first_name_ne_zero hvalid
  have walked := fun t (ht : t ∈ dirBlocks a.disk.content walkedSlots b) =>
    blocks t ((dirBlocks_sublist _ _).subset ht)
  obtain ⟨t', ht', hdt'⟩ := List.mem_flatMap.mp hd'
  have hhas := hasName_of_emitted padded ((walked t' ht').padded hdt') hemitted
  refine ⟨?_, fun room hroom => ?_, fun fits => ?_, ?_⟩
  · obtain ⟨r, m', _, hexec, _, rfl⟩ := program_runs agrees
      (guarded_of_only fits_of_passive (passive_findInodeNumber b _) m)
      (wp_findWalked valid forest hn hb walked hname)
    exact ⟨m', by rw [hexec, hfirst, hdisk]⟩
  · rw [hdisk] at hroom
    obtain ⟨r, m', _, hexec, _, hr⟩ := program_runs agrees
      (guarded_of_only fits_of_passive (passive_readAllDirents b _ 2) m)
      (wp_listWalked valid forest hn hb (Nat.le_trans (walked_length_le _ b) hroom))
    refine ⟨r, m', hexec, ?_⟩
    rw [hr, ← hemitted]
    exact List.mem_map_of_mem hd'
  · obtain ⟨r, m', _, hexec, _, hr⟩ := program_runs agrees fits
      (wp_removeWhole valid forest hn hb _ a rfl)
    exact ⟨r, m', hexec, hr.mpr ⟨t', ht', ((walked t' ht').has hname).mpr ⟨d', hdt', hhas⟩⟩⟩
  · obtain ⟨r, m', _, hexec, _, rfl⟩ := program_runs agrees
      (guarded_of_only fits_of_passive (passive_checkDirectoryEmpty b) m)
      (wp_checkWalked valid forest hn hb hd')
    exact ⟨m', hexec⟩

/-- The walkers serve an entry exactly when one that looks the same, and the first of its name,
hangs below pointers that they follow. -/
theorem walkers_cover_iff (tree : DirectoryTree m n b)
    (hd : d ∈ direntsUnder (onDisk m.disk) allSlots b) :
    Covered clock m n b d ↔ Followed (onDisk m.disk) b d := by
  obtain ⟨t, ht, hdt⟩ := List.mem_flatMap.mp hd
  have hvalid := valid_of_mem hdt
  exact ⟨fun covered => covered.followed tree hvalid,
    fun h => h.covered tree hvalid ((tree.blocks t ht).padded hdt)⟩

end Tree

/-- One entry, written where pointer `i` of the single index block leads to. -/
def slotCalls (i : Nat) : List FsCall :=
  [.create ⟨0, 0⟩ rootRef [120] 0o644,
    .write ⟨1, false, ((10 + i) * 4088 : Nat)⟩ ⟨(List.range 40).map (byteAt entryA.record), 40⟩]

theorem dirBlocks_single {c : Nat → Option Block} (h0 : c 0 = none) {b : Block} {p : Nat}
    (h : ∀ i, i < 13 → inodePtr b i = if i = 10 then p else 0) (slots : Nat) :
    dirBlocks c slots b = leafBlocks c slots 1 p := by
  rw [dirBlocks, show List.range 13 = List.range 10 ++ [10, 11, 12] from rfl, List.flatMap_append,
    List.flatMap_eq_nil_iff.mpr, List.nil_append]
  · simp only [List.flatMap_cons, List.flatMap_nil, h 10 (by omega), h 11 (by omega),
      h 12 (by omega), leafBlocks_zero h0, reduceIte, Nat.reduceEqDiff, List.append_nil]
  · intro i hi
    have hi := List.mem_range.mp hi
    rw [h i (by omega), if_neg (by omega), leafBlocks_zero h0]

theorem leafBlocks_single {c : Nat → Option Block} (h0 : c 0 = none) {t : Block} {p q i slots : Nat}
    (hp : c p = some t) (h : ∀ j, j < slots → blockPtr t j = if j = i then q else 0) :
    leafBlocks c slots 1 p = if i < slots then (c q).toList else [] := by
  induction slots with
  | zero => rfl
  | succ slots ih =>
    have hlast : (c (child c p slots)).toList = if slots = i then (c q).toList else [] := by
      rw [child, hp]
      simp only [h slots (Nat.lt_succ_self slots)]
      split
      · rfl
      · rw [h0, Option.toList_none]
    have hstep : leafBlocks c (slots + 1) 1 p =
        leafBlocks c slots 1 p ++ (c (child c p slots)).toList := by
      simp only [leafBlocks, List.range_succ, List.flatMap_append, List.flatMap_singleton]
    rw [hstep, hlast, ih fun j hj => h j (by omega)]
    by_cases hlt : i < slots
    · rw [if_pos hlt, if_neg (by omega), if_pos (by omega), List.append_nil]
    · rw [if_neg hlt, List.nil_append]
      by_cases heq : slots = i
      · rw [if_pos heq, if_pos (by omega)]
      · rw [if_neg heq, if_neg (by omega)]

/-- What there is on the disk after the calls. -/
structure OneEntry (v : Volume) (i : Nat) (b : Block) : Prop where
  isInode : isDat b = false
  ptrs : ∀ j, j < 13 → inodePtr b j = if j = 10 then 20 else 0
  index : ∃ t, onDisk v 20 = some t ∧ ∀ j, j < 1022 → blockPtr t j = if j = i then 19 else 0
  leaf : ∃ t, onDisk v 19 = some t ∧ DirentBlock t ∧ validDirents t = [entryA.record]

theorem slot_tree {i : Nat} {r : List Int × Machine Volume} {b : Block}
    (calls : EachCall (fsStep volumeDisk (zeroFilled fun _ => ⟨0, 0⟩)) (Admitted fun _ => ⟨0, 0⟩)
      (slotCalls i) (firstMounted 0 0 0 ⟨0, 0⟩))
    (hrun : run (fsStep volumeDisk (zeroFilled fun _ => ⟨0, 0⟩)) (slotCalls i)
      (firstMounted 0 0 0 ⟨0, 0⟩) = some r) (hb : onDisk r.2.disk 17 = some b)
    (one : OneEntry r.2.disk i b) (hi : i < allSlots) :
    DirectoryTree r.2 17 b ∧ direntsUnder (onDisk r.2.disk) allSlots b = [entryA.record] ∧
      direntsUnder (onDisk r.2.disk) walkedSlots b =
        if i < walkedSlots then [entryA.record] else [] := by
  obtain ⟨as, m, hrun', a, agrees, inv⟩ := fs_run _ 0 0 0 ⟨0, 0⟩ calls
  obtain rfl := Option.some.inj (hrun.symm.trans hrun')
  have hdisk := Represents.onDisk agrees.represents
  have h0 : onDisk m.disk 0 = none := by
    rw [hdisk]
    exact inv.valid.content_zero
  obtain ⟨t, ht, hslots⟩ := one.index
  obtain ⟨leaf, hleaf, hblock, hentries⟩ := one.leaf
  have hdir : ∀ slots, slots ≤ 1022 →
      dirBlocks (onDisk m.disk) slots b = if i < slots then [leaf] else [] := by
    intro slots hle
    rw [dirBlocks_single h0 one.ptrs, leafBlocks_single h0 ht fun j hj => hslots j (by omega),
      hleaf, Option.toList_some]
  have hentry : ∀ slots, slots ≤ 1022 →
      direntsUnder (onDisk m.disk) slots b = if i < slots then [entryA.record] else [] := by
    intro slots hle
    rw [direntsUnder, hdir slots hle]
    split
    · rw [List.flatMap_singleton, hentries]
    · rfl
  refine ⟨⟨⟨a, agrees, inv.valid⟩, ?_, hb, one.isInode, fun t ht => ?_⟩, ?_, hentry _ (by decide)⟩
  · simp only [hdisk]
    exact inv.forest
  · have hmem : t ∈ dirBlocks (onDisk m.disk) allSlots b := ht
    rw [hdir allSlots (Nat.le_refl _), if_pos hi] at hmem
    rwa [List.mem_singleton.mp hmem]
  · exact (hentry allSlots (Nat.le_refl _)).trans (if_pos hi)

instance (v : Volume) (i : Nat) (b : Block) : Decidable (OneEntry v i b) :=
  decidable_of_iff (isDat b = false ∧
      (∀ j, j < 13 → inodePtr b j = if j = 10 then 20 else 0) ∧
      (∃ t, onDisk v 20 = some t ∧ ∀ j, j < 1022 → blockPtr t j = if j = i then 19 else 0) ∧
      ∃ t, onDisk v 19 = some t ∧ DirentBlock t ∧ validDirents t = [entryA.record])
    ⟨fun ⟨h₁, h₂, h₃, h₄⟩ => ⟨h₁, h₂, h₃, h₄⟩, fun h => ⟨h.1, h.2, h.3, h.4⟩⟩

theorem firstSlot_covered : ∃ m b, DirectoryTree m 17 b ∧
    entryA.record ∈ direntsUnder (onDisk m.disk) allSlots b ∧
    Covered (fun _ => ⟨0, 0⟩) m 17 b entryA.record := by
  have hcall : ∃ r, run (fsStep volumeDisk (zeroFilled fun _ => ⟨0, 0⟩)) (slotCalls 0)
      (firstMounted 0 0 0 ⟨0, 0⟩) = some r ∧ ∃ b, onDisk r.2.disk 17 = some b ∧
        OneEntry r.2.disk 0 b := by
    decide +kernel
  obtain ⟨r, hrun, b, hb, one⟩ := hcall
  obtain ⟨tree, hall, hwalked⟩ := slot_tree (by decide +kernel) hrun hb one (by decide)
  have hmem : entryA.record ∈ direntsUnder (onDisk r.2.disk) allSlots b := by
    rw [hall]
    exact List.mem_singleton_self _
  refine ⟨r.2, b, tree, hmem, (walkers_cover_iff tree hmem).mpr ⟨⟨entryA.record, ?_, rfl⟩, ?_⟩⟩
  · rw [hwalked, if_pos (by decide)]
    exact List.mem_singleton_self _
  · rw [hall, hwalked, if_pos (by decide)]

/-- The entry hangs below the last pointer. -/
theorem lastSlot_missed : ∃ m b, DirectoryTree m 17 b ∧
    entryA.record ∈ direntsUnder (onDisk m.disk) allSlots b ∧
    ¬ Covered (fun _ => ⟨0, 0⟩) m 17 b entryA.record := by
  have hcall : ∃ r, run (fsStep volumeDisk (zeroFilled fun _ => ⟨0, 0⟩)) (slotCalls 1021)
      (firstMounted 0 0 0 ⟨0, 0⟩) = some r ∧ ∃ b, onDisk r.2.disk 17 = some b ∧
        OneEntry r.2.disk 1021 b := by
    decide +kernel
  obtain ⟨r, hrun, b, hb, one⟩ := hcall
  obtain ⟨tree, hall, hwalked⟩ := slot_tree (by decide +kernel) hrun hb one (by decide)
  refine ⟨r.2, b, tree, ?_, fun covered => ?_⟩
  · rw [hall]
    exact List.mem_singleton_self _
  · obtain ⟨d', hd', -⟩ := (covered.followed tree (isDirentValid_record entryA)).seen
    rw [hwalked, if_neg (by decide)] at hd'
    cases hd'

end WalkCoverage
