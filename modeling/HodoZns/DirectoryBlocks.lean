import Mathlib.Data.List.GetD
import HodoZns.DirectoryWrites

/-!
# The entries of a directory block

A data block of a directory holds a list of entries from its first slot on and is
zero behind them. It has 102 slots of 40 bytes; the eight bytes behind the last
slot are never part of an entry. Each function that looks at such a block, or
changes it, does to the bytes what a list operation does to the entries.
-/

namespace DirectoryBlocks

open ByteBlock Layout BlockLog ZoneLog BlockFields Directories Operations DirectoryWrites

/-- A file name that fits the `name` field. -/
@[ext] structure FileName where
  bytes : List UInt8
  pos : 0 < bytes.length
  le : bytes.length ≤ 16
  noNul : 0 ∉ bytes
  deriving DecidableEq

structure Entry where
  name : FileName
  iIno : Nat
  isDir : Bool
  iIno_pos : 0 < iIno
  iIno_lt : iIno < 2 ^ 64
  deriving DecidableEq

def FileName.arg (n : FileName) : Name := nameArg n.bytes

def Entry.emitted (e : Entry) : Emitted := ⟨e.name.bytes, e.iIno, e.isDir⟩

/-- The record of an entry, in a slot that was zero. -/
def Entry.record (e : Entry) : Dirent :=
  let d := copyIn zeros 0 e.name.bytes.length fun i => e.name.bytes.getD i 0
  let d := putLE d 16 1 e.name.bytes.length
  let d := putLE d 24 8 e.iIno
  putLE d 32 1 (if e.isDir then 1 else 0)

/-- The inode is the one that the entry is made for. -/
structure Describes (sub : Block) (e : Entry) : Prop where
  nameLen : nameLen sub = e.name.bytes.length
  nameByte : ∀ i, i < e.name.bytes.length → nameByte sub i = e.name.bytes.getD i 0
  iIno : iIno sub = e.iIno
  fileType : fileType sub = if e.isDir then hodoTypeDir else hodoTypeReg

theorem byteAt_arg (n : FileName) {i : Nat} (hi : i < 16) :
    byteAt n.arg i = n.bytes.getD i 0 := by
  rw [FileName.arg, nameArg, byteAt_ofBytes, if_pos hi]

theorem getD_ne_zero (n : FileName) {i : Nat} (hi : i < n.bytes.length) :
    n.bytes.getD i 0 ≠ 0 := by
  rw [List.getD_eq_getElem _ _ hi]
  exact fun h => n.noNul (h ▸ List.getElem_mem hi)

theorem getD_eq_zero (n : FileName) {i : Nat} (hi : n.bytes.length ≤ i) :
    n.bytes.getD i 0 = 0 :=
  List.getD_eq_default _ _ hi

theorem length_le_of_getD {n n' : FileName}
    (h : ∀ i, i < 16 → n.bytes.getD i 0 = n'.bytes.getD i 0) :
    n.bytes.length ≤ n'.bytes.length := by
  by_contra hlt
  have hn := n.le
  refine getD_ne_zero n (i := n'.bytes.length) (by omega) ?_
  rw [h _ (by omega), getD_eq_zero n' (Nat.le_refl _)]

/-- The sixteen bytes that are compared tell file names apart. -/
theorem name_ext {n n' : FileName} (h : ∀ i, i < 16 → n.bytes.getD i 0 = n'.bytes.getD i 0) :
    n = n' := by
  have hlen : n.bytes.length = n'.bytes.length :=
    Nat.le_antisymm (length_le_of_getD h) (length_le_of_getD fun i hi => (h i hi).symm)
  have hbytes : n.bytes = n'.bytes := by
    apply List.ext_getElem hlen
    intro i hi hi'
    have hn := n.le
    have hi16 := h i (by omega)
    rwa [List.getD_eq_getElem _ _ hi, List.getD_eq_getElem _ _ hi'] at hi16
  exact FileName.ext hbytes

theorem hasName_iff (d : Dirent) (name : Name) :
    d.hasName name = true ↔ ∀ i, i < 16 → byteAt d i = byteAt name i := by
  simp [Dirent.hasName]

theorem byteAt_record (e : Entry) {i : Nat} (hi : i < 16) :
    byteAt e.record i = e.name.bytes.getD i 0 := by
  simp only [Entry.record]
  iterate 3 rw [byteAt_putLE_outside _ _ (by omega)]
  rw [byteAt_copyIn]
  split
  case isTrue => rfl
  case isFalse h => rw [byteAt_zeros, getD_eq_zero e.name (by omega)]

theorem nameLen_record (e : Entry) : e.record.nameLen = e.name.bytes.length := by
  have hle := e.name.le
  have h := getLE_putLE (N := 40)
    (copyIn zeros 0 e.name.bytes.length fun i => e.name.bytes.getD i 0)
    e.name.bytes.length (show 16 + 1 ≤ 40 by omega)
  simp only [getLE, Nat.mul_zero, Nat.add_zero] at h
  simp only [Dirent.nameLen, Entry.record]
  iterate 2 rw [byteAt_putLE_outside _ _ (by omega)]
  omega

theorem iIno_record (e : Entry) : e.record.iIno = e.iIno := by
  have hlt := e.iIno_lt
  simp only [Dirent.iIno, Entry.record]
  rw [getLE_putLE_outside _ _ (by omega), getLE_putLE _ _ (by omega)]
  exact Nat.mod_eq_of_lt hlt

theorem fileType_record (e : Entry) :
    e.record.fileType = if e.isDir then hodoTypeDir else hodoTypeReg := by
  simp only [Dirent.fileType, Entry.record, putLE]
  rw [byteAt_copyIn_inside _ _ (by omega) (by omega) (by omega)]
  cases e.isDir <;> rfl

theorem isDirentValid_record (e : Entry) : isDirentValid e.record = true := by
  have hfirst : byteAt e.record 0 ≠ 0 := by
    rw [byteAt_record e (by omega)]
    exact getD_ne_zero e.name e.name.pos
  have hlen := e.name.pos
  have hino := e.iIno_pos
  have htype : e.record.fileType = hodoTypeDir ∨ e.record.fileType = hodoTypeReg := by
    rw [fileType_record]
    cases e.isDir
    · exact Or.inr rfl
    · exact Or.inl rfl
  simp only [isDirentValid, nameLen_record, iIno_record, Bool.and_eq_true, bne_iff_ne, ne_eq,
    Bool.or_eq_true, beq_iff_eq]
  exact ⟨⟨⟨hfirst, by omega⟩, by omega⟩, htype⟩

theorem emitted_record (e : Entry) : e.record.emitted = e.emitted := by
  have hle := e.name.le
  simp only [Dirent.emitted, Entry.emitted, nameLen_record, iIno_record, Emitted.mk.injEq,
    true_and]
  constructor
  · apply List.ext_getElem
    · simp
    · intro i hi hi'
      simp only [List.getElem_map, List.getElem_range]
      rw [byteAt_record e (by omega), List.getD_eq_getElem _ _ hi']
  · rw [fileType_record]
    cases e.isDir <;> rfl

theorem hasName_record (e : Entry) (n : FileName) :
    e.record.hasName n.arg = true ↔ e.name = n := by
  rw [hasName_iff]
  constructor
  · intro h
    apply name_ext
    intro i hi
    rw [← byteAt_record e hi, h i hi, byteAt_arg n hi]
  · rintro rfl i hi
    rw [byteAt_record e hi, byteAt_arg _ hi]

theorem hasName_zeros (n : FileName) : Dirent.hasName zeros n.arg = false := by
  rw [Bool.eq_false_iff, ne_eq, hasName_iff]
  intro h
  have h0 := h 0 (by omega)
  rw [byteAt_zeros, byteAt_arg n (by omega)] at h0
  exact getD_ne_zero n n.pos h0.symm

theorem isDirentValid_zeros : isDirentValid zeros = false := by
  simp [isDirentValid]

theorem fillDirent_zeros {sub : Block} {e : Entry} (h : Describes sub e) :
    fillDirent zeros sub = e.record := by
  have htype : (fileType sub).toNat = if e.isDir then 1 else 0 := by
    rw [h.fileType]
    cases e.isDir <;> rfl
  have hname : copyIn (zeros : Dirent) 0 e.name.bytes.length (nameByte sub) =
      copyIn zeros 0 e.name.bytes.length fun i => e.name.bytes.getD i 0 := by
    apply ext_byteAt
    intro i hi
    rw [byteAt_copyIn, byteAt_copyIn]
    split
    case isTrue hin => exact h.nameByte _ (by omega)
    case isFalse => rfl
  simp only [fillDirent, Entry.record, h.nameLen, h.iIno, htype, hname]

/-- The block holds the entries, from its first slot on, and nothing else. -/
structure BlockHolds (t : Block) (es : List Entry) : Prop where
  len : es.length ≤ 102
  slot : ∀ k (h : k < es.length), direntAt t (8 + 40 * k) = es[k].record
  rest : ∀ i, 8 + 40 * es.length ≤ i → byteAt t i = 0

theorem byteAt_direntAt (t : Block) (j : Nat) {i : Nat} (hi : i < 40) :
    byteAt (direntAt t j) i = byteAt t (j + i) := by
  rw [direntAt, byteAt_ofBytes, if_pos hi]

theorem direntAt_congr {t t' : Block} {j j' : Nat}
    (h : ∀ i, i < 40 → byteAt t (j + i) = byteAt t' (j' + i)) : direntAt t j = direntAt t' j' := by
  apply ext_byteAt
  intro i hi
  rw [byteAt_direntAt t j hi, byteAt_direntAt t' j' hi]
  exact h i hi

theorem direntAt_eq_zeros {t : Block} {j : Nat} (h : ∀ i, i < 40 → byteAt t (j + i) = 0) :
    direntAt t j = zeros := by
  apply ext_byteAt
  intro i hi
  rw [byteAt_direntAt t j hi, byteAt_zeros]
  exact h i hi

theorem direntOffsets_eq : direntOffsets = (List.range 102).map fun k => 8 + 40 * k := by
  simp only [direntOffsets, offsets, hodoDataStart_eq, hodoDatablockSize_eq, hodoDirentSize_eq,
    Nat.mul_comm]

section

variable {t : Block} {es : List Entry}

theorem BlockHolds.free (h : BlockHolds t es) {k : Nat} (hk : es.length ≤ k) :
    direntAt t (8 + 40 * k) = zeros :=
  direntAt_eq_zeros fun i _ => h.rest _ (by omega)

/-- A walk over the slots meets the entries one after the other, then zeros. -/
theorem BlockHolds.slots (h : BlockHolds t es) :
    direntOffsets.map (direntAt t) =
      es.map Entry.record ++ List.replicate (102 - es.length) zeros := by
  have hlen := h.len
  rw [direntOffsets_eq, List.map_map]
  apply List.ext_getElem
  · simp
    omega
  · intro k hk hk'
    simp only [List.getElem_map, List.getElem_range, Function.comp]
    by_cases hin : k < es.length
    · rw [List.getElem_append_left (by simpa using hin), List.getElem_map]
      exact h.slot k hin
    · rw [List.getElem_append_right (by simpa using hin), List.getElem_replicate]
      exact h.free (by omega)

theorem findName_eq_none (h : BlockHolds t es) {n : FileName} (hn : ∀ e ∈ es, e.name ≠ n) :
    findName t n.arg = none := by
  rw [findName, List.find?_eq_none]
  intro j hj hname
  have hmem : direntAt t j ∈ direntOffsets.map (direntAt t) := List.mem_map_of_mem hj
  rw [h.slots, List.mem_append, List.mem_map] at hmem
  rcases hmem with ⟨e, he, hrec⟩ | hzero
  · rw [← hrec, hasName_record] at hname
    exact hn e he hname
  · rw [List.eq_of_mem_replicate hzero, hasName_zeros] at hname
    cases hname

/-- The first slot with the name. -/
theorem findName_of_mem (h : BlockHolds t es) {n : FileName} (hn : ∃ e ∈ es, e.name = n) :
    ∃ k, ∃ hk : k < es.length, es[k].name = n ∧ findName t n.arg = some (8 + 40 * k) := by
  have hlen := h.len
  have hslot : ∀ k (hk : k < es.length),
      (direntAt t (8 + 40 * k)).hasName n.arg = true ↔ es[k].name = n := fun k hk => by
    rw [h.slot k hk]
    exact hasName_record _ _
  cases hfind : es.findIdx? fun e => e.name = n with
  | none =>
    obtain ⟨e, he, hname⟩ := hn
    exact absurd (List.findIdx?_eq_none_iff.mp hfind e he) (by simpa using hname)
  | some k =>
    obtain ⟨hk, hname, hbefore⟩ := List.findIdx?_eq_some_iff_getElem.mp hfind
    refine ⟨k, hk, by simpa using hname, ?_⟩
    rw [findName, direntOffsets_eq, List.find?_map, Option.map_eq_some_iff]
    refine ⟨k, ?_, rfl⟩
    rw [List.find?_range_eq_some]
    refine ⟨(hslot k hk).mpr (by simpa using hname), by simp; omega, fun k' hk' => ?_⟩
    simp only [Function.comp, Bool.not_eq_true', Bool.eq_false_iff, ne_eq,
      hslot k' (by omega)]
    simpa using hbefore k' hk'

/-- The slot with the name, where no two entries share it. -/
theorem findName_eq_some (h : BlockHolds t es) {k : Nat} (hk : k < es.length)
    (unique : ∀ k' (h' : k' < es.length), es[k'].name = es[k].name → k' = k) :
    findName t es[k].name.arg = some (8 + 40 * k) := by
  obtain ⟨k', hk', hname, hfind⟩ := findName_of_mem h ⟨es[k], List.getElem_mem hk, rfl⟩
  obtain rfl := unique k' hk' hname
  exact hfind

theorem freeOffset_eq_some (h : BlockHolds t es) (hlt : es.length < 102) :
    freeOffset t = some (8 + 40 * es.length) := by
  rw [freeOffset, direntOffsets_eq, List.find?_map, Option.map_eq_some_iff]
  refine ⟨es.length, ?_, rfl⟩
  rw [List.find?_range_eq_some]
  refine ⟨?_, by simpa using hlt, fun k hk => ?_⟩
  · simp only [Function.comp, h.free (Nat.le_refl _), isDirentValid_zeros, Bool.not_false]
  · simp only [Function.comp, h.slot k hk, isDirentValid_record, Bool.not_true, Bool.not_false]

theorem freeOffset_eq_none (h : BlockHolds t es) (hfull : es.length = 102) :
    freeOffset t = none := by
  rw [freeOffset, List.find?_eq_none]
  intro j hj hfree
  have hmem : direntAt t j ∈ direntOffsets.map (direntAt t) := List.mem_map_of_mem hj
  rw [h.slots, hfull, Nat.sub_self, List.replicate_zero, List.append_nil, List.mem_map] at hmem
  obtain ⟨e, _, hrec⟩ := hmem
  rw [← hrec, isDirentValid_record] at hfree
  cases hfree

/-- A new entry goes behind the others. -/
theorem BlockHolds.put (h : BlockHolds t es) (hlt : es.length < 102) (e : Entry) :
    BlockHolds (putDirent t (8 + 40 * es.length) e.record) (es ++ [e]) where
  len := by
    rw [List.length_append, List.length_singleton]
    omega
  slot k hk := by
    rw [List.length_append, List.length_singleton] at hk
    by_cases hlast : k = es.length
    · subst hlast
      rw [List.getElem_concat_length rfl]
      apply ext_byteAt
      intro i hi
      rw [byteAt_direntAt _ _ hi, putDirent, byteAt_copyIn_inside _ _ (by omega) (by omega)
        (by simp; omega), Nat.add_sub_cancel_left]
    · have hin : k < es.length := by omega
      rw [List.getElem_append_left hin, ← h.slot k hin]
      exact direntAt_congr fun i _ => byteAt_copyIn_outside _ _ (Or.inl (by omega))
  rest i hi := by
    rw [List.length_append, List.length_singleton] at hi
    rw [putDirent, byteAt_copyIn_outside _ _ (Or.inr (by simp; omega))]
    exact h.rest i (by omega)

theorem blockHolds_nil (h : ∀ i, 8 ≤ i → byteAt t i = 0) : BlockHolds t [] :=
  ⟨by simp, fun k hk => absurd hk (Nat.not_lt_zero k), fun i hi => h i (by simpa using hi)⟩

theorem byteAt_compacted (t : Block) {j : Nat} (hj : j + 40 ≤ 4096) (i : Nat) :
    byteAt (compacted t j) i = if i < j then byteAt t i else byteAt t (i + 40) := by
  simp only [compacted, hodoDatablockSize_eq, hodoDirentSize_eq]
  split
  case isTrue hlt =>
    rw [byteAt_copyIn_outside _ _ (Or.inl hlt), byteAt_copyIn_inside _ _ (by omega) (by omega)
      (by omega), Nat.sub_zero]
  case isFalse hge =>
    by_cases hin : i < 4056
    · rw [byteAt_copyIn_inside _ _ (by omega) (by omega) (by omega)]
      congr 1
      omega
    · rw [byteAt_copyIn_outside _ _ (Or.inr (by omega)),
        byteAt_copyIn_outside _ _ (Or.inr (by omega)), byteAt_zeros, byteAt_of_le t (by omega)]

/-- The entries behind a removed one move up, and zeros come after the last. -/
theorem BlockHolds.remove (h : BlockHolds t es) {k : Nat} (hk : k < es.length) :
    BlockHolds (compacted t (8 + 40 * k)) (es.eraseIdx k) := by
  have hlen := h.len
  have hbyte := byteAt_compacted t (j := 8 + 40 * k) (by omega)
  have hcount : (es.eraseIdx k).length = es.length - 1 := List.length_eraseIdx_of_lt hk
  refine ⟨by omega, fun k' hk' => ?_, fun i hi => ?_⟩
  · rw [List.getElem_eraseIdx]
    split
    case isTrue hlt =>
      rw [← h.slot k' (by omega)]
      exact direntAt_congr fun i hi => by rw [hbyte, if_pos (by omega)]
    case isFalse hge =>
      rw [← h.slot (k' + 1) (by omega)]
      refine direntAt_congr fun i hi => ?_
      rw [hbyte, if_neg (by omega)]
      congr 1
      omega
  · rw [hbyte, if_neg (by omega)]
    exact h.rest _ (by omega)

theorem BlockHolds.stamp (h : BlockHolds t es) (n : Nat) : BlockHolds (stamp t n) es where
  len := h.len
  slot k hk := by
    rw [← h.slot k hk]
    exact direntAt_congr fun i _ => byteAt_stamp t n (Or.inr (by omega))
  rest i hi := by
    rw [byteAt_stamp t n (Or.inr (by omega))]
    exact h.rest i hi

theorem blockHolds_firstBlock {sub : Block} {e : Entry} (h : Describes sub e) :
    BlockHolds (firstBlock sub) [e] := by
  have hempty : BlockHolds (putMagic zeros (chr 'D') (chr 'A') (chr 'T') (chr '0')) [] :=
    blockHolds_nil fun i hi => by rw [byteAt_putMagic _ _ _ _ _ (by omega), byteAt_zeros]
  have hslot : direntAt (zeros : Block) 0 = zeros := direntAt_eq_zeros fun _ _ => byteAt_zeros _
  have hput := hempty.put (by simp) e
  rw [← fillDirent_zeros h, ← hslot] at hput
  exact hput

theorem checkEmpty_block (h : BlockHolds t es) :
    checkDirectoryEmptyFromDirectBlock t = es.isEmpty := by
  cases es with
  | nil =>
    simp only [checkDirectoryEmptyFromDirectBlock, List.isEmpty_nil, List.all_eq_true, beq_iff_eq]
    exact fun i _ => h.rest _ (by simp)
  | cons e es =>
    have hfirst : byteAt t 8 ≠ 0 := by
      have hslot : byteAt (direntAt t 8) 0 = byteAt e.record 0 :=
        congrArg (fun d => byteAt d 0) (h.slot 0 (by simp))
      rw [byteAt_direntAt _ _ (by omega), byteAt_record e (by omega)] at hslot
      rw [hslot]
      exact getD_ne_zero e.name e.name.pos
    rw [List.isEmpty_cons, Bool.eq_false_iff]
    intro hall
    have hzero := List.all_eq_true.mp hall 0 (by simp)
    exact hfirst (by simpa using hzero)

/-- What a listing makes of entries that come after `s.2` others. -/
def listEntries (es : List Entry) (s : DirContext × Nat) : DirContext × Nat :=
  es.foldl (fun s e => readDirent e.record s) s

theorem readDirent_zeros (s : DirContext × Nat) : readDirent zeros s = s := by
  rw [readDirent, isDirentValid_zeros]
  rfl

theorem readAll_eq (h : BlockHolds t es) (s : DirContext × Nat) :
    readAllDirentsFromDirectBlock t s = listEntries es s := by
  have hzeros : ∀ (k : Nat) (s : DirContext × Nat),
      (List.replicate k zeros).foldl (fun s d => readDirent d s) s = s := by
    intro k s
    induction k with
    | zero => rfl
    | succ k ih => rw [List.replicate_succ, List.foldl_cons, readDirent_zeros, ih]
  have hfold : readAllDirentsFromDirectBlock t s =
      (direntOffsets.map (direntAt t)).foldl (fun s d => readDirent d s) s := by
    rw [List.foldl_map]
    rfl
  rw [hfold, h.slots, List.foldl_append, hzeros, List.foldl_map]
  rfl

/-- From the position on the buffer is given the entries, as many as it takes; the
position comes to stand behind the last of them all the same. -/
theorem listEntries_eq (es : List Entry) {ctx : DirContext} {count : Nat} (h : count ≤ ctx.pos) :
    listEntries es (ctx, count) =
      (⟨max ctx.pos (count + es.length), ctx.room - (count + es.length - ctx.pos),
        ctx.emitted ++ ((es.drop (ctx.pos - count)).take ctx.room).map Entry.emitted⟩,
        count + es.length) := by
  induction es generalizing ctx count with
  | nil =>
    obtain ⟨pos, room, emitted⟩ := ctx
    simp only at h
    simp [listEntries, h]
  | cons e es ih =>
    have hstep : listEntries (e :: es) (ctx, count) =
        listEntries es (readDirent e.record (ctx, count)) := rfl
    rw [hstep, readDirent, isDirentValid_record, if_pos rfl]
    obtain ⟨pos, room, emitted⟩ := ctx
    simp only at h ⊢
    split
    case isTrue heq =>
      subst heq
      cases room with
      | zero =>
        rw [hodoDirEmit, ih (by simp)]
        simp only [Prod.mk.injEq, DirContext.mk.injEq, List.length_cons]
        refine ⟨⟨by omega, by omega, by simp⟩, by omega⟩
      | succ room =>
        rw [hodoDirEmit, ih (by simp)]
        simp only [Prod.mk.injEq, DirContext.mk.injEq, List.length_cons]
        refine ⟨⟨by omega, by omega, ?_⟩, by omega⟩
        simp [emitted_record]
    case isFalse hne =>
      have hlt : count < pos := Nat.lt_of_le_of_ne h hne
      rw [ih (Nat.succ_le_of_lt hlt)]
      simp only [Prod.mk.injEq, DirContext.mk.injEq, List.length_cons]
      refine ⟨⟨by omega, by omega, ?_⟩, by omega⟩
      obtain ⟨k, hk⟩ : ∃ k, pos - count = k + 1 := ⟨pos - count - 1, by omega⟩
      rw [hk, List.drop_succ_cons, show pos - (count + 1) = k by omega]

end

end DirectoryBlocks
