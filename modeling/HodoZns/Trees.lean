import HodoZns.DirectoryMaps
import HodoZns.Erasures
import HodoZns.FileContents

/-!
# The directory tree

What the directories are for: each of them, known by the number of its inode,
holds a finite set of entries, and every inode is entered at most once. On the
disk the entries lie in the data blocks of the directory inodes; a write to a
file, a new inode and a changed directory leave the other directories alone.
-/

namespace Trees

open ByteBlock Layout BlockLog ZoneLog LogStore Programs Kernel StoreMachine FileBlocks Ancestry
open BlockForest TreeWrites FileWrites Directories Operations DirectoryWrites NewInodes FsRuns
open Ownership FileContents DirectoryBlocks DirectoryMaps Erasures

def validDirents (t : Block) : List Dirent := (direntOffsets.map (direntAt t)).filter isDirentValid

/-- The valid entries in the data blocks of the directory inode under `n`. -/
def direntsOf (c : Nat → Option Block) (n : Nat) : List Dirent :=
  (List.range 10).flatMap fun i => ((storedBlock c n i).map validDirents).getD []

theorem validDirents_eq {t : Block} {es : List Entry} (h : BlockHolds t es) :
    validDirents t = es.map Entry.record := by
  rw [validDirents, h.slots, List.filter_append, List.filter_replicate, isDirentValid_zeros,
    if_neg (by decide), List.append_nil, List.filter_eq_self]
  intro d hd
  obtain ⟨e, _, rfl⟩ := List.mem_map.mp hd
  exact isDirentValid_record e

theorem flatMap_getD {α : Type} (ds : List (List α)) {k : Nat} (hk : ds.length ≤ k) :
    ((List.range k).flatMap fun i => ds.getD i []) = ds.flatten := by
  induction ds generalizing k with
  | nil => simp
  | cons d ds ih =>
    obtain ⟨k, rfl⟩ : ∃ k', k = k' + 1 := ⟨k - 1, by simp at hk; omega⟩
    rw [List.range_succ_eq_map, List.flatMap_cons, List.flatMap_map, List.flatten_cons,
      List.getD_cons_zero, ← ih (Nat.le_of_succ_le_succ hk)]
    rfl

section Frames

variable {s s' : Store} {n x : Nat} {b b' : Block} {ds : List (List Entry)}

/-- Whoever has the blocks of the directory has its entries. -/
theorem direntsOf_eq (h : HasBlocks s n b ds) (valid : Valid s) (forest : IsForest s.content)
    {c : Nat → Option Block} (h0 : c 0 = none)
    (has : ∀ {x d}, s.content x = some d → c x = some d) :
    direntsOf c n = ds.flatten.map Entry.record := by
  rw [direntsOf, ← flatMap_getD ds h.len, List.map_flatMap]
  apply List.flatMap_congr
  intro i hi
  have hi := List.mem_range.mp hi
  rw [storedBlock_eq (has h.inode), dataAt_direct _ _ hi]
  by_cases hlt : i < ds.length
  · obtain ⟨t, ht, hold⟩ := h.block i hlt
    rw [dataAt_direct _ _ hi] at ht
    rw [has ht, Option.map_some, Option.getD_some, validDirents_eq hold,
      List.getD_eq_getElem _ _ hlt]
  · have hzero :=
      (dataAt_eq_none_iff valid forest h.inode h.isInode hi).mp (h.beyond i (by omega) hi)
    rw [hzero, h0, List.getD_eq_default _ _ (by omega)]
    rfl

/-- A directory is the same when all that its inode reaches is. -/
theorem entries_of_same (h : HasEntries s n b ds) (valid : Valid s) (valid' : Valid s')
    (forest : IsForest s.content)
    (same : ∀ y, Reach (Edge s.content) n y → s'.content y = s.content y) :
    HasEntries s' n b ds := by
  have hdata : ∀ i, i < 10 → dataAt s'.content b i = dataAt s.content b i := by
    intro i hi
    apply dataAt_congr forest valid.content_zero valid'.content_zero h.inode h.isInode
      (fieldOf_direct hi) rfl
    intro hne y _ hreach
    exact same y (hreach.head ⟨_, _, b, h.inode, slot_of_field (fieldOf_direct hi) h.isInode hne⟩)
  refine ⟨(same n Relation.ReflTransGen.refl).trans h.inode, h.isInode, h.noIndex, h.len,
    fun i hi => ?_, fun i hi hlt => ?_, h.unique⟩
  · have hlen := h.len
    rw [hdata i (by omega)]
    exact h.block i hi
  · rw [hdata i hlt]
    exact h.beyond i hi hlt

theorem inodeAt_of_written (h : FileWritten s s' n b b') (hn : s.content n = some b)
    (hb : isDat b = false) {t : UInt8} (hx : InodeAt s'.content x t) : InodeAt s.content x t := by
  obtain ⟨d, hd, hdat, htype⟩ := hx
  by_cases heq : x = n
  · subst heq
    obtain rfl := Option.some.inj (hd.symm.trans h.inode)
    exact ⟨b, hn, hb, (fileType_of_fields h.fields).symm.trans htype⟩
  · exact ⟨d, h.inodes x d hd hdat heq, hdat, htype⟩

theorem entries_of_written (h : HasEntries s x b ds) (valid : Valid s) (forest : IsForest s.content)
    {c c' : Block} (hn : s.content n = some c) (hc : isDat c = false)
    (hw : FileWritten s s' n c c') (hne : x ≠ n) : HasEntries s' x b ds :=
  entries_of_same h valid hw.valid forest
    (FileWritten.isolated hw forest hn hc h.inode h.isInode hne)

end Frames

/-- The entries of each directory, by the number of its inode. -/
abbrev Tree := Nat → Finset Entry

/-- A full directory takes no entry. -/
def enter (T : Tree) (d : Nat) (e : Entry) : Tree :=
  if (T d).card < 1020 then update T d (insert e (T d)) else T

def leave (T : Tree) (d : Nat) (name : FileName) : Tree :=
  update T d ((T d).filter fun e => e.name ≠ name)

def entryType (e : Entry) : UInt8 := if e.isDir then hodoTypeDir else hodoTypeReg

/-- The directories on the disk hold the entries of the tree. -/
structure DirsHold (s : Store) (T : Tree) : Prop extends DiskInv s where
  dirs : ∀ {n}, InodeAt s.content n hodoTypeDir → ∃ b ds, HasEntries s n b ds ∧
    ds.flatten.toFinset = T n
  inDirs : ∀ {n e}, e ∈ T n → InodeAt s.content n hodoTypeDir

/-- No inode is entered twice. -/
def Single (T : Tree) : Prop :=
  ∀ n n' e e', e ∈ T n → e' ∈ T n' → e.iIno = e'.iIno → n = n' ∧ e = e'

/-- And what is entered is there. -/
structure DiskTree (s : Store) (T : Tree) : Prop extends DirsHold s T where
  target : ∀ {n e}, e ∈ T n → InodeAt s.content e.iIno (entryType e)
  single : Single T

section Trees

variable {T T' : Tree} {d : Nat} {e : Entry} {name : FileName}

theorem mem_enter {n : Nat} {e' : Entry} (h : e' ∈ enter T d e n) : e' ∈ T n ∨ n = d ∧ e' = e := by
  rw [enter] at h
  split at h
  · by_cases hn : n = d
    · subst hn
      rw [update_same] at h
      rcases Finset.mem_insert.mp h with heq | hold
      · exact Or.inr ⟨rfl, heq⟩
      · exact Or.inl hold
    · rw [update_other _ _ hn] at h
      exact Or.inl h
  · exact Or.inl h

theorem mem_leave {n : Nat} {e' : Entry} (h : e' ∈ leave T d name n) :
    e' ∈ T n ∧ (n = d → e'.name ≠ name) := by
  rw [leave] at h
  by_cases hn : n = d
  · subst hn
    rw [update_same] at h
    obtain ⟨hold, hne⟩ := Finset.mem_filter.mp h
    exact ⟨hold, fun _ => hne⟩
  · rw [update_other _ _ hn] at h
    exact ⟨h, fun heq => absurd heq hn⟩

theorem Single.enter (h : Single T) (unentered : ∀ n e', e' ∈ T n → e'.iIno ≠ e.iIno) :
    Single (enter T d e) := by
  intro n n' e₁ e₂ h₁ h₂ hino
  rcases mem_enter h₁ with old₁ | ⟨hn₁, new₁⟩
  · rcases mem_enter h₂ with old₂ | ⟨_, new₂⟩
    · exact h _ _ _ _ old₁ old₂ hino
    · exact absurd (hino.trans (congrArg Entry.iIno new₂)) (unentered _ _ old₁)
  · rcases mem_enter h₂ with old₂ | ⟨hn₂, new₂⟩
    · exact absurd (hino.symm.trans (congrArg Entry.iIno new₁)) (unentered _ _ old₂)
    · exact ⟨hn₁.trans hn₂.symm, new₁.trans new₂.symm⟩

theorem Single.leave (h : Single T) : Single (leave T d name) :=
  fun _ _ _ _ h₁ h₂ => h _ _ _ _ (mem_leave h₁).1 (mem_leave h₂).1

end Trees

section Writes

variable {s s' : Store} {T : Tree} {n : Nat} {b b' : Block}

theorem DirsHold.empty_of_none (tree : DirsHold s T) (hn : s.content n = none) : T n = ∅ := by
  rw [Finset.eq_empty_iff_forall_notMem]
  intro e he
  obtain ⟨d, hd, _⟩ := tree.inDirs he
  rw [hn] at hd
  cases hd

/-- A file was written. -/
theorem DirsHold.fileWritten (tree : DirsHold s T) (hn : s.content n = some b)
    (hb : isDat b = false) (htype : fileType b = hodoTypeReg) (hw : FileWritten s s' n b b') :
    DirsHold s' T where
  toDiskInv := tree.toDiskInv.fileWritten hw fun hdir => absurd (htype.symm.trans hdir) (by decide)
  dirs := by
    intro x hx
    have hx' := inodeAt_of_written hw hn hb hx
    have hne : x ≠ n := by
      rintro rfl
      obtain ⟨d, hd, _, hdir⟩ := hx'
      obtain rfl := Option.some.inj (hn.symm.trans hd)
      exact absurd (htype.symm.trans hdir) (by decide)
    obtain ⟨d, ds, h, hds⟩ := tree.dirs hx'
    exact ⟨d, ds, entries_of_written h tree.valid tree.forest hn hb hw hne, hds⟩
  inDirs he := FileWritten.inodeAt hw tree.forest hn (tree.inDirs he)

theorem DiskTree.fileWritten (tree : DiskTree s T) (hn : s.content n = some b)
    (hb : isDat b = false) (htype : fileType b = hodoTypeReg) (hw : FileWritten s s' n b b') :
    DiskTree s' T where
  toDirsHold := tree.toDirsHold.fileWritten hn hb htype hw
  target he := FileWritten.inodeAt hw tree.forest hn (tree.target he)
  single := tree.single

/-- An inode without blocks was stored under a new number. -/
theorem DiskTree.newInode (tree : DiskTree s T) (hn : s.content n = none) (valid : Valid s')
    (forest : IsForest s'.content) (content : s'.content = update s.content n (some b))
    (hb : isDat b = false) (hptrs : ∀ i, inodePtr b i = 0) : DiskTree s' T := by
  have hkeeps : ∀ {x t}, InodeAt s.content x t → InodeAt s'.content x t := by
    rintro x t ⟨d, hd, hx⟩
    have hne : x ≠ n := by
      rintro rfl
      rw [hn] at hd
      cases hd
    exact ⟨d, by rw [content, update_other _ _ hne, hd], hx⟩
  refine ⟨⟨tree.toDiskInv.put_inode valid forest content fun _ i _ _ => hptrs i, fun {x} hx => ?_,
    fun he => hkeeps (tree.inDirs he)⟩, fun he => hkeeps (tree.target he), tree.single⟩
  by_cases hxn : x = n
  · subst hxn
    have hnone : ∀ i, i < 10 → dataAt s'.content b i = none := by
      intro i hi
      rw [dataAt_direct _ _ hi, show direct b i = 0 from hptrs i]
      exact valid.content_zero
    exact ⟨b, [], ⟨by rw [content, update_same], hb, fun i _ _ => hptrs i, by simp,
      fun i hi => absurd hi (Nat.not_lt_zero i), fun i _ hi => hnone i hi, by simp⟩,
      (tree.empty_of_none hn).symm⟩
  · have hx' : InodeAt s.content x hodoTypeDir := by
      obtain ⟨d, hd, hdat⟩ := hx
      exact ⟨d, by rwa [content, update_other _ _ hxn] at hd, hdat⟩
    obtain ⟨d, ds, h, hds⟩ := tree.dirs hx'
    refine ⟨d, ds, entries_of_same h tree.valid valid tree.forest fun y hreach => ?_, hds⟩
    have hne : y ≠ n := by
      rintro rfl
      exact tree.forest.reach_some hreach (by rw [h.inode]; exact Option.some_ne_none d) hn
    rw [content, update_other _ _ hne]

/-- The directory under `n` was given the entries `S`. -/
theorem DirsHold.dirWritten (tree : DirsHold s T) (hdir : InodeAt s.content n hodoTypeDir)
    (hn : s.content n = some b) (hb : isDat b = false) (hw : FileWritten s s' n b b')
    {ds : List (List Entry)} (h : HasEntries s' n b' ds) {S : Finset Entry}
    (hds : ds.flatten.toFinset = S) : DirsHold s' (update T n S) where
  toDiskInv := tree.toDiskInv.fileWritten hw fun _ => h.noIndex
  dirs := by
    intro x hx
    by_cases hxn : x = n
    · subst hxn
      exact ⟨b', ds, h, by rw [update_same, hds]⟩
    · obtain ⟨d, ds', h', hds'⟩ := tree.dirs (inodeAt_of_written hw hn hb hx)
      rw [update_other _ _ hxn]
      exact ⟨d, ds', entries_of_written h' tree.valid tree.forest hn hb hw hxn, hds'⟩
  inDirs := by
    intro x e he
    apply FileWritten.inodeAt hw tree.forest hn
    by_cases hxn : x = n
    · exact hxn ▸ hdir
    · rw [update_other _ _ hxn] at he
      exact tree.inDirs he

theorem pointsTo_without {c : Nat → Option Block} {a i p k : Nat}
    (h : PointsTo (update c n none) a i p k) : a ≠ n ∧ PointsTo c a i p k := by
  obtain ⟨d, hd, hslot⟩ := h
  by_cases ha : a = n
  · rw [ha, update_same] at hd
    cases hd
  · rw [update_other _ _ ha] at hd
    exact ⟨ha, d, hd, hslot⟩

theorem forest_without (forest : IsForest s.content) (hn : Orphan s.content n) :
    IsForest (Store.without s n).content where
  levels := by
    intro a d hd hdat
    simp only [Store.without, update] at hd
    split at hd
    · cases hd
    · exact forest.levels hd hdat
  target := by
    intro a i p k hp
    obtain ⟨_, hp⟩ := pointsTo_without hp
    obtain ⟨d, hd, hlevel⟩ := forest.target hp
    have hne : p ≠ n := fun heq => hn a i k (heq ▸ hp)
    exact ⟨d, by simpa only [Store.without, update_other _ _ hne] using hd, hlevel⟩
  owner hp hp' := forest.owner (pointsTo_without hp).2 (pointsTo_without hp').2

theorem valid_without (valid : Valid s) : Valid (Store.without s n) where
  base := valid.base
  count_le := valid.count_le
  used := by
    intro x d hd
    simp only [Store.without, update] at hd
    split at hd
    · cases hd
    · exact valid.used hd
  names := by
    intro x d hd
    simp only [Store.without, update] at hd
    split at hd
    · cases hd
    · exact valid.names hd

theorem inodeAt_without {x : Nat} {t : UInt8} :
    InodeAt (Store.without s n).content x t ↔ x ≠ n ∧ InodeAt s.content x t := by
  simp only [InodeAt, Store.without]
  by_cases hx : x = n
  · simp [hx]
  · simp [hx]

theorem DiskInv.without (inv : DiskInv s) (hn : Orphan s.content n) :
    DiskInv (Store.without s n) := by
  refine ⟨valid_without inv.valid, forest_without inv.forest hn, fun {x d} hd => ?_⟩
  simp only [Store.without, update] at hd
  split at hd
  · cases hd
  · exact inv.noIndex hd

theorem elsewhere_without (hn : Orphan s.content n) : Elsewhere s (Store.without s n) [n] := by
  refine ⟨Nat.le_refl _, fun {x d} _ _ hne y hreach => ?_⟩
  have hy : y ≠ n := by
    rintro rfl
    exact List.ne_of_not_mem_cons hne (eq_of_reach_root hn.no_edge hreach)
  simp only [Store.without, update_other _ _ hy]

theorem entries_without {x : Nat} {ds : List (List Entry)} (h : HasEntries s x b ds)
    (valid : Valid s) (forest : IsForest s.content) (hn : Orphan s.content n) (hne : x ≠ n) :
    HasEntries (Store.without s n) x b ds := by
  exact entries_of_same h valid (valid_without valid) forest
    ((elsewhere_without hn).below h.inode h.isInode (by simpa using hne))

/-- An inode that is no directory with entries is gone. -/
theorem DirsHold.without (tree : DirsHold s T) {t : UInt8} (hn : InodeAt s.content n t)
    (hempty : T n = ∅) : DirsHold (Store.without s n) T := by
  obtain ⟨c, hc, hdat, _⟩ := hn
  have orphan := tree.forest.orphan_of_inode hc hdat
  refine ⟨DiskInv.without tree.toDiskInv orphan, fun hx => ?_,
    fun {x e} he => inodeAt_without.mpr ⟨?_, tree.inDirs he⟩⟩
  · obtain ⟨hne, hx⟩ := inodeAt_without.mp hx
    obtain ⟨d, ds, h, hds⟩ := tree.dirs hx
    exact ⟨d, ds, entries_without h tree.valid tree.forest orphan hne, hds⟩
  · rintro rfl
    rw [hempty] at he
    exact absurd he (Finset.notMem_empty e)

end Writes

theorem written_of_added {m m' : Machine Store} {n : Nat} {b sub : Block} {r : Int}
    (h : AddResult m n b sub 0 r m') (hr : r = 0) :
    ∃ b', FileWritten m.disk m'.disk n b b' := by
  cases h with
  | full => exact absurd hr (by decide)
  | slot _ _ _ _ _ hw => exact ⟨_, hw.toFileWritten⟩
  | block _ _ _ _ hw => exact ⟨_, hw.toFileWritten⟩

theorem written_of_removed {m m' : Machine Store} {n : Nat} {b : Block} {name : Name}
    {r : Int × Nat} (h : RemoveResult m n b name r m') (hr : r.1 = 1) :
    ∃ b', FileWritten m.disk m'.disk n b b' ∧ SameInodes m m' := by
  cases h with
  | absent => exact absurd hr (show (0 : Int) ≠ 1 by decide)
  | removed hremoved =>
    obtain ⟨_, _, _, _, _, hw, _, _, hinodes⟩ := hremoved
    exact ⟨_, hw.toFileWritten, hinodes⟩

section Entries

variable {m m' : Machine Store} {T : Tree} {n : Nat} {b : Block} {ds : List (List Entry)}

/-- An entry for an inode that is not entered yet. -/
theorem DiskTree.added (tree : DiskTree m.disk T) (hdir : InodeAt m.disk.content n hodoTypeDir)
    (h : HasEntries m.disk n b ds) (hds : ds.flatten.toFinset = T n) {sub : Block} {e : Entry}
    {r : Int} (desc : Describes sub e) (fresh : ∀ e' ∈ T n, e'.name ≠ e.name)
    (target : InodeAt m.disk.content e.iIno (entryType e))
    (unentered : ∀ n' e', e' ∈ T n' → e'.iIno ≠ e.iIno) (hadd : AddResult m n b sub 0 r m') :
    DiskTree m'.disk (enter T n e) := by
  have hcard : (T n).card = ds.flatten.length := by
    rw [← hds]
    exact List.toFinset_card_of_nodup (List.Nodup.of_map Entry.name h.unique)
  have hadded := h.added desc (fun e' he' => fresh e' (hds ▸ List.mem_toFinset.mpr he')) hadd
  cases hadded with
  | full hdisk hfull =>
    rw [enter, if_neg (by omega), hdisk]
    exact tree
  | @inserted b' ds' h' hperm hlen =>
    have hlt : (T n).card < 1020 := by
      have hle := h'.blocks.count_le
      rw [hperm.length_eq, List.length_cons] at hle
      omega
    have hds' : ds'.flatten.toFinset = insert e (T n) := by
      rw [List.toFinset_eq_of_perm _ _ hperm, List.toFinset_cons, hds]
    obtain ⟨c, hw⟩ := written_of_added hadd rfl
    obtain rfl := Option.some.inj (h'.inode.symm.trans hw.inode)
    have hold := tree.toDirsHold.dirWritten hdir h.inode h.isInode hw h' hds'
    have henter : enter T n e = update T n (insert e (T n)) := if_pos hlt
    rw [← henter] at hold
    refine ⟨hold, fun he => FileWritten.inodeAt hw tree.forest h.inode ?_,
      tree.single.enter unentered⟩
    rcases mem_enter he with he | ⟨_, rfl⟩
    · exact tree.target he
    · exact target

/-- The inode was erased and its entry then removed. -/
theorem DiskTree.removed {s : Store} (tree : DiskTree s T) {e : Entry} (he : e ∈ T n)
    (hempty : T e.iIno = ∅) (hne : n ≠ e.iIno) (hdisk : m.disk = Store.without s e.iIno)
    (hn : m.disk.content n = some b) {r : Int × Nat}
    (hremove : RemoveResult m n b e.name.arg r m') :
    r.1 = 1 ∧ SameInodes m m' ∧ DiskTree m'.disk (leave T n e.name) ∧
      ∀ x t, x ≠ e.iIno → InodeAt s.content x t → InodeAt m'.disk.content x t := by
  have hold : DirsHold m.disk T := hdisk ▸ tree.toDirsHold.without (tree.target he) hempty
  have hdir : InodeAt m.disk.content n hodoTypeDir := by
    rw [hdisk]
    exact inodeAt_without.mpr ⟨hne, tree.inDirs he⟩
  obtain ⟨d, ds, h, hds⟩ := hold.dirs hdir
  obtain rfl := Option.some.inj (h.inode.symm.trans hn)
  have hmem : e ∈ ds.flatten := List.mem_toFinset.mp (hds ▸ he)
  have htaken := h.taken hremove
  generalize hr : r.1 = x at htaken
  cases htaken with
  | absent _ hno => exact absurd rfl (hno e hmem)
  | @removed b' ds' e₀ hname h' hperm _ _ =>
    obtain ⟨c, hw, hinodes⟩ := written_of_removed hremove hr
    obtain rfl := Option.some.inj (h'.inode.symm.trans hw.inode)
    have hleave : ds'.flatten.toFinset = (T n).filter fun e' => e'.name ≠ e.name := by
      rw [← hds, ← hname]
      exact toFinset_of_perm_cons hperm h.unique
    have hkeeps : ∀ x t, x ≠ e.iIno → InodeAt s.content x t → InodeAt m'.disk.content x t := by
      intro x t hx hat
      apply FileWritten.inodeAt hw hold.forest hn
      rw [hdisk]
      exact inodeAt_without.mpr ⟨hx, hat⟩
    refine ⟨rfl, hinodes, ⟨hold.dirWritten hdir hn h.isInode hw h' hleave, fun {x e'} he' => ?_,
      tree.single.leave⟩, hkeeps⟩
    obtain ⟨he', hother⟩ := mem_leave he'
    apply hkeeps _ _ _ (tree.target he')
    intro heq
    obtain ⟨hx, hee⟩ := tree.single _ _ _ _ he' he heq
    exact hother hx (congrArg Entry.name hee)

end Entries

end Trees
