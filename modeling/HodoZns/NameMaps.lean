import HodoZns.Counters
import HodoZns.DirectoryRuns
import HodoZns.Sizes

/-!
# Names and numbers

What a directory is for: it leads from each name to the inode that was made under it.
The map is kept beside the run, with what the creations answered, and is keyed by whole
names. The code compares the first 16 bytes, so names that fit the field never meet, and
longer ones, which `hodo_create` and `hodo_mkdir` do not refuse, do.
-/

namespace NameMaps

open ByteBlock Layout BlockLog ZoneLog NumberAllocator LogCalls LogStore Programs Kernel CallRuns
  StoreMachine
open VolumeMachine FileBlocks FileWrites TreeWrites Directories Operations FsRuns Ownership
open DirectoryBlocks DirectoryMaps Erasures Trees TreeCalls SystemRuns TreeRuns
open Lookups Counters FileReads DirectoryRuns

/-- The number of the inode of each name, by the VFS inode of the directory. -/
abbrev NameMap := Nat → List UInt8 → Option Nat

def noNames : NameMap := fun _ _ => none

def NameMap.set (G : NameMap) (dir : Nat) (name : List UInt8) (n : Option Nat) : NameMap :=
  update G dir fun name' => if name' = name then n else G dir name'

/-- A name that was created has the number of the inode of its dentry, one that was deleted has
none. -/
def NameMap.after (G : NameMap) (c : TreeCall) (r : Int × Nat) (m' : Machine Volume) : NameMap :=
  match TreeCall.creates c, TreeCall.deletes c with
  | some (dir, name, _), _ => if r.1 = 0 then G.set dir name (some (m'.inodes r.2).iIno) else G
  | none, some (dir, dentry, _) => if r.1 = 0 then G.set dir dentry.name none else G
  | none, none => G

/-- The step with the map beside the machine. -/
def namedStep (clock : Nat → Timespec) (s : (Machine Volume × Bool) × NameMap) (c : TreeCall) :
    Option ((Int × Nat) × ((Machine Volume × Bool) × NameMap)) :=
  (notedStep clock s.1 c).map fun (r, s') => (r, s', s.2.after c r s'.1)

/-- A creation finds room in its directory, and a deletion is of no zone group's. -/
def HasRoom (m : Machine Volume) : TreeCall → Prop
  | .create _ dir _ _ | .mkdir _ dir _ _ | .mkdirBody _ dir _ _ => entryCount m dir < 1020
  | .unlink _ dentry | .rmdir _ dentry =>
    isZoneGroup dentry.name = false ∧ isZoneGroup dentry.parentName = false
  | .write _ _ => True

instance (m : Machine Volume) : (c : TreeCall) → Decidable (HasRoom m c)
  | .create _ _ _ _ | .mkdir _ _ _ _ | .mkdirBody _ _ _ _ => inferInstanceAs (Decidable (_ < _))
  | .unlink _ _ | .rmdir _ _ => inferInstanceAs (Decidable (_ ∧ _))
  | .write _ _ => isTrue trivial

/-- The call is made with a short name, finds room, and spares the numbers in use. -/
def Roomy (clock : Nat → Timespec) (s : (Machine Volume × Bool) × NameMap) (c : TreeCall) : Prop :=
  Spared clock s.1 c ∧ HasRoom s.1.1 c

instance (clock : Nat → Timespec) (s : (Machine Volume × Bool) × NameMap) (c : TreeCall) :
    Decidable (Roomy clock s c) :=
  inferInstanceAs (Decidable (_ ∧ _))

/-- A lookup of the name sets up an inode of this number, or none. -/
def Finds (clock : Nat → Timespec) (m : Machine Volume) (dir : Nat) (name : List UInt8)
    (n : Option Nat) : Prop :=
  ∃ found m', exec (machine volumeDisk (zeroFilled clock)) (hodoSubLookup dir name) m =
    .done (found, m') ∧ found.map (fun ref => (m'.inodes ref).iIno) = n

/-- The map says what the directories hold. -/
structure Named (a : Machine Store) (T : Tree) (G : NameMap) : Prop where
  number_iff : ∀ dir name n, (a.inodes dir).iOp = some .dir →
    (G dir name = some n ↔ ∃ e ∈ T (a.inodes dir).iIno, e.name.bytes = name ∧ e.iIno = n)
  unused : ∀ dir name, a.inodeCount ≤ dir → G dir name = none

section Maps

variable {G : NameMap} {dir dir' : Nat} {name name' : List UInt8} {n : Option Nat}

theorem set_same : G.set dir name n dir name = n := by
  rw [NameMap.set, update_same, if_pos rfl]

theorem set_otherName (h : name' ≠ name) : G.set dir name n dir name' = G dir name' := by
  rw [NameMap.set, update_same, if_neg h]

theorem set_otherDir (h : dir' ≠ dir) : G.set dir name n dir' = G dir' := by
  rw [NameMap.set, update_other _ _ h]

end Maps

section Steps

variable {clock : Nat → Timespec} {intact : Bool} {m : Machine Volume} {a a' : Machine Store}
  {T : Tree} {G : NameMap} {dir : Nat}

/-- Where the directories and their VFS inodes stay, so does the map. -/
theorem Named.same (h : Named a T G) (hcount : a'.inodeCount = a.inodeCount)
    (inodes : ∀ r, (a'.inodes r).iIno = (a.inodes r).iIno ∧ (a'.inodes r).iOp = (a.inodes r).iOp) :
    Named a' T G := by
  constructor
  · intro r name n hop
    rw [(inodes r).1]
    exact h.number_iff r name n ((inodes r).2 ▸ hop)
  · intro r name hr
    exact h.unused r name (hcount ▸ hr)

/-- A new entry goes with a new name. -/
theorem named_created {name : FileName} {isDir : Bool} {grown : Int} {e : Entry} (inv : TreeInv a T)
    (h : Named a T G) (hdir : (a.inodes dir).iOp = some .dir)
    (room : (T (a.inodes dir).iIno).card < 1020) (created : Creates a T dir name isDir grown e a') :
    Named a' (enter T (a.inodes dir).iIno e) (G.set dir name.bytes (some e.iIno)) := by
  have hlt : dir < a.inodeCount := callable_lt inv.vfs.toVfsInv (Or.inl hdir)
  have hinv := created.inv
  have entered : enter T (a.inodes dir).iIno e =
      update T (a.inodes dir).iIno (insert e (T (a.inodes dir).iIno)) := by
    rw [enter, if_pos room]
  rw [entered] at hinv ⊢
  obtain ⟨_, b, hb, _⟩ := inv.dirAt hdir
  have hfresh : e.iIno ≠ (a.inodes dir).iIno := by
    intro heq
    have hnone := created.fresh
    rw [heq, hb] at hnone
    cases hnone
  have sameInode : ∀ r, r ≠ a.inodeCount →
      (a'.inodes r).iIno = (a.inodes r).iIno ∧ (a'.inodes r).iOp = (a.inodes r).iOp := by
    intro r hr
    rw [created.inodes r hr]
    by_cases hrd : r = dir
    · rw [hrd, update_same]
      exact ⟨rfl, rfl⟩
    · rw [update_other _ _ hrd]
      exact ⟨rfl, rfl⟩
  constructor
  · intro r name' n hop
    by_cases hr : r = a.inodeCount
    · -- the directory that was made is empty
      subst hr
      have hempty : T e.iIno = ∅ := inv.toDirsHold.empty_of_none created.fresh
      rw [set_otherDir (Nat.ne_of_gt hlt), h.unused _ _ (Nat.le_refl _), created.number,
        update_other _ _ hfresh, hempty]
      simp
    · obtain ⟨hino, hop'⟩ := sameInode r hr
      rw [hop'] at hop
      rw [hino]
      by_cases hrd : r = dir
      · subst hrd
        rw [update_same]
        have hname : e.name.bytes = name.bytes := congrArg FileName.bytes created.name
        by_cases hsame : name' = name.bytes
        · subst hsame
          rw [set_same]
          constructor
          · intro heq
            exact ⟨e, Finset.mem_insert_self _ _, hname, Option.some.inj heq⟩
          · rintro ⟨e', he', hname', rfl⟩
            have hin : e ∈ update T (a.inodes r).iIno (insert e (T (a.inodes r).iIno))
                (a.inodes r).iIno := by
              rw [update_same]
              exact Finset.mem_insert_self _ _
            have hin' : e' ∈ update T (a.inodes r).iIno (insert e (T (a.inodes r).iIno))
                (a.inodes r).iIno := by
              rw [update_same]
              exact he'
            rw [names_inj hinv hin hin' (FileName.ext (hname'.trans hname.symm))]
        · rw [set_otherName hsame, h.number_iff r name' n hop]
          constructor
          · rintro ⟨e', he', hname', hn⟩
            exact ⟨e', Finset.mem_insert_of_mem he', hname', hn⟩
          · rintro ⟨e', he', hname', hn⟩
            rcases Finset.mem_insert.mp he' with rfl | hold
            · exact absurd (hname'.symm.trans hname) hsame
            · exact ⟨e', hold, hname', hn⟩
      · have hapart : (a.inodes r).iIno ≠ (a.inodes dir).iIno := fun heq =>
          hrd (inv.vfs.apart r dir (Or.inl hop) (Or.inl hdir) heq)
        rw [set_otherDir hrd, update_other _ _ hapart]
        exact h.number_iff r name' n hop
  · intro r name' hr
    rw [created.count] at hr
    rw [set_otherDir (by omega)]
    exact h.unused r name' (by omega)

/-- With an entry its name goes. -/
theorem named_deleted {dentry : Dentry} {isDir : Bool} {e : Entry} (inv : TreeInv a T)
    (h : Named a T G) (hdir : (a.inodes dir).iOp = some .dir)
    (deleted : Deletes a T dir dentry isDir e a') :
    Named a' (leave T (a.inodes dir).iIno e.name) (G.set dir dentry.name none) := by
  constructor
  · intro r name' n hop
    have hr : r ≠ dentry.inode := by
      rintro rfl
      rw [deleted.gone] at hop
      cases hop
    by_cases hrd : r = dir
    · subst hrd
      obtain ⟨now, hparent⟩ := deleted.parent
      have hino : (a'.inodes r).iIno = (a.inodes r).iIno := by
        rw [hparent]
        rfl
      rw [hino, leave, update_same]
      by_cases hsame : name' = dentry.name
      · subst hsame
        rw [set_same]
        refine iff_of_false (by simp) ?_
        rintro ⟨e', he', hname', _⟩
        exact (Finset.mem_filter.mp he').2 (FileName.ext (hname'.trans deleted.name.symm))
      · rw [set_otherName hsame, h.number_iff r name' n hdir]
        constructor
        · rintro ⟨e', he', hname', hn⟩
          refine ⟨e', Finset.mem_filter.mpr ⟨he', fun heq => hsame ?_⟩, hname', hn⟩
          rw [← hname', heq, deleted.name]
        · rintro ⟨e', he', hname', hn⟩
          exact ⟨e', (Finset.mem_filter.mp he').1, hname', hn⟩
    · rw [deleted.other r hrd hr] at hop ⊢
      have hapart : (a.inodes r).iIno ≠ (a.inodes dir).iIno := fun heq =>
        hrd (inv.vfs.apart r dir (Or.inl hop) (Or.inl hdir) heq)
      rw [set_otherDir hrd, leave, update_other _ _ hapart]
      exact h.number_iff r name' n hop
  · intro r name' hr
    rw [deleted.count] at hr
    have hlt : dir < a.inodeCount := callable_lt inv.vfs.toVfsInv (Or.inl hdir)
    rw [set_otherDir (by omega)]
    exact h.unused r name' hr

/-- A file that was written keeps its number. -/
theorem Named.written {ref : Nat} (h : Named a T G) (written : OnlySize a a' ref) :
    Named a' T G := by
  obtain ⟨size, hinodes, hcount⟩ := written
  refine h.same hcount fun r => ?_
  rw [hinodes]
  by_cases hr : r = ref
  · rw [hr, update_same]
    exact ⟨rfl, rfl⟩
  · rw [update_other _ _ hr]
    exact ⟨rfl, rfl⟩

theorem creates_of_deletes {c : TreeCall} {d : Nat × Dentry × Bool}
    (h : TreeCall.deletes c = some d) : TreeCall.creates c = none := by
  cases c with
  | unlink | rmdir => rfl
  | create | mkdir | mkdirBody | write => cases h

theorem room_of_creates {c : TreeCall} {name : List UInt8} {isDir : Bool} (h : HasRoom m c)
    (hc : TreeCall.creates c = some (dir, name, isDir)) : entryCount m dir < 1020 := by
  cases c with
  | create | mkdir | mkdirBody =>
    obtain ⟨rfl, _⟩ := Prod.mk.inj (Option.some.inj hc)
    exact h
  | write | unlink | rmdir => cases hc

theorem room_of_deletes {c : TreeCall} {dentry : Dentry} {isDir : Bool} (h : HasRoom m c)
    (hc : TreeCall.deletes c = some (dir, dentry, isDir)) :
    isZoneGroup dentry.name = false ∧ isZoneGroup dentry.parentName = false := by
  cases c with
  | unlink | rmdir =>
    obtain ⟨_, hrest⟩ := Prod.mk.inj (Option.some.inj hc)
    obtain ⟨rfl, _⟩ := Prod.mk.inj hrest
    exact h
  | create | mkdir | mkdirBody | write => cases hc

/-- Every call changes the map as it changes the directories. -/
theorem named_effect {c : TreeCall} {r : Int × Nat} {m' : Machine Volume} {T' : Tree}
    {intact' : Bool} (follows : Follows intact m a) (inv : TreeInv a T) (h : Named a T G)
    (called : Called (onDisk m.disk) m.inodes c) (room : HasRoom m c)
    (follows' : Follows intact' m' a') (effect : Effect a T c r a' T') :
    Named a' T' (G.after c r m') := by
  cases effect with
  | @created dir name isDir e _ hcreates created =>
    have hdir := (dir_of_called follows called).1 _ _ hcreates
    have hcount := (counts_eq follows inv hdir).1
    have hnumber : (m'.inodes a.inodeCount).iIno = e.iIno := by
      rw [follows'.inodes]
      exact created.number
    simp only [NameMap.after, hcreates, if_true, hnumber]
    exact named_created inv h hdir (hcount ▸ room_of_creates room hcreates) created
  | written hwrite hsize _ =>
    subst hwrite
    exact h.written hsize
  | @deleted dir dentry isDir e _ hdeletes deleted =>
    have hdir := (dir_of_called follows called).2 _ _ hdeletes
    simp only [NameMap.after, creates_of_deletes hdeletes, hdeletes, if_true]
    exact named_deleted inv h hdir deleted
  | @kept dir dentry isDir r _ hdeletes hzone _ _ hsame =>
    obtain ⟨hname, hparent⟩ := room_of_deletes room hdeletes
    have hne : r ≠ 0 := by
      intro hzero
      rcases hzone hzero with hname' | hparent'
      · exact absurd (hname'.symm.trans hname) (by decide)
      · exact absurd (hparent'.symm.trans hparent) (by decide)
    have same := hsame hne
    simp only [NameMap.after, creates_of_deletes hdeletes, hdeletes, if_neg hne]
    exact h.same same.inodeCount fun r => by rw [same.inodes]; exact ⟨rfl, rfl⟩

theorem wp_lookup_absent {name : FileName} (inv : TreeInv a T)
    (hdir : (a.inodes dir).iOp = some .dir) (absent : ∀ e ∈ T (a.inodes dir).iIno, e.name ≠ name) :
    wp (plain storeDisk clock) (hodoSubLookup dir name.bytes) (fun found _ => found = none) a := by
  obtain ⟨hmod, hat⟩ := inv.dirAt hdir
  obtain ⟨b, ds, entries, hds⟩ := inv.dirs hat
  have root : (a.inodes rootRef).iIno = a.disk.base := inv.vfs.root.trans inv.valid.base.symm
  have hnone : numberOf ds.flatten name = nothingFound :=
    numberOf_of_absent fun e he => absent e (by rw [← hds]; exact List.mem_toFinset.mpr he)
  rw [hodoSubLookup_eq, wp_bind]
  apply wp_mono _ (wp_lookupParent inv.valid root hmod entries.inode)
  rintro _ a₁ ⟨rfl, rfl⟩
  rw [wp_bind]
  apply wp_mono _ (wp_findInodeNumber (m := Machine.later (Machine.updateInode (Machine.later a) dir
    fun i => i.setTimes (clock a.tick))) inv.valid inv.forest entries name)
  rintro _ a₂ ⟨rfl, _⟩
  rw [hnone, if_pos rfl]
  exact (Programs.wp_pure _ _ _ _).mpr rfl

/-- A lookup comes to the number in the tree. -/
theorem wp_lookup_number {name : FileName} {n : Option Nat} (inv : TreeInv a T)
    (hdir : (a.inodes dir).iOp = some .dir)
    (number : ∀ k, n = some k ↔ ∃ e ∈ T (a.inodes dir).iIno, e.name.bytes = name.bytes ∧
      e.iIno = k) :
    wp (plain storeDisk clock) (hodoSubLookup dir name.bytes)
      (fun found a' => found.map (fun ref => (a'.inodes ref).iIno) = n) a := by
  cases n with
  | none =>
    apply wp_mono _ (wp_lookup_absent inv hdir fun e he hname => ?_)
    · rintro _ _ rfl
      rfl
    · exact absurd ((number e.iIno).mpr ⟨e, he, by rw [hname], rfl⟩) (by simp)
  | some k =>
    obtain ⟨e, he, hname, rfl⟩ := (number k).mp rfl
    obtain ⟨b, hb, hdat, _⟩ := inv.target he
    have root : (a.inodes rootRef).iIno = a.disk.base := inv.vfs.root.trans inv.valid.base.symm
    apply wp_mono _ (Sizes.wp_hodoSubLookup inv.toDiskTree root (inv.dirAt hdir).2 he hname hb)
    rintro _ a' ⟨rfl, _, _, now, hinodes⟩
    rw [Option.map_some, hinodes, update_same]
    exact congrArg some (iIno_of_inode inv.valid hb hdat)

theorem passive_hodoSubLookup (dir : Nat) (name : List UInt8) :
    (hodoSubLookup dir name).Only Passive := by
  rw [hodoSubLookup_eq]
  refine only_bind (passive_lookupParent dir) fun inode => ?_
  refine only_bind (passive_findInodeNumber inode _) fun number => only_ite (only_pure _ _) ?_
  refine only_bind (passive_hodoRead _ zeros) fun target => ?_
  refine only_bind (only_cmd trivial) fun ref => ?_
  exact only_bind (only_cmd trivial) fun _ => only_pure _ _

theorem finds_of_named (follows : Follows intact m a) (inv : TreeInv a T) (h : Named a T G)
    {name : List UInt8} (hdir : (a.inodes dir).iOp = some .dir) (hname : IsFileName name) :
    Finds clock m dir name (G dir name) := by
  obtain ⟨fileName, rfl⟩ : ∃ fileName : FileName, fileName.bytes = name :=
    ⟨⟨name, hname.1, hname.2.1, hname.2.2⟩, rfl⟩
  have hlookup : wp (plain storeDisk clock) (hodoSubLookup dir fileName.bytes)
      (fun found a' => found.map (fun ref => (a'.inodes ref).iIno) = G dir fileName.bytes) a :=
    wp_lookup_number inv hdir fun k => h.number_iff dir fileName.bytes k hdir
  obtain ⟨found, m', a', hexec, follows', hfound⟩ := program_follows follows
    (guarded_of_only fits_of_passive (passive_hodoSubLookup dir fileName.bytes) m) hlookup
  refine ⟨found, m', hexec, ?_⟩
  rw [follows'.inodes]
  exact hfound

theorem mem_direntsOf (follows : Follows intact m a) (inv : TreeInv a T) {n : Nat}
    (hat : InodeAt a.disk.content n hodoTypeDir) (d : Dirent) :
    d ∈ direntsOf (onDisk m.disk) n ↔ ∃ e ∈ T n, e.record = d := by
  obtain ⟨es, _, hes, hdirents⟩ := DirsHold.direntsOf inv.toDirsHold follows hat
  rw [hdirents, List.mem_map, ← hes]
  simp only [List.mem_toFinset]

end Steps

/-- Behind the log stands a map of blocks that holds a tree, and the map of names is its own. -/
def NamedState (s : (Machine Volume × Bool) × NameMap) : Prop :=
  ∃ a T, Follows s.1.2 s.1.1 a ∧ TreeInv a T ∧ Named a T s.2

section Runs

variable {clock : Nat → Timespec} {s : (Machine Volume × Bool) × NameMap} {c : TreeCall}

theorem namedState_step (h : NamedState s) (roomy : Roomy clock s c) :
    ∃ r s', namedStep clock s c = some (r, s') ∧ NamedState s' := by
  obtain ⟨a, T, follows, inv, named⟩ := h
  obtain ⟨⟨made, spares⟩, room⟩ := roomy
  obtain ⟨r, m', a', T', hstep, follows', effect⟩ := tree_step follows inv made spares
  refine ⟨r, _, by rw [namedStep, notedStep_eq hstep]; rfl, a', T', follows', Effect.inv effect, ?_⟩
  exact named_effect follows inv named made.1 room follows' effect

theorem namedState_mounted (uid gid groups : Nat) (now : Timespec) :
    NamedState ((firstMounted uid gid groups now, true), noNames) := by
  refine ⟨_, _, follows_mounted zeros uid gid groups now, treeInv_mounted uid gid groups now, ?_⟩
  constructor
  · intro dir name n _
    simp [noNames]
  · exact fun _ _ _ => rfl

/-- A deletion leaves the entries of other names where they are. -/
theorem deletion_keeps (h : NamedState s) (roomy : Roomy clock s c) {dir : Nat} {dentry : Dentry}
    {isDir : Bool} (hc : TreeCall.deletes c = some (dir, dentry, isDir)) :
    ∃ r s', namedStep clock s c = some (r, s') ∧
      ∀ d ∈ direntsOf (onDisk s.1.1.disk) (s.1.1.inodes dir).iIno,
        d.hasName (nameArg dentry.name) = false →
        d ∈ direntsOf (onDisk s'.1.1.disk) (s.1.1.inodes dir).iIno := by
  obtain ⟨a, T, follows, inv, _⟩ := h
  obtain ⟨⟨made, spares⟩, _⟩ := roomy
  obtain ⟨r, m', a', T', hstep, follows', effect⟩ := tree_step follows inv made spares
  refine ⟨r, _, by rw [namedStep, notedStep_eq hstep]; rfl, fun d hd hname => ?_⟩
  have hdir := (dir_of_called follows made.1).2 _ _ hc
  simp only [follows.inodes] at hd ⊢
  obtain ⟨e, he, rfl⟩ := (mem_direntsOf follows inv (inv.dirAt hdir).2 d).mp hd
  have hstays : e ∈ T' (a.inodes dir).iIno := by
    cases effect with
    | created hcreates => rw [creates_of_deletes hc] at hcreates; cases hcreates
    | written hwrite => subst hwrite; cases hc
    | @deleted dir' dentry' _ e' _ hdeletes deleted =>
      obtain ⟨rfl, hrest⟩ := Prod.mk.inj (Option.some.inj (hc.symm.trans hdeletes))
      obtain ⟨rfl, _⟩ := Prod.mk.inj hrest
      rw [leave, update_same]
      refine Finset.mem_filter.mpr ⟨he, fun heq => ?_⟩
      have hhas := (hasName_record e e'.name).mpr heq
      rw [FileName.arg, deleted.name, hname] at hhas
      cases hhas
    | kept => exact he
  have hat := (Effect.inv effect).inDirs hstays
  exact (mem_direntsOf follows' (Effect.inv effect) hat _).mpr ⟨e, hstays, rfl⟩

end Runs

/-- In every run of calls with short names, each lookup comes to the inode that was made under
the name, and to none where there is none now: so two names never meet. A deletion leaves the
entries of other names where they are. -/
theorem lookups_refine_names (clock : Nat → Timespec) (uid gid groups : Nat) (now : Timespec)
    (cs : List TreeCall)
    (calls : EachCall (namedStep clock) (Roomy clock) cs
      ((firstMounted uid gid groups now, true), noNames)) :
    ∃ as s, run (namedStep clock) cs ((firstMounted uid gid groups now, true), noNames) =
      some (as, s) ∧
      (∀ dir name, (s.1.1.inodes dir).iOp = some .dir → IsFileName name →
        Finds clock s.1.1 dir name (s.2 dir name)) ∧
      ∀ c dir dentry isDir, Roomy clock s c → TreeCall.deletes c = some (dir, dentry, isDir) →
        ∃ r s', namedStep clock s c = some (r, s') ∧
          ∀ d ∈ direntsOf (onDisk s.1.1.disk) (s.1.1.inodes dir).iIno,
            d.hasName (nameArg dentry.name) = false →
            d ∈ direntsOf (onDisk s'.1.1.disk) (s.1.1.inodes dir).iIno := by
  obtain ⟨as, s, hrun, state⟩ := run_total (Roomy clock) NamedState
    (fun _ _ state roomy => namedState_step state roomy)
    (namedState_mounted uid gid groups now) calls
  refine ⟨as, s, hrun, fun dir name hdir hname => ?_, fun c dir dentry isDir roomy hc =>
    deletion_keeps state roomy hc⟩
  obtain ⟨a, T, follows, inv, named⟩ := state
  exact finds_of_named follows inv named (follows.inodes ▸ hdir) hname

/-- Three names with the same first byte, one of them the start of another; `ab` is deleted. -/
def likeNames : List TreeCall :=
  [.create ⟨0, 0⟩ rootRef [97] 0o644, .create ⟨0, 0⟩ rootRef [97, 98] 0o644,
    .mkdirBody ⟨0, 0⟩ rootRef [97, 99] 0o755, .unlink rootRef ⟨[97, 98], [47], 2⟩]

theorem likeNames_found : ∃ as s,
    run (namedStep fun _ => ⟨0, 0⟩) likeNames ((firstMounted 0 0 0 ⟨0, 0⟩, true), noNames) =
      some (as, s) ∧
    Finds (fun _ => ⟨0, 0⟩) s.1.1 rootRef [97] (some 17) ∧
    Finds (fun _ => ⟨0, 0⟩) s.1.1 rootRef [97, 98] none ∧
    Finds (fun _ => ⟨0, 0⟩) s.1.1 rootRef [97, 99] (some 20) := by
  obtain ⟨as, s, hrun, finds, _⟩ := lookups_refine_names (fun _ => ⟨0, 0⟩) 0 0 0 ⟨0, 0⟩ likeNames
    (by decide +kernel)
  have hstate : ∃ r, run (namedStep fun _ => ⟨0, 0⟩) likeNames
      ((firstMounted 0 0 0 ⟨0, 0⟩, true), noNames) = some r ∧
      (r.2.1.1.inodes rootRef).iOp = some .dir ∧ r.2.2 rootRef [97] = some 17 ∧
      r.2.2 rootRef [97, 98] = none ∧ r.2.2 rootRef [97, 99] = some 20 := by
    decide +kernel
  obtain ⟨r, hrun', hdir, hone, htwo, hthree⟩ := hstate
  obtain rfl := Option.some.inj (hrun'.symm.trans hrun)
  refine ⟨as, s, hrun, ?_, ?_, ?_⟩
  · exact hone ▸ finds rootRef [97] hdir (by decide)
  · exact htwo ▸ finds rootRef [97, 98] hdir (by decide)
  · exact hthree ▸ finds rootRef [97, 99] hdir (by decide)

/-- Sixteen letters `a` and one more letter. -/
def longName (letter : UInt8) : List UInt8 := List.replicate 16 97 ++ [letter]

/-- The second name is made and deleted, which leaves its dentry behind; so no lookup comes before
it is made again. -/
def longNames : List TreeCall :=
  [.create ⟨0, 0⟩ rootRef (longName 99) 0o644, .unlink rootRef ⟨longName 99, [47], 1⟩,
    .create ⟨0, 0⟩ rootRef (longName 98) 0o644, .create ⟨0, 0⟩ rootRef (longName 99) 0o644]

/-- Both names are made, and the second leads to the inode of the first. -/
theorem long_names_collide : ∃ as s,
    run (namedStep fun _ => ⟨0, 0⟩) longNames ((firstMounted 0 0 0 ⟨0, 0⟩, true), noNames) =
      some (as, s) ∧
    as.map Prod.fst = [0, 0, 0, 0] ∧ longName 98 ≠ longName 99 ∧
    s.2 rootRef (longName 98) = some 19 ∧ s.2 rootRef (longName 99) = some 20 ∧
    ¬ Finds (fun _ => ⟨0, 0⟩) s.1.1 rootRef (longName 99) (s.2 rootRef (longName 99)) := by
  have hcall : ∃ r, run (namedStep fun _ => ⟨0, 0⟩) longNames
      ((firstMounted 0 0 0 ⟨0, 0⟩, true), noNames) = some r ∧ r.1.map Prod.fst = [0, 0, 0, 0] ∧
      r.2.2 rootRef (longName 98) = some 19 ∧ r.2.2 rootRef (longName 99) = some 20 ∧
      ∃ q, exec (machine volumeDisk (zeroFilled fun _ => ⟨0, 0⟩))
        (hodoSubLookup rootRef (longName 99)) r.2.1.1 = .done q ∧
          q.1.map (fun ref => (q.2.inodes ref).iIno) = some 19 := by
    decide +kernel
  obtain ⟨⟨as, s⟩, hrun, has, hfirst, hsecond, ⟨found, m'⟩, hexec, hfound⟩ := hcall
  refine ⟨as, s, hrun, has, by decide, hfirst, hsecond, ?_⟩
  rintro ⟨found', m'', hexec', hfound'⟩
  obtain ⟨rfl, rfl⟩ := Prod.mk.inj (Outcome.done.inj (hexec.symm.trans hexec'))
  have heq := (hfound.symm.trans hfound').trans hsecond
  exact absurd heq (by decide)

end NameMaps
