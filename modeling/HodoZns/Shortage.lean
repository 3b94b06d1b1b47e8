import HodoZns.LogRemovals
import HodoZns.Emptiness
import HodoZns.Lookups
import HodoZns.FailedWrites
import HodoZns.Spending

/-!
# Running out of memory

The functions that walk over a directory take the lack of a buffer for one of their
ordinary answers: the directory is empty, the name is not there, the entry was not
there to be removed. `compact_datablock` does not look whether it was given memory.
-/

namespace Shortage

open ByteBlock Layout BlockLog ZoneLog LogCalls CallRuns LogStore Programs Kernel StoreMachine
  VolumeMachine
open FileBlocks BlockForest Directories Operations DirectoryWrites FsRuns Ownership FileReads
  DirectoryBlocks
open DirectoryMaps DirectoryRuns Erasures Trees TreeCalls SystemRuns TreeRuns Emptiness Lookups
open StoredBlocks LogRemovals Spending FailedWrites

/-- The directory has an entry of that name. -/
def Present (c : Nat → Option Block) (inodes : Nat → VfsInode) (dir : Nat) (name : List UInt8) :
    Prop :=
  (inodes dir).iOp = some .dir ∧ IsFileName name ∧
    ∃ d ∈ direntsOf c (inodes dir).iIno, d.hasName (nameArg name) = true

/-- `hodo_rmdir` answers that the directory is not empty, and leaves the disk. -/
def RefusesFull (E : Env) (m : Machine Volume) (dir : Nat) (dentry : Dentry) : Prop :=
  ∃ m', exec (machine volumeDisk E) (hodoRmdir dir dentry) m = .done (eNotEmpty, m') ∧
    m'.disk = m.disk

/-- `hodo_sub_lookup` reports that there is no such name. -/
def ReportsAbsent (E : Env) (m : Machine Volume) (dir : Nat) (name : List UInt8) : Prop :=
  ∃ m', exec (machine volumeDisk E) (hodoSubLookup dir name) m = .done (none, m')

/-- The entry is gone, and the stored inode, if it can be found, has no links. -/
structure Unlinks (m m' : Machine Volume) (dir : Nat) (dentry : Dentry) : Prop where
  entry : ∀ d ∈ direntsOf (onDisk m'.disk) (m.inodes dir).iIno,
    d.hasName (nameArg dentry.name) = false
  inode : ∀ b, onDisk m'.disk (m.inodes dentry.inode).iIno = some b → iNlink b = 0

/-- `hodo_unlink` ends, and removes the entry and the inode, or neither and returns an error. -/
def UnlinksOrKeeps (E : Env) (m : Machine Volume) (dir : Nat) (dentry : Dentry) : Prop :=
  ∃ r m', exec (machine volumeDisk E) (hodoUnlink dir dentry) m = .done (r, m') ∧
    (Unlinks m m' dir dentry ∨ r < 0 ∧ onDisk m'.disk = onDisk m.disk)

section

variable {E : Env} {intact : Bool} {m : Machine Volume} {a : Machine Store} {T : Tree} {dir : Nat}
  {dentry : Dentry} {name : List UInt8}

theorem checkDirectoryEmpty_failed {D : Disk Store} (heap : E.heap a.tick = none) (b : Block) :
    wp (machine D E) (checkDirectoryEmpty b) (fun r a' => r = true ∧ a' = Machine.later a) a := by
  simp only [checkDirectoryEmpty, wp_bind, wp_kmalloc_heap, heap, wp_pure]
  exact ⟨trivial, trivial⟩

/-- Without a buffer every directory is found empty. -/
theorem wp_targetEmpty_any (inv : TreeInv a T) (hop : (a.inodes dentry.inode).iOp = some .dir) :
    wp (machine storeDisk E) (targetEmpty dentry)
      (fun r a' => (r = true ↔ E.heap (a.tick + 1) = none ∨ T (a.inodes dentry.inode).iIno = ∅) ∧
        a'.disk = a.disk) a := by
  obtain ⟨hmod, hat⟩ := inv.dirAt hop
  obtain ⟨b, ds, h, hds⟩ := inv.dirs hat
  have hroot : (if dentry.inode = rootRef then a.disk.base else (a.inodes dentry.inode).iIno) =
      (a.inodes dentry.inode).iIno := by
    split
    case isTrue hr => rw [hr, inv.vfs.root, inv.valid.base]
    case isFalse => rfl
  simp only [targetEmpty, wp_bind, wp_startingNumber, wp_getInode, wp_auto_stack, hroot, hmod]
  apply (wp_hodoRead_some (m := Machine.later a) inv.valid h.inode _ _).mpr
  cases heap : E.heap (a.tick + 1) with
  | none =>
    apply wp_mono _ (checkDirectoryEmpty_failed (a := Machine.later a) heap b)
    rintro r a' ⟨rfl, rfl⟩
    exact ⟨iff_of_true rfl (Or.inl rfl), rfl⟩
  | some buf =>
    apply wp_mono _
      (wp_checkDirectoryEmpty_heap (m := Machine.later a) heap inv.valid inv.forest h.blocks)
    rintro r a' ⟨rfl, rfl⟩
    refine ⟨?_, rfl⟩
    rw [← hds, List.isEmpty_iff, List.toFinset_eq_empty_iff]
    simp only [reduceCtorEq, false_or]

/-- A directory that has entries is refused when the test for them had its buffer. The names
of zone groups are answered with success all the same. -/
theorem refusesFull_iff (h : Follows intact m a) (inv : TreeInv a T)
    (hop : (m.inodes dentry.inode).iOp = some .dir)
    (full : direntsOf (onDisk m.disk) (m.inodes dentry.inode).iIno ≠ []) :
    RefusesFull E m dir dentry ↔ isZoneGroup dentry.name = false ∧ E.heap (m.tick + 1) ≠ none := by
  rw [h.inodes] at hop full
  rw [Ne, direntsOf_eq_nil h inv hop] at full
  obtain ⟨r, m', a', hexec, _, hr, _⟩ := program_follows h
    (guarded_of_only fits_of_passive (passive_targetEmpty dentry) m)
      (wp_targetEmpty_any (E := E) inv hop)
  rw [← h.tick] at hr
  constructor
  · rintro ⟨m₂, he, _⟩
    have hzone : isZoneGroup dentry.name = false := by
      rw [← Bool.not_eq_true]
      intro hzone
      rw [hodoRmdir, if_pos hzone] at he
      exact absurd (Prod.mk.inj (Outcome.done.inj he)).1 (by decide)
    refine ⟨hzone, fun heap => ?_⟩
    rw [hodoRmdir_eq dir hzone, exec_bind, hexec, hr.mpr (Or.inl heap)] at he
    obtain ⟨_, _, _, he⟩ := exec_bind_eq_done (by simpa only [if_pos] using he)
    exact absurd (hodoUnlink_returns he) (by decide)
  · rintro ⟨hzone, heap⟩
    have hfalse : r = false := Bool.eq_false_iff.mpr fun htrue =>
      (hr.mp htrue).elim heap full
    refine ⟨m', ?_, ?_⟩
    · rw [hodoRmdir_eq dir hzone, exec_bind, hexec, hfalse]
      rfl
    · exact exec_keeps (I := fun x => x.disk = m.disk)
        (fun _ _ _ _ idle hsame hstep => (disk_of_idle idle hstep).trans hsame)
        (only_targetEmpty trivial (fun _ => trivial) trivial (fun _ _ => trivial) trivial dentry)
        rfl hexec

theorem findInodeNumber_failed (heap : E.heap m.tick = none) (b : Block) (name : Name) :
    exec (machine volumeDisk E) (findInodeNumber b name) m =
      .done (nothingFound, { m with tick := m.tick + 1 }) := by
  rw [findInodeNumber, exec_bind, exec_kmalloc, heap]
  rfl

/-- A name that is there is found when the search had its buffer. -/
theorem reportsAbsent_iff (h : Follows intact m a) (inv : TreeInv a T)
    (present : Present (onDisk m.disk) m.inodes dir name) :
    ¬ ReportsAbsent E m dir name ↔ E.heap (m.tick + 2) ≠ none := by
  rw [h.inodes] at present
  obtain ⟨hop, ⟨hpos, hle, hnul⟩, d, hd, hname⟩ := present
  obtain ⟨b, ds, entries, hds⟩ := inv.dirs (inv.dirAt hop).2
  have hdirents :=
    direntsOf_eq entries.blocks inv.valid inv.forest (onDisk_zero h) (onDisk_of_follows h)
  rw [hdirents] at hd
  obtain ⟨e, he, rfl⟩ := List.mem_map.mp hd
  have heq : e.name = ⟨name, hpos, hle, hnul⟩ :=
    ((hasName_record e ⟨name, hpos, hle, hnul⟩).mp hname)
  have root : (a.inodes rootRef).iIno = a.disk.base := inv.vfs.root.trans inv.valid.base.symm
  obtain ⟨b', m₁, a₁, hexec, h₁, hb', ha₁⟩ := program_follows h
    (guarded_of_only fits_of_passive (passive_lookupParent dir) m)
    (wp_lookupParent (E := E) inv.valid root (inv.dirAt hop).1 entries.inode)
  rw [hb'] at hexec
  have hdisk : a₁.disk = a.disk := by
    rw [ha₁]
    rfl
  have hm₁ : m₁.tick = m.tick + 2 := by
    rw [h₁.tick, h.tick, ha₁]
    rfl
  rw [← hm₁, ReportsAbsent, hodoSubLookup_eq]
  simp only [exec_bind, hexec]
  cases heap : E.heap m₁.tick with
  | none =>
    rw [findInodeNumber_failed heap]
    exact iff_of_false (fun hfound => hfound ⟨_, rfl⟩) (fun hsome => hsome rfl)
  | some buf =>
    refine iff_of_true ?_ (Option.some_ne_none buf)
    have found := wp_findInodeNumber_heap (D := storeDisk) (E := E) (m := a₁) (h₁.tick ▸ heap)
      (hdisk ▸ inv.valid) (hdisk ▸ inv.forest) (hdisk ▸ entries) ⟨name, hpos, hle, hnul⟩
    obtain ⟨r, m₂, a₂, hexec₂, h₂, rfl, hkept⟩ := program_follows h₁
      (guarded_of_only fits_of_passive (passive_findInodeNumber b _) m₁) found
    rw [← heq, numberOf_of_mem entries.unique he] at hexec₂
    -- the inode under the number found is read; what is read does not matter
    obtain ⟨t, ht, _⟩ := inv.target (hds ▸ List.mem_toFinset.mpr he)
    have hstored : a₂.disk.content e.iIno = some t := hkept ▸ hdisk ▸ ht
    have hin : InTable m₂.disk.info (e.iIno % 2 ^ 32) := by
      rw [Nat.mod_eq_of_lt (inv.valid.number_lt (inv.valid.used ht))]
      exact (stores_of_follows h₂ hstored).inTable
    obtain ⟨c, hread⟩ := exec_hodoRead_any (E := E) hin zeros
    rintro ⟨m', he'⟩
    rw [show nameArg name = e.name.arg by rw [heq]; rfl, hexec₂] at he'
    simp only [if_neg (Nat.ne_of_gt e.iIno_pos : e.iIno ≠ nothingFound), exec_bind, hread] at he'
    cases he'

/-- Everything but number `n` is in the log as before, and under `n` an inode without links. -/
structure Severed (v : Volume) (s : Store) (n : Nat) : Prop where
  ready : Ready v
  stores : ∀ x d, (Store.without s n).content x = some d → Stores v x d
  target : ∃ c, Stores v n c ∧ iNlink c = 0

/-- `hodo_unlink` from the removal of the entry on. -/
def unlinkEntry (dir number : Nat) (name : Name) : Program Int := do
  let _ ← removeEntry number name
  setInode dir fun i => { i with iSize := i.iSize - 1 }
  pure 0

theorem severed_of_unlink (h : Follows intact m a) (inv : TreeInv a T)
    (hop : (a.inodes dir).iOp = some .dir) {n : Nat} {c : Block}
    (hn : (a.inodes dentry.inode).iIno = n) (hc : a.disk.content n = some c)
    (hzone : isZoneGroup dentry.parentName = false)
    (fits : Guarded (machine volumeDisk E) Fits (hodoUnlink dir dentry) m) :
    ∃ m₁, exec (machine volumeDisk E) (hodoUnlink dir dentry) m =
        exec (machine volumeDisk E) (unlinkEntry dir (a.inodes dir).iIno (nameArg dentry.name)) m₁ ∧
      Guarded (machine volumeDisk E) Fits
        (unlinkEntry dir (a.inodes dir).iIno (nameArg dentry.name)) m₁ ∧
      m₁.tick = m.tick + 2 ∧ Severed m₁.disk a.disk n := by
  have hlt : n % 2 ^ 32 = n := Nat.mod_eq_of_lt (inv.valid.number_lt (inv.valid.used hc))
  rw [hodoUnlink_eq dir hzone] at fits ⊢
  have numbers : wp (machine storeDisk E) (unlinkNumbers dir dentry) _ a :=
    wp_unlinkNumbers (TreeInv.live inv) hop (by rw [hn, hlt])
  obtain ⟨r, m₁, a₁, hexec₁, h₁, rfl, hdisk, _, htick, _⟩ := program_follows h
    (guarded_bind.mp fits).1 numbers
  obtain ⟨he₁, fits₁⟩ := after_done hexec₁ fits
  simp only [hn] at he₁ fits₁
  have hstores : ∀ x d, a.disk.content x = some d → Stores m₁.disk x d := fun x d hx =>
    stores_of_follows h₁ (hdisk ▸ hx)
  obtain ⟨m₂, d, hexec₂, htick₂, ready, htarget, hlinks, hkeeps⟩ := unlinkInode_keeps
    (ready_of_follows h₁) (inv.valid.ne_zero (inv.valid.used hc)) (hstores n c hc).inTable
    (guarded_bind.mp fits₁).1
  obtain ⟨he₂, fits₂⟩ := after_done hexec₂ fits₁
  refine ⟨m₂, he₁.trans he₂, fits₂, ?_, ready, fun x d' hx => ?_, d, htarget, hlinks⟩
  · rw [htick₂, h₁.tick, htick, h.tick]
  · have hne : x ≠ n := by
      rintro rfl
      simp only [Store.without, update_same] at hx
      cases hx
    simp only [Store.without, update_other _ _ hne] at hx
    exact hkeeps x d' hne (hstores x d' hx)

section Removal

variable {n p : Nat} {b : Block} {ds : List (List Entry)} {e : Entry}

theorem exec_removeEntry (h : Stores m.disk p b) (name : Name) :
    exec (machine volumeDisk E) (removeEntry p name) m =
      exec (machine volumeDisk E) (removeDirent b name p) { m with tick := m.tick + 1 } := by
  have hauto : exec (machine volumeDisk E) auto m =
    .done (E.stack m.tick, { m with tick := m.tick + 1 }) :=
    rfl
  rw [removeEntry, exec_bind, hauto]
  simp only [exec_bind, exec_hodoRead (m := { m with tick := m.tick + 1 }) h]

theorem guarded_removeEntry (h : Stores m.disk p b) {name : Name}
    (fits : Guarded (machine volumeDisk E) Fits (removeEntry p name) m) :
    Guarded (machine volumeDisk E) Fits (removeDirent b name p) { m with tick := m.tick + 1 } := by
  have hauto : exec (machine volumeDisk E) auto m =
    .done (E.stack m.tick, { m with tick := m.tick + 1 }) :=
    rfl
  obtain ⟨_, fits₁⟩ := after_done hauto fits
  exact (after_done (exec_hodoRead (m := { m with tick := m.tick + 1 }) h _) fits₁).2

theorem unlinkEntry_failed (dir : Nat) (h : Stores m.disk p b) (heap : E.heap (m.tick + 1) = none)
    (name : Name) :
    ∃ m', exec (machine volumeDisk E) (unlinkEntry dir p name) m = .done (0, m') ∧
      m'.disk = m.disk := by
  have hremove : exec (machine volumeDisk E) (removeDirent b name p)
      { m with tick := m.tick + 1 } = _ := removeDirent_failed heap
  rw [← exec_removeEntry h] at hremove
  rw [unlinkEntry, exec_bind, hremove]
  exact ⟨_, rfl, rfl⟩

section Found

variable {s : Store} {buf fill : Block}

theorem unlinkEntry_stuck (severed : Severed m.disk s n) (valid : Valid (Store.without s n))
    (forest : IsForest (Store.without s n).content) (h : HasEntries (Store.without s n) p b ds)
    (he : e ∈ ds.flatten) (heap : E.heap (m.tick + 1) = some buf)
    (heap' : E.heap (m.tick + 2) = none) :
    exec (machine volumeDisk E) (unlinkEntry dir p e.name.arg) m = .stuck := by
  obtain ⟨i, k, t, _, _, _, _, found⟩ := found_of_entries valid forest h severed.stores he
  have hremove := removeDirent_stuck (m := { m with tick := m.tick + 1 }) (n := p) heap heap' found
  rw [← exec_removeEntry (severed.stores p b h.inode)] at hremove
  rw [unlinkEntry, exec_bind, hremove]

/-- With memory for the walk and for the new block the entry is taken out. -/
theorem unlinkEntry_runs (severed : Severed m.disk s n) (valid : Valid (Store.without s n))
    (forest : IsForest (Store.without s n).content) (h : HasEntries (Store.without s n) p b ds)
    (he : e ∈ ds.flatten) (heap : E.heap (m.tick + 1) = some buf)
    (heap' : E.heap (m.tick + 2) = some fill)
    (fits : Guarded (machine volumeDisk E) Fits (unlinkEntry dir p e.name.arg) m) :
    ∃ m', exec (machine volumeDisk E) (unlinkEntry dir p e.name.arg) m = .done (0, m') ∧
      (∀ d ∈ direntsOf (onDisk m'.disk) p, d.hasName e.name.arg = false) ∧
      ∃ c, Stores m'.disk n c ∧ iNlink c = 0 := by
  obtain ⟨i, k, t, hi, hk, rfl, hold, found⟩ := found_of_entries valid forest h severed.stores he
  have hstores := severed.stores p b h.inode
  have hp0 : p ≠ 0 := valid.ne_zero (valid.used h.inode)
  have apart : ∀ {x d}, (Store.without s n).content x = some d → n ≠ x := by
    rintro x d hx rfl
    simp only [Store.without, update_same] at hx
    cases hx
  have hne : ∀ i', i' < 10 → direct b i' ≠ 0 → direct b i' ≠ p ∧
      (i' ≠ i → direct b i' ≠ direct b i) := fun i' hi' hset =>
    ⟨(direct_ne forest h found.lt hi' hset).1, fun hdiff =>
      (direct_ne forest h found.lt hi' hset).2 hdiff found.set⟩
  have fits' := guarded_removeEntry hstores (guarded_bind.mp fits).1
  obtain ⟨m', hexec, out⟩ := removeDirent_runs (m := { m with tick := m.tick + 1 }) heap heap' found
    severed.ready hstores hp0 (hne i found.lt found.set).1 fits'
  rw [← exec_removeEntry hstores] at hexec
  obtain ⟨x, y, z, hinode⟩ := out.inode
  obtain ⟨c, hc, hlinks⟩ := severed.target
  refine ⟨_, by rw [unlinkEntry, exec_bind, hexec]; rfl, ?_, c, ?_, hlinks⟩
  · have hdirents := direntsOf_taken (c := onDisk m'.disk) valid forest h hi hk hold
      out.ready.onDisk_zero hinode.onDisk out.block.onDisk fun i' t' hi' hdiff ht' => ?_
    · intro d hd
      change d ∈ direntsOf (onDisk m'.disk) p at hd
      rw [hdirents] at hd
      obtain ⟨e', he', rfl⟩ := List.mem_map.mp hd
      rw [← Bool.not_eq_true, hasName_record]
      exact other_names h hi hk e' he'
    · have hset : direct b i' ≠ 0 := valid.ne_zero (valid.used ht')
      exact (out.others _ t' ((hne i' hi' hset).2 hdiff) (hne i' hi' hset).1
        (severed.stores _ t' ht')).onDisk
  · obtain ⟨t', ht', _⟩ := h.block i hi
    rw [dataAt_direct _ _ found.lt] at ht'
    exact out.others n c (apart ht') (apart h.inode) hc

end Found

end Removal

/-- `hodo_unlink` returns 0, so it has to unlink. -/
theorem unlinksOrKeeps_of_done {m' : Machine Volume} {r : Int}
    (hexec : exec (machine volumeDisk E) (hodoUnlink dir dentry) m = .done (r, m')) :
    UnlinksOrKeeps E m dir dentry ↔ Unlinks m m' dir dentry := by
  obtain rfl := hodoUnlink_returns hexec
  constructor
  · rintro ⟨r', m₂, hexec', hright⟩
    obtain ⟨rfl, rfl⟩ := Prod.mk.inj (Outcome.done.inj (hexec.symm.trans hexec'))
    exact hright.resolve_right fun hneg => absurd hneg.1 (Int.lt_irrefl 0)
  · exact fun hunlinks => ⟨0, m', hexec, Or.inl hunlinks⟩

theorem not_unlinks_of_entry {m' : Machine Volume} {es : List Entry} {e : Entry} (he : e ∈ es)
    (hname : e.name.bytes = dentry.name)
    (hdirents : direntsOf (onDisk m'.disk) (m.inodes dir).iIno = es.map Entry.record) :
    ¬ Unlinks m m' dir dentry := by
  intro hunlinks
  have hgone := hunlinks.entry e.record (by
    rw [hdirents]
    exact List.mem_map_of_mem he)
  rw [show nameArg dentry.name = e.name.arg by rw [FileName.arg, hname],
    (hasName_record e e.name).mpr rfl] at hgone
  cases hgone

theorem not_unlinksOrKeeps_of_zone (h : Follows intact m a) (inv : TreeInv a T)
    (linked : Linked (onDisk m.disk) m.inodes dir dentry)
    (hzone : isZoneGroup dentry.parentName = true) : ¬ UnlinksOrKeeps E m dir dentry := by
  obtain ⟨hop, e, he, hname, _⟩ := entry_of_linked h inv linked
  obtain ⟨es, _, hes, hdirents⟩ := DirsHold.direntsOf inv.toDirsHold h (inv.dirAt hop).2
  have hexec : ∃ m', exec (machine volumeDisk E) (hodoUnlink dir dentry) m = .done (0, m') ∧
      m'.disk = m.disk := by
    simp only [hodoUnlink, hzone, if_true]
    exact ⟨_, rfl, rfl⟩
  obtain ⟨m', hexec, hdisk⟩ := hexec
  rw [unlinksOrKeeps_of_done hexec]
  refine not_unlinks_of_entry (List.mem_toFinset.mp (hes ▸ he)) hname ?_
  rw [hdisk, h.inodes]
  exact hdirents

/-- Outside the zone groups the two buffers decide. -/
theorem unlinksOrKeeps_of_buffers (h : Follows intact m a) (inv : TreeInv a T)
    (hfile : (a.inodes dentry.inode).iFop = some .file)
    (linked : Linked (onDisk m.disk) m.inodes dir dentry)
    (hzone : isZoneGroup dentry.parentName = false)
    (fits : Guarded (machine volumeDisk E) Fits (hodoUnlink dir dentry) m) :
    UnlinksOrKeeps E m dir dentry ↔
      E.heap (m.tick + 3) ≠ none ∧ E.heap (m.tick + 4) ≠ none := by
  obtain ⟨hop, e, he, hname, htarget⟩ := entry_of_linked h inv linked
  have harg : nameArg dentry.name = e.name.arg := by rw [FileName.arg, hname]
  have hempty : T e.iIno = ∅ := by
    rw [htarget]
    exact TreeInv.fileEmpty inv hfile
  have hne : dentry.inode ≠ dir := by
    rintro rfl
    rw [← htarget, hempty] at he
    exact absurd he (Finset.notMem_empty e)
  have hparent : (a.inodes dir).iIno ≠ e.iIno := by
    rw [htarget]
    exact TreeInv.apartFrom inv hop (Or.inr hfile) hne
  obtain ⟨c, hc, _⟩ := inv.target he
  obtain ⟨m₁, hexec₁, fits₁, htick, severed⟩ :=
    severed_of_unlink h inv hop htarget.symm hc hzone fits
  have hhold := inv.toDirsHold.without (inv.target he) hempty
  obtain ⟨b, ds, entries, hds⟩ := hhold.dirs (inodeAt_without.mpr ⟨hparent, inv.inDirs he⟩)
  have hmem : e ∈ ds.flatten := List.mem_toFinset.mp (hds ▸ he)
  rw [harg] at hexec₁ fits₁
  rw [← show m₁.tick + 1 = m.tick + 3 by rw [htick], ← show m₁.tick + 2 = m.tick + 4 by rw [htick]]
  cases heap : E.heap (m₁.tick + 1) with
  | none =>
    -- the entry stays, and the links are gone
    obtain ⟨m', hexec, hdisk⟩ := unlinkEntry_failed dir (severed.stores _ b entries.inode) heap
      e.name.arg
    rw [unlinksOrKeeps_of_done (hexec₁.trans hexec)]
    refine iff_of_false (not_unlinks_of_entry hmem hname ?_) fun hsome => hsome.1 rfl
    rw [hdisk, h.inodes]
    exact direntsOf_eq entries.blocks hhold.valid hhold.forest severed.ready.onDisk_zero
      fun hx => (severed.stores _ _ hx).onDisk
  | some buf =>
    cases heap' : E.heap (m₁.tick + 2) with
    | none =>
      refine iff_of_false ?_ fun hsome => hsome.2 rfl
      rintro ⟨r, m', hexec, _⟩
      rw [hexec₁,
        unlinkEntry_stuck severed hhold.valid hhold.forest entries hmem heap heap'] at hexec
      cases hexec
    | some fill =>
      obtain ⟨m', hexec, hentry, c', hc', hlinks⟩ :=
        unlinkEntry_runs severed hhold.valid hhold.forest
        entries hmem heap heap' fits₁
      rw [unlinksOrKeeps_of_done (hexec₁.trans hexec)]
      refine iff_of_true ⟨?_, fun b' hb' => ?_⟩ ⟨Option.some_ne_none buf, Option.some_ne_none fill⟩
      · rw [h.inodes, harg]
        exact hentry
      · rw [h.inodes, ← htarget, hc'.onDisk] at hb'
        rw [← Option.some.inj hb', hlinks]

/-- The parents named like zone groups are answered with success all the same. -/
theorem unlinksOrKeeps_iff (h : Follows intact m a) (inv : TreeInv a T)
    (called : Called (onDisk m.disk) m.inodes (.unlink dir dentry))
    (fits : Guarded (machine volumeDisk E) Fits (hodoUnlink dir dentry) m) :
    UnlinksOrKeeps E m dir dentry ↔ isZoneGroup dentry.parentName = false ∧
      E.heap (m.tick + 3) ≠ none ∧ E.heap (m.tick + 4) ≠ none := by
  obtain ⟨hfile, linked⟩ := called
  rw [h.inodes] at hfile
  by_cases hzone : isZoneGroup dentry.parentName = true
  · refine iff_of_false (not_unlinksOrKeeps_of_zone h inv linked hzone) ?_
    rintro ⟨hno, _⟩
    exact absurd (hzone.symm.trans hno) (by decide)
  · rw [and_iff_right (Bool.not_eq_true _ ▸ hzone)]
    exact unlinksOrKeeps_of_buffers h inv hfile linked (Bool.not_eq_true _ ▸ hzone) fits

end

/-- In every state reached from a first mount, whatever memory holds and whichever allocations
fail: a directory with entries is refused, a name that is there is found, and a deletion deletes,
exactly if the buffers of the walk, and for the deletion that of the new block, were there. -/
theorem answers_iff_buffers (clock : Nat → Timespec) (uid gid groups : Nat) (now : Timespec)
    (cs : List TreeCall)
    (calls : EachCall (notedStep clock) (Spared clock) cs (firstMounted uid gid groups now, true)) :
    ∃ as s, run (notedStep clock) cs (firstMounted uid gid groups now, true) = some (as, s) ∧
      ∀ E : Env,
        (∀ dir dentry, Called (onDisk s.1.disk) s.1.inodes (.rmdir dir dentry) →
          direntsOf (onDisk s.1.disk) (s.1.inodes dentry.inode).iIno ≠ [] →
          (RefusesFull E s.1 dir dentry ↔
            isZoneGroup dentry.name = false ∧ E.heap (s.1.tick + 1) ≠ none)) ∧
        (∀ dir name, Present (onDisk s.1.disk) s.1.inodes dir name →
          (¬ ReportsAbsent E s.1 dir name ↔ E.heap (s.1.tick + 2) ≠ none)) ∧
        ∀ dir dentry, Called (onDisk s.1.disk) s.1.inodes (.unlink dir dentry) →
          Guarded (machine volumeDisk E) Fits (hodoUnlink dir dentry) s.1 →
          (UnlinksOrKeeps E s.1 dir dentry ↔ isZoneGroup dentry.parentName = false ∧
            E.heap (s.1.tick + 3) ≠ none ∧ E.heap (s.1.tick + 4) ≠ none) := by
  obtain ⟨as, s, hrun, T, a, h, inv⟩ := tree_run uid gid groups now calls
  refine ⟨as, s, hrun, fun E => ⟨fun dir dentry called full => ?_, fun dir name present => ?_,
    fun dir dentry called fits => ?_⟩⟩
  · exact refusesFull_iff h inv called.1 full
  · exact reportsAbsent_iff h inv present
  · exact unlinksOrKeeps_iff h inv called fits

/-- A directory `d` with a file `a` in it. -/
def oneFile : List TreeCall := [.mkdirBody ⟨0, 0⟩ rootRef [100] 0o755, .create ⟨0, 0⟩ 1 [97] 0o644]

/-- The allocations that the operations cannot do without; the rest they can. -/
theorem oneFile_refused : ∃ as s,
    run (notedStep fun _ => ⟨0, 0⟩) oneFile (firstMounted 0 0 0 ⟨0, 0⟩, true) = some (as, s) ∧
    ¬ RefusesFull (outOfMemoryAt (s.1.tick + 1)) s.1 rootRef ⟨[100], [47], 1⟩ ∧
    RefusesFull (outOfMemoryAt (s.1.tick + 2)) s.1 rootRef ⟨[100], [47], 1⟩ ∧
    ReportsAbsent (outOfMemoryAt (s.1.tick + 2)) s.1 1 [97] ∧
    ¬ UnlinksOrKeeps (outOfMemoryAt (s.1.tick + 3)) s.1 1 ⟨[97], [100], 2⟩ := by
  obtain ⟨as, s, hrun, answers⟩ := answers_iff_buffers (fun _ => ⟨0, 0⟩) 0 0 0 ⟨0, 0⟩ oneFile
    (by decide +kernel)
  have hcalls : ∃ r, run (notedStep fun _ => ⟨0, 0⟩) oneFile
      (firstMounted 0 0 0 ⟨0, 0⟩, true) = some r ∧
      Called (onDisk r.2.1.disk) r.2.1.inodes (.rmdir rootRef ⟨[100], [47], 1⟩) ∧
      direntsOf (onDisk r.2.1.disk) (r.2.1.inodes 1).iIno ≠ [] ∧
      Called (onDisk r.2.1.disk) r.2.1.inodes (.unlink 1 ⟨[97], [100], 2⟩) ∧
      Guarded (machine volumeDisk (outOfMemoryAt (r.2.1.tick + 3))) Fits
        (hodoUnlink 1 ⟨[97], [100], 2⟩) r.2.1 := by
    decide +kernel
  obtain ⟨r, hrun', rmdir, full, unlink, fits⟩ := hcalls
  obtain rfl := Option.some.inj (hrun'.symm.trans hrun)
  refine ⟨as, s, hrun, fun refuses => ?_, ?_, ?_, fun unlinks => ?_⟩
  · exact (((answers _).1 _ _ rmdir full).mp refuses).2 (if_pos rfl)
  · refine ((answers _).1 _ _ rmdir full).mpr ⟨by decide, ?_⟩
    simp [outOfMemoryAt]
  · refine Classical.not_not.mp fun absent => ?_
    obtain ⟨_, hop, hname, d, hd, hhas, _⟩ := unlink
    exact ((answers _).2.1 _ _ ⟨hop, hname, d, hd, hhas⟩).mp absent (if_pos rfl)
  · exact (((answers _).2.2 _ _ unlink fits).mp unlinks).2.1 (if_pos rfl)

/-- Without the buffer of `check_directory_empty` the directory that holds `a` is removed. -/
theorem oneFile_removed : ∃ x,
    run (notedStep fun _ => ⟨0, 0⟩) oneFile (firstMounted 0 0 0 ⟨0, 0⟩, true) = some x ∧
    direntsOf (onDisk x.2.1.disk) (x.2.1.inodes 1).iIno ≠ [] ∧
    (∃ q, exec (machine volumeDisk (outOfMemoryAt (x.2.1.tick + 1)))
      (hodoRmdir rootRef ⟨[100], [47], 1⟩) x.2.1 = .done q ∧ q.1 = 0 ∧
      direntsOf (onDisk q.2.disk) (x.2.1.inodes rootRef).iIno = []) ∧
    ¬ RefusesFull (outOfMemoryAt (x.2.1.tick + 1)) x.2.1 rootRef ⟨[100], [47], 1⟩ := by
  have removed : ∃ x,
      run (notedStep fun _ => ⟨0, 0⟩) oneFile (firstMounted 0 0 0 ⟨0, 0⟩, true) = some x ∧
      direntsOf (onDisk x.2.1.disk) (x.2.1.inodes 1).iIno ≠ [] ∧
      ∃ q, exec (machine volumeDisk (outOfMemoryAt (x.2.1.tick + 1)))
        (hodoRmdir rootRef ⟨[100], [47], 1⟩) x.2.1 = .done q ∧ q.1 = 0 ∧
        direntsOf (onDisk q.2.disk) (x.2.1.inodes rootRef).iIno = [] := by
    decide +kernel
  obtain ⟨x, hrun, full, q, hexec, hzero, hgone⟩ := removed
  refine ⟨x, hrun, full, ⟨q, hexec, hzero, hgone⟩, ?_⟩
  rintro ⟨m', he, _⟩
  rw [he] at hexec
  rw [← Outcome.done.inj hexec] at hzero
  exact absurd (show eNotEmpty = 0 from hzero) (by decide)

end Shortage
