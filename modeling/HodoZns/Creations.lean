import HodoZns.Counters
import HodoZns.DirectoryRuns
import HodoZns.Spending

/-!
# Creation is all or nothing

A creation either fails and leaves everything alone, or its entry is there
afterwards. `hodo_create` and `hodo_mkdir` return 0 whether or not the directory
took the entry, so they do as this says exactly when the directory had room.
-/

namespace Creations

open ByteBlock Layout BlockLog ZoneLog NumberAllocator LogCalls LogStore Programs Kernel CallRuns
  StoreMachine
open VolumeMachine LogRoom FileBlocks Directories Operations DirectoryWrites FsRuns Ownership
  FileContents FileReads
open DirectoryBlocks DirectoryMaps DirectoryRuns Erasures Trees TreeCalls TreeRuns Counters Spending

/-- `hodo_mkdir` up to its call of `GC`, or `hodo_create`. -/
def creation (isDir : Bool) (cred : Cred) (dir : Nat) (name : List UInt8) (mode : Nat) :
    Program (Int × Nat) :=
  if isDir then hodoMkdirBody cred dir name mode else hodoCreate cred dir name mode

/-- `find_inode_number` on the directory finds the name with the number of the inode. -/
def FindsNew (clock : Nat → Timespec) (m : Machine Volume) (dir : Nat) (name : List UInt8)
    (ref : Nat) : Prop :=
  ∃ m',
    exec (machine volumeDisk (zeroFilled clock)) (findEntry (m.inodes dir).iIno (nameArg name)) m =
    .done ((m.inodes ref).iIno, m')

/-- The table, the directory as it is stored and its size in the VFS are the same. -/
structure Untouched (m m' : Machine Volume) (dir : Nat) : Prop where
  info : m'.disk.info = m.disk.info
  inode : onDisk m'.disk (m.inodes dir).iIno = onDisk m.disk (m.inodes dir).iIno
  blocks : ∀ i, storedBlock (onDisk m'.disk) (m.inodes dir).iIno i =
    storedBlock (onDisk m.disk) (m.inodes dir).iIno i
  size : (m'.inodes dir).iSize = (m.inodes dir).iSize

def AllOrNothing (clock : Nat → Timespec) (p : Program (Int × Nat)) (dir : Nat)
    (name : List UInt8) (m : Machine Volume) : Prop :=
  ∃ r m', exec (machine volumeDisk (zeroFilled clock)) p m = .done (r, m') ∧
    (r.1 = 0 ∧ FindsNew clock m' dir name r.2 ∨ r.1 < 0 ∧ Untouched m m' dir)

section Creation

variable {clock : Nat → Timespec} {intact isDir : Bool} {m : Machine Volume} {a : Machine Store}
  {T : Tree} {cred : Cred} {dir mode : Nat} {name : FileName}

/-- A lookup over the log answers from the entries of the tree. -/
theorem lookup_runs (clock : Nat → Timespec) (h : Follows intact m a) (inv : TreeInv a T)
    (hdir : (a.inodes dir).iOp = some .dir) (name : FileName) :
    ∃ es m', (es.map Entry.name).Nodup ∧ es.toFinset = T (a.inodes dir).iIno ∧
      exec (machine volumeDisk (zeroFilled clock)) (findEntry (a.inodes dir).iIno name.arg) m =
        .done (numberOf es name, m') := by
  obtain ⟨b, ds, entries, hds⟩ := inv.dirs (inv.dirAt hdir).2
  obtain ⟨r, m', _, hexec, _, rfl⟩ := program_follows h
    (guarded_of_only fits_of_passive (passive_findEntry _ name.arg) m)
    (wp_findEntry inv.valid inv.forest entries name)
  exact ⟨ds.flatten, m', entries.unique, hds, hexec⟩

theorem creation_runs (h : Follows intact m a) (inv : TreeInv a T)
    (hdir : (a.inodes dir).iOp = some .dir)
    (vacant : ∀ e ∈ T (a.inodes dir).iIno, e.name ≠ name)
    (fits : Guarded (machine volumeDisk (zeroFilled clock)) Fits
      (creation isDir cred dir name.bytes mode) m) :
    ∃ e m' a',
      exec (machine volumeDisk (zeroFilled clock)) (creation isDir cred dir name.bytes mode) m =
        .done ((0, a.inodeCount), m') ∧
      Follows intact m' a' ∧ Creates a T dir name isDir (if isDir then 0 else 1) e a' := by
  cases isDir with
  | false =>
    obtain ⟨r, m', a', hexec, h', rfl, e, created⟩ :=
      program_follows h fits (wp_hodoCreate_tree inv hdir vacant)
    exact ⟨e, m', a', hexec, h', created⟩
  | true =>
    obtain ⟨r, m', a', hexec, h', rfl, e, created⟩ :=
      program_follows h fits (wp_hodoMkdirBody_tree inv hdir vacant)
    exact ⟨e, m', a', hexec, h', created⟩

/-- The new entry is found exactly when the directory took it. -/
theorem findsNew_iff (clock : Nat → Timespec) {m' : Machine Volume} {a' : Machine Store}
    {grown : Int} {e : Entry}
    (inv : TreeInv a T) (hdir : (a.inodes dir).iOp = some .dir)
    (vacant : ∀ e ∈ T (a.inodes dir).iIno, e.name ≠ name) (h' : Follows intact m' a')
    (created : Creates a T dir name isDir grown e a') :
    FindsNew clock m' dir name.bytes a.inodeCount ↔ (T (a.inodes dir).iIno).card < 1020 := by
  have hne : dir ≠ a.inodeCount := Nat.ne_of_lt (callable_lt inv.vfs.toVfsInv (Or.inl hdir))
  have hinode := created.inodes dir hne
  rw [update_same] at hinode
  have hnumber : (a'.inodes dir).iIno = (a.inodes dir).iIno := by rw [hinode]
  have hdir' : (a'.inodes dir).iOp = some .dir := by
    rw [hinode]
    exact hdir
  obtain ⟨es, m'', unique, hes, hexec⟩ := lookup_runs clock h' created.inv hdir' name
  have hfinds : FindsNew clock m' dir name.bytes a.inodeCount ↔ numberOf es name = e.iIno := by
    rw [FindsNew, h'.inodes, created.number]
    constructor
    · rintro ⟨m₁, hexec'⟩
      exact (Prod.mk.inj (Outcome.done.inj (hexec.symm.trans hexec'))).1
    · rintro heq
      exact ⟨m'', by rw [← heq]; exact hexec⟩
  rw [hfinds]
  rw [hnumber] at hes
  constructor
  · intro hfound
    by_contra hfull
    rw [enter, if_neg hfull] at hes
    have habsent : numberOf es name = nothingFound := numberOf_of_absent fun e' he' =>
      vacant e' (hes ▸ List.mem_toFinset.mpr he')
    have hzero : e.iIno = 0 := hfound.symm.trans habsent
    exact Nat.ne_of_gt e.iIno_pos hzero
  · intro hroom
    have he : e ∈ es := by
      rw [← List.mem_toFinset, hes, enter, if_pos hroom, update_same]
      exact Finset.mem_insert_self e _
    rw [← created.name]
    exact numberOf_of_mem unique he

/-- The call returns 0 in any case, so all depends on whether the name is found. -/
theorem allOrNothing_iff (h : Follows intact m a) (inv : TreeInv a T) {name : List UInt8}
    (vacant : Vacant (onDisk m.disk) m.inodes dir name)
    (fits : Guarded (machine volumeDisk (zeroFilled clock)) Fits
      (creation isDir cred dir name mode) m) :
    AllOrNothing clock (creation isDir cred dir name mode) dir name m ↔
      entryCount m dir < 1020 := by
  obtain ⟨hdir, n, rfl, hvacant⟩ := vacant_of_called h inv vacant
  obtain ⟨e, m', a', hexec, h', created⟩ := creation_runs h inv hdir hvacant fits
  rw [(counts_eq h inv hdir).1, ← findsNew_iff clock inv hdir hvacant h' created]
  constructor
  · rintro ⟨r, m₁, hexec₁, outcome⟩
    obtain ⟨rfl, rfl⟩ := Prod.mk.inj (Outcome.done.inj (hexec.symm.trans hexec₁))
    rcases outcome with ⟨_, finds⟩ | ⟨hneg, _⟩
    · exact finds
    · exact absurd hneg (Int.lt_irrefl 0)
  · exact fun finds => ⟨_, m', hexec, Or.inl ⟨rfl, finds⟩⟩

end Creation

/-- In every state that a run reaches, a creation for which numbers and room do not run
out is all or nothing exactly when the directory has fewer than 1020 entries. -/
theorem creation_all_or_nothing_iff (clock : Nat → Timespec) (uid gid groups : Nat) (now : Timespec)
    (ds : List TreeCall)
    (reach : EachCall (notedStep clock) (Spared clock) ds (firstMounted uid gid groups now, true)) :
    ∃ as s, run (notedStep clock) ds (firstMounted uid gid groups now, true) = some (as, s) ∧
      ∀ (isDir : Bool) cred dir name mode, Vacant (onDisk s.1.disk) s.1.inodes dir name →
        Guarded (machine volumeDisk (zeroFilled clock)) Fits
          (creation isDir cred dir name mode) s.1 →
        (AllOrNothing clock (creation isDir cred dir name mode) dir name s.1 ↔
          entryCount s.1 dir < 1020) := by
  obtain ⟨as, s, hrun, T, a, h, inv⟩ := tree_run uid gid groups now reach
  exact ⟨as, s, hrun,
    fun isDir cred dir name mode vacant fits => allOrNothing_iff h inv vacant fits⟩

/-- A file in the directory `d` of the counters' example. -/
theorem creation_in_new_directory : ∃ as s,
    run (notedStep fun _ => ⟨0, 0⟩) userDirectory (firstMounted 0 0 0 ⟨0, 0⟩, true) = some (as, s) ∧
    AllOrNothing (fun _ => ⟨0, 0⟩) (creation false ⟨0, 0⟩ 1 [97] 0o644) 1 [97] s.1 := by
  obtain ⟨as, s, hrun, hiff⟩ := creation_all_or_nothing_iff (fun _ => ⟨0, 0⟩) 0 0 0 ⟨0, 0⟩
    userDirectory (by decide +kernel)
  have hcalls : ∃ r, run (notedStep fun _ => ⟨0, 0⟩) userDirectory
      (firstMounted 0 0 0 ⟨0, 0⟩, true) = some r ∧
      Vacant (onDisk r.2.1.disk) r.2.1.inodes 1 [97] ∧
      Guarded (machine volumeDisk (zeroFilled fun _ => ⟨0, 0⟩)) Fits
        (creation false ⟨0, 0⟩ 1 [97] 0o644) r.2.1 ∧ entryCount r.2.1 1 < 1020 := by
    decide +kernel
  obtain ⟨r, hrun', vacant, fits, hroom⟩ := hcalls
  obtain rfl := Option.some.inj (hrun'.symm.trans hrun)
  exact ⟨as, s, hrun, (hiff false ⟨0, 0⟩ 1 [97] 0o644 vacant fits).mpr hroom⟩

/-- Different names for the files that fill the root directory. -/
def fillName (i : Nat) : List UInt8 := [UInt8.ofNat (1 + i / 200), UInt8.ofNat (1 + i % 200)]

def fillCall (i : Nat) : TreeCall := .create ⟨0, 0⟩ rootRef (fillName i) 0o644

theorem fillName_inj {i j : Nat} (hi : i < 10000) (hj : j < 10000) (h : fillName i = fillName j) :
    i = j := by
  simp only [fillName, List.cons.injEq, and_true] at h
  obtain ⟨hdiv, hmod⟩ := h
  have hdiv' := congrArg UInt8.toNat hdiv
  have hmod' := congrArg UInt8.toNat hmod
  rw [UInt8.toNat_ofNat_of_lt' (by simp [UInt8.size]; omega),
    UInt8.toNat_ofNat_of_lt' (by simp [UInt8.size]; omega)] at hdiv' hmod'
  omega

theorem isFileName_fillName {i : Nat} (hi : i < 10000) : IsFileName (fillName i) := by
  have nonzero : ∀ n, 0 < n → n < 256 → UInt8.ofNat n ≠ 0 := by
    intro n hpos hlt hzero
    have hnat := congrArg UInt8.toNat hzero
    rw [UInt8.toNat_ofNat_of_lt' (by simp [UInt8.size]; omega), UInt8.toNat_zero] at hnat
    omega
  refine ⟨by simp [fillName], by simp [fillName], ?_⟩
  simp only [fillName, List.mem_cons, List.not_mem_nil, or_false, not_or]
  exact ⟨(nonzero _ (by omega) (by omega)).symm, (nonzero _ (by omega) (by omega)).symm⟩

/-- The root directory has the first `k` names, and there is log enough for the others. -/
structure Filled (k : Nat) (s : Machine Volume × Bool) (a : Machine Store) (T : Tree) : Prop where
  follows : Follows s.2 s.1 a
  inv : TreeInv a T
  root : (a.inodes rootRef).iOp = some .dir
  card : (T (a.inodes rootRef).iIno).card = k
  names : ∀ e ∈ T (a.inodes rootRef).iIno, ∃ i, i < k ∧ e.name.bytes = fillName i
  budget : Budget (4 * (1021 - k)) s.1.disk

section Filling

variable {s : Machine Volume × Bool} {a : Machine Store} {T : Tree} {k : Nat}

theorem Filled.vacant (filled : Filled k s a T) (hk : k ≤ 1020) :
    Vacant (onDisk s.1.disk) s.1.inodes rootRef (fillName k) := by
  have name := isFileName_fillName (i := k) (by omega)
  rw [filled.follows.inodes]
  refine ⟨filled.root, name, fun d hd => ?_⟩
  obtain ⟨es, _, hes, hdirents⟩ := DirsHold.direntsOf filled.inv.toDirsHold filled.follows
    (filled.inv.dirAt filled.root).2
  rw [hdirents] at hd
  obtain ⟨e, he, rfl⟩ := List.mem_map.mp hd
  obtain ⟨i, hi, hname⟩ := filled.names e (hes ▸ List.mem_toFinset.mpr he)
  rw [Bool.eq_false_iff]
  intro hhas
  have heq := (hasName_record e ⟨fillName k, name.1, name.2.1, name.2.2⟩).mp hhas
  have hik : i = k := fillName_inj (by omega) (by omega) (by rw [← hname, heq])
  omega

theorem Filled.guarded (clock : Nat → Timespec) (filled : Filled k s a T) (hk : k ≤ 1020) :
    Guarded (machine volumeDisk (zeroFilled clock)) Fits
      (creation false ⟨0, 0⟩ rootRef (fillName k) 0o644) s.1 ∧
    ∀ r m', exec (machine volumeDisk (zeroFilled clock))
      (creation false ⟨0, 0⟩ rootRef (fillName k) 0o644) s.1 = .done (r, m') →
        Budget (4 * (1021 - (k + 1))) m'.disk :=
  guarded_of_budget (spends_hodoCreate _ _ _ _) (filled.budget.mono (by omega))

theorem Filled.step (clock : Nat → Timespec) (filled : Filled k s a T) (hk : k < 1020) :
    Spared clock s (fillCall k) ∧ ∃ r s' a' T', notedStep clock s (fillCall k) = some (r, s') ∧
      Filled (k + 1) s' a' T' := by
  have vacant := filled.vacant (Nat.le_of_lt hk)
  obtain ⟨fits, budget⟩ := filled.guarded clock (Nat.le_of_lt hk)
  obtain ⟨hdir, n, hn, hvacant⟩ := vacant_of_called filled.follows filled.inv vacant
  refine ⟨⟨⟨vacant, fits, trivial⟩, fun n hn => nomatch hn⟩, ?_⟩
  rw [← hn] at fits
  obtain ⟨e, m', a', hexec, h', created⟩ :=
    creation_runs filled.follows filled.inv hdir hvacant fits
  rw [hn] at hexec
  have hstep : treeStep volumeDisk (zeroFilled clock) s.1 (fillCall k) =
      some ((0, a.inodeCount), m') := by
    rw [treeStep,
      show (fillCall k).program = creation false ⟨0, 0⟩ rootRef (fillName k) 0o644 from rfl,
      hexec]
  refine ⟨_, _, a', enter T (a.inodes rootRef).iIno e, notedStep_eq hstep, ?_⟩
  have hne : rootRef ≠ a.inodeCount :=
    Nat.ne_of_lt (callable_lt filled.inv.vfs.toVfsInv (Or.inl hdir))
  have hinode := created.inodes rootRef hne
  rw [update_same] at hinode
  have hfresh : e ∉ T (a.inodes rootRef).iIno := by
    intro he
    obtain ⟨b, hb, _⟩ := filled.inv.target he
    rw [created.fresh] at hb
    cases hb
  have henter : enter T (a.inodes rootRef).iIno e (a'.inodes rootRef).iIno =
      insert e (T (a.inodes rootRef).iIno) := by
    rw [hinode, enter, if_pos (filled.card ▸ hk), update_same]
  refine ⟨?_, created.inv, by rw [hinode]; exact hdir, ?_, fun e' he' => ?_, budget _ _ hexec⟩
  · change Follows (s.2 && true) m' a'
    rw [Bool.and_true]
    exact h'
  · rw [henter, Finset.card_insert_of_notMem hfresh, filled.card]
  · rw [henter] at he'
    rcases Finset.mem_insert.mp he' with rfl | hold
    · exact ⟨k, Nat.lt_succ_self k, by rw [created.name, hn]⟩
    · obtain ⟨i, hi, hname⟩ := filled.names e' hold
      exact ⟨i, Nat.lt_succ_of_lt hi, hname⟩

theorem Filled.run (clock : Nat → Timespec) {n : Nat} (filled : Filled k s a T)
    (hroom : k + n ≤ 1020) :
    EachCall (notedStep clock) (Spared clock) ((List.range' k n).map fillCall) s ∧
      ∃ as s' a' T',
        CallRuns.run (notedStep clock) ((List.range' k n).map fillCall) s = some (as, s') ∧
        Filled (k + n) s' a' T' := by
  induction n generalizing k s a T with
  | zero => exact ⟨trivial, [], s, a, T, rfl, filled⟩
  | succ n ih =>
    obtain ⟨spared, r, s₁, a₁, T₁, hstep, filled₁⟩ := filled.step clock (by omega)
    obtain ⟨calls, as, s', a', T', hrun, filled'⟩ := ih filled₁ (by omega)
    rw [List.range'_succ, List.map_cons]
    refine ⟨(eachCall_cons hstep).mpr ⟨spared, calls⟩, r :: as, s', a', T', ?_, ?_⟩
    · rw [run_cons hstep, hrun]
      rfl
    · rwa [Nat.add_right_comm, Nat.add_assoc] at filled'

theorem filled_mounted : ∃ a T, Filled 0 (firstMounted 0 0 0 ⟨0, 0⟩, true) a T := by
  obtain ⟨a, h, inv⟩ := treeState_mounted 0 0 0 ⟨0, 0⟩
  refine ⟨a, _, h, inv, h.inodes ▸ rfl, rfl, fun e he => absurd he (Finset.notMem_empty e), ?_⟩
  refine ⟨⟨1, holdsBlocks_firstMount zeros 0 0, by simp⟩, 1, by simp, fun i hi hset => ?_⟩
  exact ((represents_firstMount zeros 0 0).allocated_iff i hi).mp hset

end Filling

/-- The directory takes no entry any more, and `hodo_create` returns 0 all the same. -/
theorem creation_in_full_directory : ∃ as s,
    EachCall (notedStep fun _ => ⟨0, 0⟩) (Spared fun _ => ⟨0, 0⟩)
      ((List.range' 0 1020).map fillCall)
      (firstMounted 0 0 0 ⟨0, 0⟩, true) ∧
    run (notedStep fun _ => ⟨0, 0⟩) ((List.range' 0 1020).map fillCall)
      (firstMounted 0 0 0 ⟨0, 0⟩, true) = some (as, s) ∧
    Vacant (onDisk s.1.disk) s.1.inodes rootRef (fillName 1020) ∧
    Guarded (machine volumeDisk (zeroFilled fun _ => ⟨0, 0⟩)) Fits
      (creation false ⟨0, 0⟩ rootRef (fillName 1020) 0o644) s.1 ∧
    ¬ AllOrNothing (fun _ => ⟨0, 0⟩) (creation false ⟨0, 0⟩ rootRef (fillName 1020) 0o644) rootRef
      (fillName 1020) s.1 := by
  obtain ⟨a, T, filled⟩ := filled_mounted
  obtain ⟨calls, as, s, a', T', hrun, filled'⟩ :=
    filled.run (fun _ => ⟨0, 0⟩) (n := 1020) (Nat.le_refl _)
  have vacant := filled'.vacant (Nat.le_refl _)
  have fits := (filled'.guarded (fun _ => ⟨0, 0⟩) (Nat.le_refl _)).1
  refine ⟨as, s, calls, hrun, vacant, fits, ?_⟩
  rw [allOrNothing_iff filled'.follows filled'.inv vacant fits,
    (counts_eq filled'.follows filled'.inv filled'.root).1, filled'.card]
  exact Nat.lt_irrefl 1020

end Creations
