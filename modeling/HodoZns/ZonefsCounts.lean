import HodoZns.ZonefsMounts
import Mathlib.Algebra.BigOperators.Fin

/-!
# What zonefs counts

From a mount on, in whatever order the sections of the calls come and whatever the
device answers, the super block counts the zones that are marked active, and the
files that are open for writing together with the closes that have failed.
-/

namespace ZonefsCounts

open CallRuns Families ZonefsZones ZonefsFiles ZonefsOptions ZonefsRuns ZonefsSteps ZonefsMounts
  ZonedDevices

section

variable {δ : Type} {D : BlockDevice δ} {s s' : FileState δ}

/-- A zone is marked only if it is active. -/
def Sound (z : ZonefsZone) : Prop := z.zoneActive = true → IsActive z

/-- A zone is marked if and only if it is active. -/
def Marked (z : ZonefsZone) : Prop := z.zoneActive = decide (IsActive z)

theorem Marked.sound {z : ZonefsZone} (h : Marked z) : Sound z := by
  intro hactive
  exact of_decide_eq_true (h.symm.trans hactive)

/-- The zone and its mark are as active as they were, or the zone has been looked at again. -/
def Recounted (z z' : ZonefsZone) : Prop :=
  z'.zoneActive = z.zoneActive ∧ (IsActive z' ↔ IsActive z) ∨ (Sound z → Marked z')

theorem Recounted.refl (z : ZonefsZone) : Recounted z z := .inl ⟨rfl, Iff.rfl⟩

theorem Recounted.marked {z z' : ZonefsZone} (h : Recounted z z') (marked : Marked z) :
    Marked z' := by
  rcases h with ⟨hactive, hiff⟩ | again
  · rw [Marked, hactive, marked, decide_eq_decide]
    exact hiff.symm
  · exact again marked.sound

theorem Recounted.sound {z z' : ZonefsZone} (h : Recounted z z') (sound : Sound z) : Sound z' := by
  rcases h with ⟨hactive, hiff⟩ | again
  · intro h'
    exact hiff.mpr (sound (hactive.symm.trans h'))
  · exact (again sound).sound

theorem Recounted.trans {z z' z'' : ZonefsZone} (h : Recounted z z') (h' : Recounted z' z'') :
    Recounted z z'' := by
  rcases h' with ⟨hactive', hiff'⟩ | again'
  · rcases h with ⟨hactive, hiff⟩ | again
    · exact .inl ⟨hactive'.trans hactive, hiff'.trans hiff⟩
    · exact .inr fun sound =>
        (show Recounted z' z'' from .inl ⟨hactive', hiff'⟩).marked (again sound)
  · exact .inr fun sound => again' (h.sound sound)

/-- The zone is of the same kind, and no mark is added. -/
structure Dimmed (z z' : ZonefsZone) : Prop where
  cnv : z'.zoneCnv = z.zoneCnv
  active : z'.zoneActive = true → z.zoneActive = true

theorem Dimmed.refl (z : ZonefsZone) : Dimmed z z := ⟨rfl, id⟩

theorem Dimmed.trans {z z' z'' : ZonefsZone} (h : Dimmed z z') (h' : Dimmed z' z'') :
    Dimmed z z'' :=
  ⟨h'.cnv.trans h.cnv, h.active ∘ h'.active⟩

theorem marked_accountActive (h : s.z.zoneCnv = true → s.z.zoneActive = false) :
    Marked (zonefsInodeAccountActive s).z := by
  rw [zonefsInodeAccountActive]
  by_cases hcnv : s.z.zoneCnv = true
  · have inactive : ¬ IsActive s.z := by
      rintro ⟨hseq, _⟩
      rw [hcnv] at hseq
      cases hseq
    rw [zonefsAccountActive_cnv s.sbi hcnv, Marked, decide_eq_false inactive]
    exact h hcnv
  · rw [zonefsAccountActive_eq s.sbi (Bool.eq_false_iff.mpr hcnv)]
    rfl

theorem Dimmed.account (dimmed : Dimmed s.z s'.z) :
    Recounted s.z (zonefsInodeAccountActive s').z := by
  refine .inr fun sound => marked_accountActive fun hcnv => ?_
  by_contra hactive
  have hseq := (sound (dimmed.active (Bool.not_eq_false _ ▸ hactive))).1
  rw [← dimmed.cnv, hcnv] at hseq
  cases hseq

theorem dimmed_updateStats (isize : Int) (s : FileState δ) :
    Dimmed s.z (zonefsUpdateStats isize s).z := by
  rw [zonefsUpdateStats]
  split
  · exact .refl _
  · exact .refl _

theorem dimmed_iSizeWrite (isize : Int) (s : FileState δ) :
    Dimmed s.z (zonefsISizeWrite isize s).z := by
  rw [zonefsISizeWrite]
  simp only
  split
  · exact ⟨rfl, fun hactive => absurd hactive Bool.false_ne_true⟩
  · exact .refl _

theorem dimmed_checkCondition (z : ZonefsZone) (zone : BlkZone) :
    Dimmed z (zonefsCheckZoneCondition z zone).2 := by
  rw [zonefsCheckZoneCondition]
  split <;> exact ⟨rfl, id⟩

theorem dimmed_errorPolicy (dataSize : Int) (s : FileState δ) :
    Dimmed s.z (errorPolicy dataSize s).2.z := by
  rw [errorPolicy]
  split
  · exact ⟨rfl, id⟩
  split
  · exact ⟨rfl, id⟩
  split
  · exact .refl _
  · exact .refl _

theorem Dimmed.setDataSize (dimmed : Dimmed s.z s'.z) (dataSize : Int) :
    Recounted s.z (setDataSize dataSize s').z := by
  apply Dimmed.account
  refine dimmed.trans ((dimmed_updateStats dataSize s').trans ?_)
  have written := dimmed_iSizeWrite dataSize (zonefsUpdateStats dataSize s')
  exact ⟨written.cnv, written.active⟩

/-- A report of a zone that is not bad changes no flag. -/
theorem checkCondition_eq (z : ZonefsZone) (zone : BlkZone)
    (h : (zonefsCheckZoneCondition z zone).2.isBad = false) :
    (zonefsCheckZoneCondition z zone).2 = z := by
  rw [zonefsCheckZoneCondition] at h ⊢
  split at h
  · simp [ZonefsZone.isBad] at h
  · simp [ZonefsZone.isBad] at h
  · rfl
  · rfl

theorem recounted_handleIoError (zone : BlkZone) (write : Bool) (s : FileState δ) :
    Recounted s.z (zonefsHandleIoError zone write s).z := by
  rw [zonefsHandleIoError]
  simp only
  split
  · rename_i hquiet
    rw [Bool.and_eq_true, Bool.and_eq_true, Bool.not_eq_true'] at hquiet
    simp only [checkCondition_eq _ _ hquiet.1.1]
    exact .refl _
  · apply Dimmed.setDataSize
    have policy := dimmed_errorPolicy (zonefsCheckZoneCondition s.z zone).1
      { s with z := (zonefsCheckZoneCondition s.z zone).2 }
    exact ((dimmed_checkCondition s.z zone).trans policy).trans ⟨rfl, id⟩

theorem recounted_ioError (write : Bool) (s : FileState δ) :
    Recounted s.z (zonefsIoError D write s).z := by
  rw [zonefsIoError]
  split
  · exact recounted_handleIoError _ write s
  split
  · exact .refl _
  · exact recounted_handleIoError _ write _

theorem recounted_advanceWp (count : Int) (s : FileState δ) :
    Recounted s.z (advanceWp count s).z :=
  Dimmed.account ⟨rfl, id⟩

theorem recounted_truncate (isize : Int) (s : FileState δ) :
    Recounted s.z (zonefsFileTruncate D isize s).2.z := by
  rw [zonefsFileTruncate]
  split
  · exact .refl _
  cases truncateOp s.z isize with
  | none => exact .refl _
  | some op =>
    simp only
    split
    · exact .refl _
    split
    · exact .refl _
    · apply Dimmed.account
      have opened : Dimmed s.z (truncateOpenZone D isize (zonefsInodeZoneMgmt D op s).2).2.z := by
        rw [truncateOpenZone]
        split
        · split
          · exact ⟨rfl, id⟩
          · exact ⟨rfl, id⟩
        · exact ⟨rfl, id⟩
      have stats := opened.trans (dimmed_updateStats isize _)
      exact ⟨stats.cnv, stats.active⟩

theorem recounted_writeOpen (s : FileState δ) :
    Recounted s.z (zonefsSeqFileWriteOpen D s).2.z := by
  have opened : Recounted s.z (firstWriter D s).2.z := by
    rw [firstWriter]
    split
    · split
      · exact .refl _
      · rw [openZone]
        split
        · simp only
          split
          · exact .refl _
          · exact Dimmed.account ⟨rfl, id⟩
        · exact .refl _
    · exact .refl _
  rw [zonefsSeqFileWriteOpen]
  by_cases hzero : s.inode.iWrRefcnt = 0
  · rw [if_pos hzero]
    simp only
    split
    · exact opened
    · exact opened
  · rw [if_neg hzero]
    exact .refl _

theorem recounted_writeClose (s : FileState δ) : Recounted s.z (zonefsSeqFileWriteClose D s).z := by
  rw [zonefsSeqFileWriteClose]
  split
  · rw [lastWriter]
    split
    · simp only
      split
      · exact recounted_ioError false _
      · exact Dimmed.account ⟨rfl, id⟩
    · exact .refl _
  · exact .refl _

/-- All sections but the end of a request, which changes the file size alone. -/
theorem recounted_section {x : Section δ} (hend : ∀ iocb size error, x ≠ .endIo iocb size error)
    (s : FileState δ) : Recounted s.z (x.run D s).z := by
  cases x with
  | advance pos count =>
    change Recounted s.z (advanceAt pos count s).z
    rw [advanceAt]
    split
    · exact .refl _
    · exact recounted_advanceWp count s
  | dioWrite offset data => exact .refl _
  | endIo iocb size error => exact absurd rfl (hend iocb size error)
  | dioRead offset count => exact .refl _
  | request r => exact .refl _
  | ioError write => exact recounted_ioError write s
  | truncate isize => exact recounted_truncate isize s
  | writeOpen => exact recounted_writeOpen s
  | writeClose => exact recounted_writeClose s
  | attributes mode uid gid => exact .inl ⟨rfl, Iff.rfl⟩
  | device dev => exact .refl _

theorem sound_endIo (iocb : ZoneKiocb) (size error : Int) (h : Sound s.z) :
    Sound (zonefsFileWriteDioEndIo D iocb size error s).2.z := by
  rw [zonefsFileWriteDioEndIo]
  split
  · simp only
    split
    · exact h
    · exact (recounted_ioError true s).sound h
  split
  · have stats : Sound (zonefsUpdateStats (iocb.kiPos + size) s).z := by
      rw [zonefsUpdateStats]
      split
      · exact h
      · exact h
    simp only [zonefsISizeWrite]
    split
    · exact fun hactive => absurd hactive Bool.false_ne_true
    · exact stats
  · exact h

theorem sound_section (x : Section δ) (h : Sound s.z) : Sound (x.run D s).z := by
  by_cases hend : ∀ iocb size error, x ≠ .endIo iocb size error
  · exact (recounted_section hend s).sound h
  · push Not at hend
    obtain ⟨iocb, size, error, rfl⟩ := hend
    exact sound_endIo iocb size error h

end

section

variable {δ : Type} {D : BlockDevice δ} {F : Format}

/-- What a mount leaves; no inode of a zone file is in the cache. -/
def mountedFs (g : Zgroups) (s : Setup δ) : Fs (Fin g.zones.length) δ where
  shared := ⟨s.sbi, s.dev⟩
  member i := ⟨g.zones[i], none⟩

/-- The super block before the first zone is added to it. -/
structure Blank (maxOpen maxActive blocksizeBits : Nat) (sbi : SbInfo) : Prop where
  blocks : sbi.sBlocks = 0
  usedBlocks : sbi.sUsedBlocks = 0
  maxWro : sbi.maxWroSeqFiles = maxOpen
  wro : sbi.wroSeqFiles = 0
  maxActive : sbi.maxActiveSeqFiles = maxActive
  active : sbi.activeSeqFiles = 0
  blocksizeBits : sbi.blocksizeBits = blocksizeBits
  policy : ∃ policy, InForce sbi policy

theorem blank_parsed (maxOpen maxActive blocksizeBits : Nat) (rdonly : Bool)
    (data : Option (List UInt8)) :
    Blank maxOpen maxActive blocksizeBits
      (zonefsParseOptions data
        { newSuper maxOpen maxActive blocksizeBits with rdonly := rdonly }).2 := by
  have start : InForce { newSuper maxOpen maxActive blocksizeBits with rdonly := rdonly }
      .remountRo := ⟨rfl, rfl, rfl, rfl⟩
  have parsed := reparsed data { newSuper maxOpen maxActive blocksizeBits with rdonly := rdonly }
  exact
    { blocks := congrArg SbInfo.sBlocks parsed.frame
      usedBlocks := congrArg SbInfo.sUsedBlocks parsed.frame
      maxWro := congrArg SbInfo.maxWroSeqFiles parsed.frame
      wro := congrArg SbInfo.wroSeqFiles parsed.frame
      maxActive := congrArg SbInfo.maxActiveSeqFiles parsed.frame
      active := congrArg SbInfo.activeSeqFiles parsed.frame
      blocksizeBits := congrArg SbInfo.blocksizeBits parsed.frame
      policy := parsed.policy _ start }

theorem Blank.ignoreExplicitOpen {maxOpen maxActive blocksizeBits : Nat} {sbi : SbInfo}
    (h : Blank maxOpen maxActive blocksizeBits sbi) :
    Blank maxOpen maxActive blocksizeBits (ignoreExplicitOpen sbi) := by
  rw [ZonefsMounts.ignoreExplicitOpen]
  split
  · obtain ⟨policy, force⟩ := h.policy
    exact { h with policy := ⟨policy, force.ro, force.zro, force.zol, force.repair⟩ }
  · exact h

/-- What every mount comes to. -/
theorem fill_super_ok {maxOpen maxActive blocksizeBits : Nat} {rdonly : Bool}
    {data : Option (List UInt8)} {nrZones : Nat} {reported : Except Int (List BlkZone)}
    {dev : δ} {g : Zgroups} {s : Setup δ}
    (h : zonefsFillSuper D F maxOpen maxActive blocksizeBits rdonly data nrZones reported dev =
      .ok (g, s)) :
    (∀ z ∈ g.zones, Fresh z) ∧
      ∃ sbi, Blank maxOpen maxActive blocksizeBits sbi ∧ s.sbi = g.zones.foldl addZone sbi := by
  have parsed := blank_parsed maxOpen maxActive blocksizeBits rdonly data
  rw [zonefsFillSuper] at h
  simp only at h
  split at h
  · cases h
  · obtain ⟨fresh, super⟩ := zonefsInitZgroups_ok h
    exact ⟨fresh, _, parsed.ignoreExplicitOpen, super⟩

theorem foldl_addZone (zs : List ZonefsZone) (sbi : SbInfo) :
    zs.foldl addZone sbi =
      { sbi with
        sBlocks := sbi.sBlocks + (zs.map fun z => z.zCapacity / 2 ^ sbi.blocksizeBits).sum
        sUsedBlocks :=
          sbi.sUsedBlocks + (zs.map fun z => z.zWpoffset / 2 ^ sbi.blocksizeBits).sum
        activeSeqFiles := sbi.activeSeqFiles + (zs.map activity).sum } := by
  induction zs generalizing sbi with
  | nil => simp
  | cons z zs ih =>
    rw [List.foldl_cons, ih]
    simp [addZone, addBlocks, add_assoc]

/-- A sum over the zones as a total of the members. -/
theorem total_mountedFs (measure : ZonefsZone → Int) (g : Zgroups) (s : Setup δ) :
    (mountedFs g s).total (fun m => measure m.z) = (g.zones.map measure).sum :=
  Fin.sum_univ_fun_getElem g.zones measure

/-- 1 for a file whose zone is marked active. -/
def fileActivity (m : ZoneFile) : Int := activity m.z

def ActiveCounted {ι : Type} [Fintype ι] (s : Fs ι δ) : Prop :=
  s.Counted (fun shared => shared.sbi.activeSeqFiles) fileActivity 0 ∧
    s.Everywhere fun _ m => Sound m.z

variable {ι : Type} [Fintype ι]

theorem Counted.shared {s : Fs ι δ} {count : Shared δ → Int} {measure : ZoneFile → Int}
    {extra : Int} (h : s.Counted count measure extra) {shared : Shared δ}
    (same : count shared = count s.shared) :
    Family.Counted count measure extra { s with shared := shared } :=
  same.trans h

variable [DecidableEq ι]

theorem activeCounted_kept (s : Fs ι δ) (failed : Bool) (s' : Fs ι δ) (inv : ActiveCounted s)
    (h : Moved D s failed s') : ActiveCounted s' := by
  obtain ⟨counted, sound⟩ := inv
  cases h with
  | «section» i f x hat possible =>
    have balanced : Families.Balanced (fun shared => shared.sbi.activeSeqFiles) fileActivity
        (s.shared, s.member i) (parts (x.run D f)) := by
      rw [← parts_of_at? hat]
      exact (kept_section x f).balanced
    have here := sound i
    rw [member_of_at? hat] at here
    exact ⟨counted.set i balanced, sound.set i (sound_section x here) fun _ h => h⟩
  | other s' h =>
    cases h with
    | lookup i hnone => exact ⟨counted.set i rfl, sound.set i (sound i) fun _ h => h⟩
    | evict i inode hinode unused => exact ⟨counted.set i rfl, sound.set i (sound i) fun _ h => h⟩
    | remount sbi' remounted =>
      have same := congrArg SbInfo.activeSeqFiles remounted.frame
      exact ⟨Counted.shared counted same, sound⟩
    | nothing => exact ⟨counted, sound⟩

theorem activeCounted_mounted {maxOpen maxActive blocksizeBits : Nat} {rdonly : Bool}
    {data : Option (List UInt8)} {nrZones : Nat} {reported : Except Int (List BlkZone)}
    {dev : δ} {g : Zgroups} {s : Setup δ}
    (h : zonefsFillSuper D F maxOpen maxActive blocksizeBits rdonly data nrZones reported dev =
      .ok (g, s)) : ActiveCounted (mountedFs g s) := by
  obtain ⟨fresh, sbi, blank, super⟩ := fill_super_ok h
  constructor
  · have total : (mountedFs g s).total fileActivity = (g.zones.map activity).sum :=
      total_mountedFs activity g s
    rw [Family.Counted, total]
    change s.sbi.activeSeqFiles = _
    rw [super, foldl_addZone, blank.active, zero_add, add_zero]
  · intro i hactive
    have hz := fresh g.zones[i] (List.getElem_mem i.isLt)
    exact of_decide_eq_true (hz.active ▸ hactive)

/-- After a mount, whatever is done in whatever order and whatever the device answers, the super
block counts the zones that are marked active, and only active zones are marked. -/
theorem active_files_counted {maxOpen maxActive blocksizeBits : Nat} {rdonly : Bool}
    {data : Option (List UInt8)} {nrZones : Nat} {reported : Except Int (List BlkZone)}
    {dev : δ} {g : Zgroups} {s : Setup δ}
    (h : zonefsFillSuper D F maxOpen maxActive blocksizeBits rdonly data nrZones reported dev =
      .ok (g, s))
    {ms : List (Move (Fin g.zones.length) δ)} {failed : List Bool} {s' : Fs _ δ}
    (hrun : run (moveStep D) ms (mountedFs g s) = some (failed, s')) :
    s'.shared.sbi.activeSeqFiles =
        (Finset.univ.filter fun i => (s'.member i).z.zoneActive).card ∧
      ∀ i, (s'.member i).z.zoneActive = true → IsActive (s'.member i).z := by
  obtain ⟨counted, sound⟩ := run_keeps ActiveCounted
    (fun s _ b s' inv hstep => activeCounted_kept s b s' inv (moved hstep))
      (activeCounted_mounted h)
    hrun
  constructor
  · rw [← Family.total_mark (fun m : ZoneFile => m.z.zoneActive) s']
    exact counted.trans (add_zero _)
  · exact sound

/-- The file of the sequential zone. -/
def seqFile : Fin mixedGroups.zones.length := ⟨1, by decide⟩

/-- A writer opens the file and moves the write pointer. -/
def oneWriter : List (Move (Fin mixedGroups.zones.length) Drive) :=
  [.lookup seqFile, .section seqFile .writeOpen, .section seqFile (.advance 0 512)]

theorem oneWriter_active : ∃ failed s',
    run (moveStep mixedDrive) oneWriter (mountedFs mixedGroups mixedSetup) = some (failed, s') ∧
      s'.shared.sbi.activeSeqFiles =
        (Finset.univ.filter fun i => (s'.member i).z.zoneActive).card ∧
      ∀ i, (s'.member i).z.zoneActive = true → IsActive (s'.member i).z := by
  have hrun := run_ends (moveStep mixedDrive) oneWriter
    (mountedFs mixedGroups mixedSetup) (by decide +kernel)
  exact ⟨_, _, hrun, active_files_counted mixed_mounted hrun⟩

/-- 1 for a file that is open for writing. -/
def fileWriting (m : ZoneFile) : Int := (m.inode.map writing).getD 0

def isWriting (m : ZoneFile) : Bool := m.inode.any fun inode => 0 < inode.iWrRefcnt

theorem fileWriting_eq (m : ZoneFile) : fileWriting m = if isWriting m then 1 else 0 := by
  rw [fileWriting, isWriting]
  cases m.inode with
  | none => rfl
  | some inode => simp [writing]

/-- An open zone has its writer. -/
def Held (m : ZoneFile) : Prop := m.z.zoneOpen = true → isWriting m = true

/-- `failed` says of the moves so far which were closes that failed. -/
def WritersCounted (failed : List Bool) (s : Fs ι δ) : Prop :=
  s.Counted (fun shared => shared.sbi.wroSeqFiles) fileWriting (failed.count true : Nat) ∧
    (true ∉ failed → s.Everywhere fun _ m => Held m)

theorem count_append_singleton (failed : List Bool) (b : Bool) :
    ((failed ++ [b]).count true : Int) = failed.count true + if b then 1 else 0 := by
  cases b with
  | true => simp
  | false => simp

theorem WritersCounted.quiet {failed : List Bool} {s : Fs ι δ} (h : WritersCounted failed s) (i : ι)
    {m : ZoneFile} (same : fileWriting m = fileWriting (s.member i))
    (held : Held (s.member i) → Held m) :
    WritersCounted (failed ++ [false]) (s.set i (s.shared, m)) := by
  have hcount := count_append_singleton failed false
  rw [if_neg (by decide), add_zero] at hcount
  rw [WritersCounted, hcount]
  constructor
  · refine h.1.set i ?_
    rw [Families.Balanced, same]
  · intro hnone
    have before := h.2 fun hmem => hnone (List.mem_append_left _ hmem)
    exact before.set i (held (before i)) fun _ h => h

theorem writersCounted_kept (failed : List Bool) (s : Fs ι δ) (b : Bool) (s' : Fs ι δ)
    (inv : WritersCounted failed s) (h : Moved D s b s') : WritersCounted (failed ++ [b]) s' := by
  cases h with
  | «section» i f x hat possible =>
    have writers := writers_section (D := D) possible
    have hmember := member_of_at? hat
    obtain ⟨counted, held⟩ := inv
    rw [WritersCounted, count_append_singleton]
    constructor
    · refine counted.set_extra i ?_
      rw [shared_of_at? hat, hmember]
      exact writers.ahead
    · intro hnone
      have before := held fun hmem => hnone (List.mem_append_left _ hmem)
      have hsucceeds : x.closeFails D f = false := by
        rw [← Bool.not_eq_true]
        intro hfails
        exact hnone (List.mem_append_right _ (hfails ▸ List.mem_singleton_self _))
      rw [hsucceeds] at writers
      have here := before i
      rw [hmember] at here
      refine before.set i ?_ fun _ h => h
      intro isOpen
      have := writers.held rfl (fun h => of_decide_eq_true (here h)) isOpen
      exact decide_eq_true this
  | other s' h =>
    cases h with
    | lookup i hnone =>
      refine inv.quiet i ?_ ?_
      · rw [fileWriting, fileWriting, hnone]
        simp [writing, (getFileInode_new _).2]
      · intro held isOpen
        have := held isOpen
        rw [isWriting, hnone] at this
        cases this
    | evict i inode hinode unused =>
      refine inv.quiet i ?_ ?_
      · rw [fileWriting, fileWriting, hinode]
        simp [writing, unused]
      · intro held isOpen
        have := held isOpen
        rw [isWriting, hinode] at this
        simp [unused] at this
    | remount sbi' remounted =>
      have same := congrArg SbInfo.wroSeqFiles remounted.frame
      rw [WritersCounted, count_append_singleton, if_neg (by decide), add_zero]
      constructor
      · exact Counted.shared inv.1 same
      · intro hnone
        exact inv.2 fun hmem => hnone (List.mem_append_left _ hmem)
    | nothing =>
      rw [WritersCounted, count_append_singleton, if_neg (by decide), add_zero]
      constructor
      · exact inv.1
      · intro hnone
        exact inv.2 fun hmem => hnone (List.mem_append_left _ hmem)

/-- With explicit open the files that are open for writing fit into the limit of the device. -/
structure Limited (maxOpen : Nat) (sbi : SbInfo) : Prop where
  explicitOpen : sbi.explicitOpen = true
  maxWro : sbi.maxWroSeqFiles = maxOpen
  bounded : maxOpen ≠ 0 → sbi.wroSeqFiles ≤ maxOpen

omit [Fintype ι] in
theorem limited_kept {maxOpen : Nat} (s : Fs ι δ) (failed : Bool) (s' : Fs ι δ)
    (inv : Limited maxOpen s.shared.sbi) (h : Moved D s failed s') :
    Limited maxOpen s'.shared.sbi := by
  cases h with
  | «section» i f x hat possible =>
    have kept := (kept_section (D := D) x f).super
    have writers := writers_section (D := D) possible
    rw [shared_of_at? hat] at inv
    constructor
    · exact kept.explicitOpen.trans inv.explicitOpen
    · exact kept.maxWro.trans inv.maxWro
    · intro hmax
      rcases writers.bounded with hle | hle
      · exact hle.trans (inv.bounded hmax)
      · have := hle inv.explicitOpen (inv.maxWro ▸ hmax)
        rwa [inv.maxWro] at this
  | other s' h =>
    cases h with
    | lookup i hnone => exact inv
    | evict i inode hinode unused => exact inv
    | remount sbi' remounted =>
      have hwro := congrArg SbInfo.wroSeqFiles remounted.frame
      have hmax := congrArg SbInfo.maxWroSeqFiles remounted.frame
      constructor
      · exact remounted.explicitOpen inv.explicitOpen
      · exact hmax.trans inv.maxWro
      · intro h
        exact (le_of_eq hwro).trans (inv.bounded h)
    | nothing => exact inv

theorem writersCounted_mounted {maxOpen maxActive blocksizeBits : Nat} {rdonly : Bool}
    {data : Option (List UInt8)} {nrZones : Nat} {reported : Except Int (List BlkZone)}
    {dev : δ} {g : Zgroups} {s : Setup δ}
    (h : zonefsFillSuper D F maxOpen maxActive blocksizeBits rdonly data nrZones reported dev =
      .ok (g, s)) : WritersCounted [] (mountedFs g s) := by
  obtain ⟨fresh, sbi, blank, super⟩ := fill_super_ok h
  constructor
  · have hwro : s.sbi.wroSeqFiles = 0 := by
      rw [super, foldl_addZone]
      exact blank.wro
    have total : (mountedFs g s).total fileWriting = 0 := Finset.sum_const_zero
    rw [Family.Counted, total]
    exact hwro
  · intro _ i isOpen
    have hz := fresh g.zones[i] (List.getElem_mem i.isLt)
    rw [show ((mountedFs g s).member i).z = g.zones[i] from rfl, hz.notOpen] at isOpen
    cases isOpen

/-- After a mount, whatever is done in whatever order and whatever the device answers, the super
block counts the files that are open for writing and the closes that have failed. If the mount is
with explicit open, they never exceed the limit of the device; and as long as no close has failed,
no zone is left open without a writer. -/
theorem writers_counted {maxOpen maxActive blocksizeBits : Nat} {rdonly : Bool}
    {data : Option (List UInt8)} {nrZones : Nat} {reported : Except Int (List BlkZone)}
    {dev : δ} {g : Zgroups} {s : Setup δ}
    (h : zonefsFillSuper D F maxOpen maxActive blocksizeBits rdonly data nrZones reported dev =
      .ok (g, s))
    {ms : List (Move (Fin g.zones.length) δ)} {failed : List Bool} {s' : Fs _ δ}
    (hrun : run (moveStep D) ms (mountedFs g s) = some (failed, s')) :
    s'.shared.sbi.wroSeqFiles =
        (Finset.univ.filter fun i => isWriting (s'.member i)).card + failed.count true ∧
      (s.sbi.explicitOpen = true → maxOpen ≠ 0 → s'.shared.sbi.wroSeqFiles ≤ maxOpen) ∧
      (true ∉ failed → ∀ i, (s'.member i).z.zoneOpen = true → isWriting (s'.member i) = true) := by
  have start := writersCounted_mounted h
  obtain ⟨counted, held⟩ := run_answers WritersCounted
    (fun failed s _ b s' inv hstep =>
      writersCounted_kept failed s b s' inv (moved hstep)) start hrun
  refine ⟨?_, ?_, held⟩
  · rw [← Family.total_mark isWriting s', ← funext fileWriting_eq]
    exact counted
  · intro hopen hmax
    obtain ⟨_, sbi, blank, super⟩ := fill_super_ok h
    have limited : Limited maxOpen (mountedFs g s).shared.sbi := by
      constructor
      · exact hopen
      · change s.sbi.maxWroSeqFiles = maxOpen
        rw [super, foldl_addZone]
        exact blank.maxWro
      · intro _
        change s.sbi.wroSeqFiles ≤ maxOpen
        rw [super, foldl_addZone]
        simp [blank.wro]
    have after := run_keeps (fun s => Limited maxOpen s.shared.sbi)
      (fun s _ b s' inv hstep => limited_kept s b s' inv (moved hstep)) limited hrun
    exact after.bounded hmax

/-- Mounted with explicit open; the fourth command to come fails. -/
def openSetup : Setup Drive :=
  { mixedSetup with
    sbi := { mixedSetup.sbi with explicitOpen := true }
    dev := ⟨[], [none, none, none, some 0]⟩ }

theorem open_mounted :
    zonefsFillSuper mixedDrive mixedFormat 1 1 9 false (some (MountPoint.bytes "explicit-open")) 3
      (.ok (superZone :: mixedZones)) openSetup.dev = .ok (mixedGroups, openSetup) := by
  decide +kernel

/-- The file is opened and closed, then opened by two writers, and the last close fails. -/
def closedTwice : List (Move (Fin mixedGroups.zones.length) Drive) :=
  [.lookup seqFile, .section seqFile .writeOpen, .section seqFile .writeClose,
    .section seqFile .writeOpen, .section seqFile .writeOpen, .section seqFile .writeClose,
    .section seqFile .writeClose, .section seqFile .writeOpen]

theorem closedTwice_counted : ∃ failed s',
    run (moveStep mixedDrive) closedTwice (mountedFs mixedGroups openSetup) = some (failed, s') ∧
      failed.count true = 1 ∧
      s'.shared.sbi.wroSeqFiles =
        (Finset.univ.filter fun i => isWriting (s'.member i)).card + failed.count true ∧
      s'.shared.sbi.wroSeqFiles ≤ 1 ∧
      (true ∉ failed → ∀ i, (s'.member i).z.zoneOpen = true → isWriting (s'.member i) = true) := by
  have hrun := run_ends (moveStep mixedDrive) closedTwice
    (mountedFs mixedGroups openSetup) (by decide +kernel)
  have hfailed : (runAnswers (moveStep mixedDrive) closedTwice
      (mountedFs mixedGroups openSetup)).count true = 1 := by
    decide +kernel
  obtain ⟨counted, limit, held⟩ := writers_counted open_mounted hrun
  exact ⟨_, _, hrun, hfailed, counted, limit rfl (by decide), held⟩

end

section

variable {δ : Type} {D : BlockDevice δ} {F : Format} {s : FileState δ}

/-- No write is completed beyond its end. -/
def CompletesAtMost (D : BlockDevice δ) : Prop :=
  ∀ offset data dev size error ret,
    (D.dioWrite offset data dev).1 = .completed size error ret → size ≤ data.length

theorem recounted_passive {s s' : FileState δ} (h : Passive D s s') : Recounted s.z s'.z := by
  induction h with
  | refl => exact .refl _
  | tail _ hlast ih =>
    obtain ⟨x, hkind, _, rfl⟩ := hlast
    refine ih.trans (recounted_section ?_ _)
    rintro iocb size error rfl
    cases hkind

/-- The end of a request that does not end behind the write pointer. -/
theorem marked_endIo {iocb : ZoneKiocb} {size : Int} (error : Int)
    (hwp : s.z.zoneCnv = false → iocb.kiPos + size ≤ s.z.zWpoffset) (marked : Marked s.z) :
    Marked (zonefsFileWriteDioEndIo D iocb size error s).2.z := by
  rw [zonefsFileWriteDioEndIo]
  split
  · simp only
    split
    · exact marked
    · exact (recounted_ioError true s).marked marked
  split
  · rename_i hwritten
    have hle := hwp hwritten.2.1
    have stats : (zonefsUpdateStats (iocb.kiPos + size) s).z = s.z := by
      rw [zonefsUpdateStats]
      split
      · rfl
      · rfl
    simp only [zonefsISizeWrite, stats]
    split
    · rename_i hfull
      have inactive : ¬ IsActive { s.z with zoneOpen := false, zoneActive := false } := by
        rintro ⟨_, _, hopen | hpart⟩
        · cases hopen
        · exact absurd (le_trans hfull hle) (not_le.mpr hpart.2)
      exact (decide_eq_false inactive).symm
    · exact stats ▸ marked
  · exact marked

theorem marked_dioWriteDone {iocb : ZoneKiocb} {result : DioResult} {n : Int}
    (hsize : ∀ size error ret, result = .completed size error ret → size ≤ n)
    (hwp : s.z.zoneCnv = false → iocb.kiPos + n ≤ s.z.zWpoffset) (marked : Marked s.z) :
    Marked (dioWriteDone D iocb s result).2.z := by
  cases result with
  | refused ret => exact marked
  | queued => exact marked
  | completed size error ret =>
    have hle := hsize size error ret rfl
    refine marked_endIo error ?_ marked
    intro hseq
    have := hwp hseq
    omega

theorem marked_submitDioWrite (atMost : CompletesAtMost D) {iocb : ZoneKiocb} {data : List UInt8}
    (hwp : s.z.zoneCnv = false → iocb.kiPos + data.length ≤ s.z.zWpoffset) (marked : Marked s.z) :
    Marked (submitDioWrite D iocb data s).2.z := by
  have written : Marked (iomapDioWrite D iocb data s).2.z := by
    rw [iomapDioWrite]
    cases zonefsWriteIomapBegin true iocb.kiPos data.length s with
    | error e =>
      refine marked_endIo e ?_ marked
      intro hseq
      have := hwp hseq
      omega
    | ok iomap =>
      exact marked_dioWriteDone (s := { s with dev := (D.dioWrite _ data s.dev).2 })
        (atMost (iomap.at iocb.kiPos) data s.dev) hwp marked
  rw [submitDioWrite]
  simp only
  split
  · exact written
  · rw [recoverWrite]
    split
    · exact (recounted_ioError true _).marked written
    · exact written

theorem marked_dioWrite (atMost : CompletesAtMost D) (iocb : ZoneKiocb) (data : List UInt8)
    (marked : Marked s.z) : Marked (zonefsFileDioWrite D iocb data s).2.z := by
  rw [zonefsFileDioWrite]
  split
  · exact marked
  split
  · exact marked
  have checked := writeChecked (s := s) iocb data
  generalize zonefsWriteChecks iocb data s = r at checked ⊢
  obtain ⟨count, iocb, data⟩ := r
  simp only
  split
  · exact marked
  split
  · exact marked
  split
  · rename_i hcnv
    refine marked_submitDioWrite atMost ?_ marked
    intro hseq
    rw [hcnv] at hseq
    cases hseq
  split
  · exact marked
  · rename_i hpos _ _ hat
    refine marked_submitDioWrite atMost ?_ ((recounted_advanceWp count s).marked marked)
    intro _
    have hwp : (advanceWp count s).z.zWpoffset = s.z.zWpoffset + count :=
      congrArg ZonefsZone.zWpoffset (accountActive_z _)
    rw [hwp, ← not_not.mp hat, ← (checked (not_le.mp hpos)).count]

theorem marked_call (atMost : CompletesAtMost D) {c : FileCall}
    (hend : ∀ iocb size error, c ≠ .endIo iocb size error) (possible : c.Possible s)
    (marked : Marked s.z) : Marked (c.exec D s).2.z := by
  cases c with
  | writeIter iocb data =>
    change Marked (zonefsFileWriteIter D iocb data s).2.z
    have buffered :=
      (recounted_passive (io_bufferedWrite (D := D) (s := s) iocb data).passive).marked
    have direct := marked_dioWrite atMost iocb data marked
    rw [zonefsFileWriteIter]
    split
    · exact marked
    split
    · exact marked
    split
    · exact marked
    split
    · simp only
      split
      · exact direct
      · exact (recounted_passive (io_bufferedWrite iocb data).passive).marked direct
    · exact buffered marked
  | endIo iocb size error => exact absurd rfl (hend iocb size error)
  | truncate isize => exact (recounted_truncate isize s).marked marked
  | setattr prepared transferred attr =>
    change Marked (zonefsInodeSetattr D prepared transferred attr s).2.z
    have sized : Marked (setattrSize D attr.size s).2.z := by
      cases attr.size with
      | none => exact marked
      | some isize => exact (recounted_truncate isize s).marked marked
    have done := setattr_done (D := D) (s := s) prepared transferred attr
    generalize zonefsInodeSetattr D prepared transferred attr s = r at done ⊢
    cases done with
    | refused ret => exact marked
    | failed mutable => exact sized
    | done mutable hret mode uid gid => exact sized
  | «open» fModeWrite opened => exact (recounted_passive (call_passive rfl possible)).marked marked
  | release fModeWrite => exact (recounted_passive (call_passive rfl possible)).marked marked
  | readIter iocb count => exact (recounted_passive (call_passive rfl possible)).marked marked
  | spliceRead pos len => exact (recounted_passive (call_passive rfl possible)).marked marked
  | fsync => exact (recounted_passive (call_passive rfl possible)).marked marked

variable {ι : Type} [DecidableEq ι]

theorem everyMarked_kept (atMost : CompletesAtMost D) (s : Fs ι δ) (c : Serial ι) (ret : Int)
    (s' : Fs ι δ) (hend : c.isEnd = false) (inv : s.Everywhere fun _ m => Marked m.z)
    (hstep : serialStep D s c = some (ret, s')) : s'.Everywhere fun _ m => Marked m.z := by
  cases serial_done hstep with
  | call i f c hat possible =>
    have here := inv i
    rw [member_of_at? hat] at here
    have notEnd : ∀ iocb size error, c ≠ .endIo iocb size error := by
      rintro iocb size error rfl
      cases hend
    exact inv.set i (marked_call atMost notEnd possible here) fun _ h => h
  | other c ret s' hcall h =>
    cases h with
    | lookup i hnone => exact inv.set i (inv i) fun _ h => h
    | evict i inode hinode unused => exact inv.set i (inv i) fun _ h => h
    | remount sbi' remounted => exact inv
    | nothing => exact inv

/-- After a mount, as long as the calls come one after the other and each write has ended when its
call returns, the super block counts the active zones, whatever the device answers. -/
theorem active_zones_counted (atMost : CompletesAtMost D) {maxOpen maxActive blocksizeBits : Nat}
    {rdonly : Bool} {data : Option (List UInt8)} {nrZones : Nat}
    {reported : Except Int (List BlkZone)} {dev : δ} {g : Zgroups} {s : Setup δ}
    (h : zonefsFillSuper D F maxOpen maxActive blocksizeBits rdonly data nrZones reported dev =
      .ok (g, s))
    {cs : List (Serial (Fin g.zones.length))} (hend : ∀ c ∈ cs, c.isEnd = false)
    {answers : List Int} {s' : Fs _ δ}
    (hrun : run (serialStep D) cs (mountedFs g s) = some (answers, s')) :
    s'.shared.sbi.activeSeqFiles =
      (Finset.univ.filter fun i => IsActive (s'.member i).z).card := by
  have start : (mountedFs g s).Everywhere fun _ m => Marked m.z := by
    intro i
    exact ((fill_super_ok h).1 g.zones[i] (List.getElem_mem i.isLt)).active
  have marked := run_keeps_mem (fun s => s.Everywhere fun _ m => Marked m.z)
    (fun s c ret s' hc => everyMarked_kept atMost s c ret s' (hend c hc)) start hrun
  have counted := (run_keeps ActiveCounted
    (fun s c ret s' inv => serial_keeps activeCounted_kept inv) (activeCounted_mounted h) hrun).1
  have total := Family.total_mark (fun m : ZoneFile => decide (IsActive m.z)) s'
  simp only [decide_eq_true_eq] at total
  rw [← total]
  refine (counted.trans (add_zero _)).trans ?_
  refine Finset.sum_congr rfl fun i _ => ?_
  rw [fileActivity, activity, marked i]
  simp

theorem drive_atMost (e : Extent) : CompletesAtMost (drive e) := by
  intro offset data d size error ret h
  change (d.write e offset data).1 = _ at h
  rw [Drive.write] at h
  split at h
  · obtain ⟨rfl, _⟩ := DioResult.completed.inj h
    exact le_rfl
  split at h
  · obtain ⟨rfl, _⟩ := DioResult.completed.inj h
    exact Int.natCast_nonneg _
  cases hfault : d.fault with
  | some n =>
    rw [hfault] at h
    obtain ⟨rfl, _⟩ := DioResult.completed.inj h
    exact Int.natCast_nonneg _
  | none =>
    rw [hfault] at h
    obtain ⟨rfl, _⟩ := DioResult.completed.inj h
    exact le_rfl

def directWrite (pos : Int) : ZoneKiocb := ⟨pos, true, false, false, true, true, none, false⟩

/-- Two writes one behind the other, of which the second one fails. -/
def twoWrites : List (Serial (Fin mixedGroups.zones.length)) :=
  [.lookup seqFile, .call seqFile (.open true 0),
    .call seqFile (.writeIter (directWrite 0) (List.replicate 512 7)),
    .call seqFile (.writeIter (directWrite 512) (List.replicate 1024 8))]

theorem twoWrites_active : ∃ answers s',
    run (serialStep mixedDrive) twoWrites (mountedFs mixedGroups mixedSetup) = some (answers, s') ∧
      s'.shared.sbi.activeSeqFiles =
        (Finset.univ.filter fun i => IsActive (s'.member i).z).card := by
  have hrun := run_ends (serialStep mixedDrive) twoWrites
    (mountedFs mixedGroups mixedSetup) (by decide +kernel)
  exact ⟨_, _, hrun, active_zones_counted (drive_atMost _) mixed_mounted (by decide) hrun⟩

end

end ZonefsCounts
