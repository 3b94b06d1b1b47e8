import HodoZns.ZonefsCounts

/-!
# Bad zones

Once a zone has been found offline or read-only, its file can no longer be changed:
whatever is done afterwards and whatever the device answers, nothing makes the zone
good again, and writes, attribute changes and syncs are refused. The file of an
offline zone cannot be read either.
-/

namespace ZonefsBadZones

open CallRuns Families ZonefsZones ZonefsFiles ZonefsOptions ZonefsRuns ZonefsSteps ZonefsMounts
  ZonefsCounts ZonedDevices
open MountPoint (bytes)

section

variable {δ : Type} {D : BlockDevice δ} {s s' : FileState δ}

/-- The inode says what the zone says. -/
structure Fenced (z : ZonefsZone) (inode : ZonefsInode) : Prop where
  immutable : z.isBad = true → inode.immutable = true
  unreadable : z.zoneOffline = true → unreadable inode = true

/-- Nothing of this is changed. -/
structure Unfenced (s s' : FileState δ) : Prop where
  offline : s'.z.zoneOffline = s.z.zoneOffline
  readonly : s'.z.zoneReadonly = s.z.zoneReadonly
  immutable : s'.inode.immutable = s.inode.immutable
  mode : s'.inode.iMode = s.inode.iMode

/-- The zone and the mode are left alone, or set to match. -/
def Fencing (s s' : FileState δ) : Prop := Unfenced s s' ∨ Fenced s'.z s'.inode

theorem Unfenced.refl (s : FileState δ) : Unfenced s s := ⟨rfl, rfl, rfl, rfl⟩

theorem Unfenced.trans {s s' s'' : FileState δ} (h : Unfenced s s') (h' : Unfenced s' s'') :
    Unfenced s s'' where
  offline := h'.offline.trans h.offline
  readonly := h'.readonly.trans h.readonly
  immutable := h'.immutable.trans h.immutable
  mode := h'.mode.trans h.mode

theorem Unfenced.fenced (h : Unfenced s s') (fenced : Fenced s.z s.inode) :
    Fenced s'.z s'.inode := by
  constructor
  · rw [ZonefsZone.isBad, h.offline, h.readonly, h.immutable]
    exact fenced.immutable
  · rw [h.offline, ZonefsFiles.unreadable, h.immutable, h.mode]
    exact fenced.unreadable

theorem Fencing.refl (s : FileState δ) : Fencing s s := .inl (.refl s)

theorem Fencing.fenced (h : Fencing s s') (fenced : Fenced s.z s.inode) : Fenced s'.z s'.inode := by
  rcases h with same | set
  · exact same.fenced fenced
  · exact set

theorem Fencing.trans {s s' s'' : FileState δ} (h : Fencing s s') (h' : Fencing s' s'') :
    Fencing s s'' := by
  rcases h' with same' | set'
  · rcases h with same | set
    · exact .inl (same.trans same')
    · exact .inr (same'.fenced set)
  · exact .inr set'

theorem noMode (mode : BitVec 16) : mode &&& ~~~0o777#16 &&& 0o777#16 = 0#16 := by
  rw [BitVec.and_assoc]
  simp

/-- `zonefs_inode_update_mode` makes the mode match the zone. -/
theorem fenced_updateMode (z : ZonefsZone) (inode : ZonefsInode) :
    Fenced (zonefsInodeUpdateMode z inode).1 (zonefsInodeUpdateMode z inode).2 := by
  rw [zonefsInodeUpdateMode]
  simp only
  by_cases hoffline : z.zoneOffline = true
  · rw [if_pos hoffline]
    constructor
    · exact fun _ => rfl
    · intro _
      rw [ZonefsFiles.unreadable, noMode]
      rfl
  · rw [if_neg hoffline]
    constructor
    · intro hbad
      have hreadonly : z.zoneReadonly = true :=
        (Bool.or_eq_true_iff.mp hbad).resolve_right hoffline
      rw [if_pos hreadonly]
    · exact fun h => absurd h hoffline

theorem unfenced_accountActive (s : FileState δ) : Unfenced s (zonefsInodeAccountActive s) := by
  have offline := congrArg ZonefsZone.zoneOffline (accountActive_z s)
  have readonly := congrArg ZonefsZone.zoneReadonly (accountActive_z s)
  exact ⟨offline, readonly, rfl, rfl⟩

theorem unfenced_updateStats (isize : Int) (s : FileState δ) :
    Unfenced s (zonefsUpdateStats isize s) := by
  rw [zonefsUpdateStats]
  split
  · exact .refl s
  · exact ⟨rfl, rfl, rfl, rfl⟩

theorem unfenced_iSizeWrite (isize : Int) (s : FileState δ) :
    Unfenced s (zonefsISizeWrite isize s) := by
  rw [zonefsISizeWrite]
  simp only
  split
  · exact ⟨rfl, rfl, rfl, rfl⟩
  · exact ⟨rfl, rfl, rfl, rfl⟩

theorem unfenced_setDataSize (dataSize : Int) (s : FileState δ) :
    Unfenced s (setDataSize dataSize s) := by
  have written := (unfenced_updateStats dataSize s).trans (unfenced_iSizeWrite dataSize _)
  refine Unfenced.trans ?_ (unfenced_accountActive _)
  exact ⟨written.offline, written.readonly, written.immutable, written.mode⟩

theorem fenced_errorPolicy (dataSize : Int) (s : FileState δ) :
    Fenced (errorPolicy dataSize s).2.z (errorPolicy dataSize s).2.inode := by
  rw [errorPolicy]
  by_cases hoffline : (s.z.zoneOffline || s.sbi.errorsZol) = true
  · rw [if_pos hoffline]
    exact fenced_updateMode _ _
  rw [if_neg hoffline]
  by_cases hreadonly : (s.z.zoneReadonly || s.sbi.errorsZro) = true
  · rw [if_pos hreadonly]
    exact fenced_updateMode _ _
  rw [if_neg hreadonly]
  have good : Fenced s.z s.inode := by
    rw [Bool.or_eq_true, not_or] at hoffline hreadonly
    constructor
    · intro hbad
      rcases Bool.or_eq_true_iff.mp hbad with h | h
      · exact absurd h hreadonly.1
      · exact absurd h hoffline.1
    · exact fun h => absurd h hoffline.1
  split
  · exact good
  · exact good

theorem fencing_handleIoError (zone : BlkZone) (write : Bool) (s : FileState δ) :
    Fencing s (zonefsHandleIoError zone write s) := by
  rw [zonefsHandleIoError]
  simp only
  split
  · rename_i hquiet
    rw [Bool.and_eq_true, Bool.and_eq_true, Bool.not_eq_true'] at hquiet
    simp only [checkCondition_eq _ _ hquiet.1.1]
    exact .refl s
  · refine .inr ?_
    have policy := fenced_errorPolicy (zonefsCheckZoneCondition s.z zone).1
      { s with z := (zonefsCheckZoneCondition s.z zone).2 }
    have flags : ∀ s : FileState δ, Unfenced s (errorFlags s) := fun _ => ⟨rfl, rfl, rfl, rfl⟩
    exact ((flags _).trans (unfenced_setDataSize _ _)).fenced policy

theorem fencing_ioError (write : Bool) (s : FileState δ) :
    Fencing s (zonefsIoError D write s) := by
  rw [zonefsIoError]
  split
  · exact fencing_handleIoError _ write s
  split
  · exact .inl ⟨rfl, rfl, rfl, rfl⟩
  · rename_i zone dev _
    have device : Fencing s { s with dev := dev } := .inl ⟨rfl, rfl, rfl, rfl⟩
    exact device.trans (fencing_handleIoError zone write _)

theorem fencing_endIo (iocb : ZoneKiocb) (size error : Int) (s : FileState δ) :
    Fencing s (zonefsFileWriteDioEndIo D iocb size error s).2 := by
  rw [zonefsFileWriteDioEndIo]
  split
  · simp only
    split
    · exact .refl s
    · exact fencing_ioError true s
  split
  · exact .inl ((unfenced_updateStats _ s).trans (unfenced_iSizeWrite _ _))
  · exact .refl s

theorem unfenced_advanceWp (count : Int) (s : FileState δ) : Unfenced s (advanceWp count s) := by
  refine Unfenced.trans ?_ (unfenced_accountActive _)
  exact ⟨rfl, rfl, rfl, rfl⟩

theorem unfenced_truncate (isize : Int) (s : FileState δ) :
    Unfenced s (zonefsFileTruncate D isize s).2 := by
  rw [zonefsFileTruncate]
  split
  · exact .refl s
  cases truncateOp s.z isize with
  | none => exact .refl s
  | some op =>
    simp only
    split
    · exact .refl s
    split
    · exact ⟨rfl, rfl, rfl, rfl⟩
    · refine Unfenced.trans ?_ (unfenced_accountActive _)
      have opened : Unfenced s (truncateOpenZone D isize (zonefsInodeZoneMgmt D op s).2).2 := by
        rw [truncateOpenZone]
        split
        · split
          · exact ⟨rfl, rfl, rfl, rfl⟩
          · exact ⟨rfl, rfl, rfl, rfl⟩
        · exact ⟨rfl, rfl, rfl, rfl⟩
      have stats := opened.trans (unfenced_updateStats isize _)
      exact ⟨stats.offline, stats.readonly, stats.immutable, stats.mode⟩

theorem unfenced_writeOpen (s : FileState δ) : Unfenced s (zonefsSeqFileWriteOpen D s).2 := by
  have opened : Unfenced s (firstWriter D s).2 := by
    rw [firstWriter]
    split
    · split
      · exact ⟨rfl, rfl, rfl, rfl⟩
      · rw [openZone]
        split
        · simp only
          split
          · exact ⟨rfl, rfl, rfl, rfl⟩
          · refine Unfenced.trans ?_ (unfenced_accountActive _)
            exact ⟨rfl, rfl, rfl, rfl⟩
        · exact ⟨rfl, rfl, rfl, rfl⟩
    · exact ⟨rfl, rfl, rfl, rfl⟩
  rw [zonefsSeqFileWriteOpen]
  by_cases hzero : s.inode.iWrRefcnt = 0
  · rw [if_pos hzero]
    simp only
    split
    · exact ⟨opened.offline, opened.readonly, opened.immutable, opened.mode⟩
    · exact opened
  · rw [if_neg hzero]
    exact ⟨rfl, rfl, rfl, rfl⟩

theorem fencing_writeClose (s : FileState δ) : Fencing s (zonefsSeqFileWriteClose D s) := by
  have dropped : Fencing s (dropReference s) := .inl ⟨rfl, rfl, rfl, rfl⟩
  rw [zonefsSeqFileWriteClose]
  split
  · refine dropped.trans ?_
    rw [lastWriter]
    split
    · simp only
      split
      · have failed := fencing_ioError (D := D) false
          (zonefsInodeZoneMgmt D .zoneClose (dropReference s)).2
        exact failed.imp (fun h => ⟨h.offline, h.readonly, h.immutable, h.mode⟩) id
      · have zone := unfenced_accountActive
          { (zonefsInodeZoneMgmt D .zoneClose (dropReference s)).2 with
            z := { s.z with zoneOpen := false } }
        exact .inl ⟨zone.offline, zone.readonly, zone.immutable, zone.mode⟩
    · exact .inl ⟨rfl, rfl, rfl, rfl⟩
  · exact dropped

theorem fencing_section {x : Section δ} (hattr : ∀ mode uid gid, x ≠ .attributes mode uid gid)
    (s : FileState δ) : Fencing s (x.run D s) := by
  cases x with
  | advance pos count =>
    change Fencing s (advanceAt pos count s)
    rw [advanceAt]
    split
    · exact .refl s
    · exact .inl (unfenced_advanceWp count s)
  | dioWrite offset data => exact .inl ⟨rfl, rfl, rfl, rfl⟩
  | endIo iocb size error => exact fencing_endIo iocb size error s
  | dioRead offset count => exact .inl ⟨rfl, rfl, rfl, rfl⟩
  | request r => exact .inl ⟨rfl, rfl, rfl, rfl⟩
  | ioError write => exact fencing_ioError write s
  | truncate isize => exact .inl (unfenced_truncate isize s)
  | writeOpen => exact .inl (unfenced_writeOpen s)
  | writeClose => exact fencing_writeClose s
  | attributes mode uid gid => exact absurd rfl (hattr mode uid gid)
  | device dev => exact .inl ⟨rfl, rfl, rfl, rfl⟩

theorem fenced_modeKept (h : ModeKept D s s') (fenced : Fenced s.z s.inode) :
    Fenced s'.z s'.inode := by
  induction h with
  | refl => exact fenced
  | tail _ hlast ih =>
    obtain ⟨x, hkind, _, rfl⟩ := hlast
    refine (fencing_section ?_ _).fenced ih
    rintro mode uid gid rfl
    cases hkind

theorem fenced_call {c : FileCall} (possible : c.Possible s) (fenced : Fenced s.z s.inode) :
    Fenced (c.exec D s).2.z (c.exec D s).2.inode := by
  by_cases hset : ∃ p t attr, c = .setattr p t attr
  · obtain ⟨prepared, transferred, attr, rfl⟩ := hset
    change Fenced (zonefsInodeSetattr D prepared transferred attr s).2.z
      (zonefsInodeSetattr D prepared transferred attr s).2.inode
    -- the mode changes only if the file is not immutable, so the zone is not bad
    have set : s.inode.immutable = false → ∀ s' : FileState δ, Unfenced s s' →
        ∀ mode uid gid,
          Fenced (setAttributes mode uid gid s').z (setAttributes mode uid gid s').inode := by
      intro mutable s' same mode uid gid
      have good : ¬ s.z.isBad = true := by
        intro hbad
        have := fenced.immutable hbad
        rw [mutable] at this
        cases this
      have good' : ¬ s'.z.isBad = true := by
        rwa [ZonefsZone.isBad, same.offline, same.readonly]
      constructor
      · exact fun hbad => absurd hbad good'
      · exact fun hoffline => absurd (Bool.or_eq_true_iff.mpr (.inr hoffline)) good'
    have sized : Unfenced s (setattrSize D attr.size s).2 := by
      cases attr.size with
      | none => exact .refl s
      | some isize => exact unfenced_truncate isize s
    have done := setattr_done (D := D) (s := s) prepared transferred attr
    generalize zonefsInodeSetattr D prepared transferred attr s = r at done ⊢
    cases done with
    | refused ret => exact fenced
    | failed mutable => exact sized.fenced fenced
    | done mutable hret mode uid gid => exact set mutable _ sized mode uid gid
  · refine fenced_modeKept (call_modeKept ?_ possible) fenced
    intro p t attr hc
    exact hset ⟨p, t, attr, hc⟩

/-- All that would change the file is refused, and nothing is done. -/
structure RefusesChanges (D : BlockDevice δ) (f : FileState δ) : Prop where
  write : ∀ iocb data, zonefsFileWriteIter D iocb data f = (ePerm, f)
  setattr : ∀ prepared transferred attr,
    zonefsInodeSetattr D prepared transferred attr f = (ePerm, f)
  fsync : zonefsFileFsync D f = (ePerm, f)

theorem refusesChanges (h : s.inode.immutable = true) : RefusesChanges D s :=
  ⟨fun _ _ => if_pos h, fun _ _ _ => if_pos h, if_pos h⟩

structure RefusesReads (D : BlockDevice δ) (f : FileState δ) : Prop where
  read : ∀ iocb count, zonefsFileReadIter D iocb count f = ((ePerm, []), f)
  splice : ∀ pos len, zonefsFileSpliceRead D pos len f = (ePerm, f)

theorem refusesReads (h : unreadable s.inode = true) : RefusesReads D s :=
  ⟨fun _ _ => if_pos h, fun _ _ => if_pos h⟩

end

section

variable {ι δ : Type} {D : BlockDevice δ} [DecidableEq ι]

/-- The inode of a bad zone is immutable. -/
def Immutable (m : ZoneFile) : Prop :=
  ∀ inode, m.inode = some inode → m.z.isBad = true → inode.immutable = true

theorem immutable_section {x : Section δ} {f : FileState δ} (possible : x.possible f)
    (h : f.z.isBad = true → f.inode.immutable = true) :
    (x.run D f).z.isBad = true → (x.run D f).inode.immutable = true := by
  by_cases hattr : ∃ mode uid gid, x = .attributes mode uid gid
  · obtain ⟨mode, uid, gid, rfl⟩ := hattr
    exact h
  · have fencing := fencing_section (D := D) (x := x)
      (fun mode uid gid hx => hattr ⟨mode, uid, gid, hx⟩) f
    rcases fencing with same | set
    · rw [ZonefsZone.isBad, same.offline, same.readonly, same.immutable]
      exact h
    · exact set.immutable

theorem looked_up_bad (z : ZonefsZone) :
    (zonefsGetFileInode z).1.isBad = z.isBad ∧
      (zonefsGetFileInode z).1.zoneOffline = z.zoneOffline := by
  have flags := (lookedUp z).flags
  have offline := congrArg ZonefsZone.zoneOffline flags
  have readonly := congrArg ZonefsZone.zoneReadonly flags
  simp only at offline readonly
  rw [ZonefsZone.isBad, ZonefsZone.isBad, offline, readonly]
  exact ⟨rfl, rfl⟩

theorem immutable_kept (s : Fs ι δ) (failed : Bool) (s' : Fs ι δ)
    (inv : s.Everywhere fun _ m => Immutable m) (h : Moved D s failed s') :
    s'.Everywhere fun _ m => Immutable m := by
  cases h with
  | «section» i f x hat possible =>
    have here := inv i
    rw [member_of_at? hat] at here
    refine inv.set i ?_ fun _ h => h
    rintro inode ⟨⟩
    exact immutable_section possible (here f.inode rfl)
  | other s' h =>
    cases h with
    | lookup i hnone =>
      refine inv.set i ?_ fun _ h => h
      rintro inode ⟨⟩
      exact (fenced_updateMode _ _).immutable
    | evict i inode hinode unused => exact inv.set i nofun fun _ h => h
    | remount sbi' remounted => exact inv
    | nothing => exact inv

/-- A bad zone is never good again. -/
theorem bad_kept (i : ι) (s : Fs ι δ) (failed : Bool) (s' : Fs ι δ)
    (bad : (s.member i).z.isBad = true) (h : Moved D s failed s') :
    (s'.member i).z.isBad = true := by
  have set : ∀ (j : ι) (y : Shared δ × ZoneFile),
      ((s.member j).z.isBad = true → y.2.z.isBad = true) →
      ((s.set j y).member i).z.isBad = true := by
    intro j y hbad
    by_cases hij : i = j
    · subst hij
      rw [Family.set_member_same]
      exact hbad bad
    · rwa [Family.set_member_other s y hij]
  cases h with
  | «section» j f x hat possible =>
    refine set j _ fun hbad => ?_
    rw [member_of_at? hat] at hbad
    exact (kept_section x f).zone.bad hbad
  | other s' h =>
    cases h with
    | lookup j hnone => exact set j _ fun hbad => (looked_up_bad _).1.trans hbad
    | evict j inode hinode unused => exact set j _ id
    | remount sbi' remounted => exact bad
    | nothing => exact bad

/-- After a mount, whatever is done in whatever order and whatever the device answers, a zone that
is found bad stays bad, and its file refuses every change. -/
theorem bad_zones_refuse {g : Zgroups} {s : Setup δ}
    {ms ms' : List (Move (Fin g.zones.length) δ)} {failed failed' : List Bool} {s₁ s₂ : Fs _ δ}
    (hrun : run (moveStep D) ms (mountedFs g s) = some (failed, s₁)) {i : Fin g.zones.length}
    (bad : (s₁.member i).z.isBad = true)
    (hrun' : run (moveStep D) ms' s₁ = some (failed', s₂)) :
    (s₂.member i).z.isBad = true ∧ ∀ f, at? s₂ i = some f → RefusesChanges D f := by
  have start : (mountedFs g s).Everywhere fun _ m => Immutable m := fun _ => nofun
  have first := run_keeps (fun s => s.Everywhere fun _ m => Immutable m)
    (fun s _ b s' inv hstep => immutable_kept s b s' inv (moved hstep)) start hrun
  have second := run_keeps (fun s => s.Everywhere fun _ m => Immutable m)
    (fun s _ b s' inv hstep => immutable_kept s b s' inv (moved hstep)) first hrun'
  have bad' := run_keeps (fun s => (s.member i).z.isBad = true)
    (fun s _ b s' inv hstep => bad_kept i s b s' inv (moved hstep)) bad hrun'
  refine ⟨bad', fun f hat => refusesChanges ?_⟩
  have here := second i
  rw [member_of_at? hat] at here bad'
  exact here f.inode rfl bad'

/-- An error finds the file with `errors=zone-offline` in force. -/
def lostZone : List (Move (Fin mixedGroups.zones.length) Drive) :=
  [.remount (some (bytes "errors=zone-offline")) false, .lookup seqFile,
    .section seqFile (.ioError true)]

theorem lostZone_refuses : ∃ failed s₁ failed' s₂,
    run (moveStep mixedDrive) lostZone (mountedFs mixedGroups mixedSetup) = some (failed, s₁) ∧
      run (moveStep mixedDrive) [.section seqFile (.truncate 4096)] s₁ = some (failed', s₂) ∧
      (s₂.member seqFile).z.isBad = true ∧
      ∀ f, at? s₂ seqFile = some f → RefusesChanges mixedDrive f := by
  have hrun := run_ends (moveStep mixedDrive) lostZone
    (mountedFs mixedGroups mixedSetup) (by decide +kernel)
  have hrun' := run_ends (moveStep mixedDrive) [.section seqFile (.truncate 4096)]
    (runState (moveStep mixedDrive) lostZone (mountedFs mixedGroups mixedSetup))
    (by decide +kernel)
  exact ⟨_, _, _, _, hrun, hrun', bad_zones_refuse hrun (by decide +kernel) hrun'⟩

/-- The same of a file whose inode is in the cache. -/
def FencedFile (m : ZoneFile) : Prop := ∀ inode, m.inode = some inode → Fenced m.z inode

theorem fencedFile_kept (s : Fs ι δ) (c : Serial ι) (ret : Int) (s' : Fs ι δ)
    (inv : s.Everywhere fun _ m => FencedFile m) (h : Done D s c ret s') :
    s'.Everywhere fun _ m => FencedFile m := by
  cases h with
  | call i f c hat possible =>
    have here := inv i
    rw [member_of_at? hat] at here
    refine inv.set i ?_ fun _ h => h
    rintro inode ⟨⟩
    exact fenced_call possible (here f.inode rfl)
  | other c ret s' hcall h =>
    cases h with
    | lookup i hnone =>
      refine inv.set i ?_ fun _ h => h
      rintro inode ⟨⟩
      exact fenced_updateMode _ _
    | evict i inode hinode unused => exact inv.set i nofun fun _ h => h
    | remount sbi' remounted => exact inv
    | nothing => exact inv

theorem fencedFile_mounted (g : Zgroups) (s : Setup δ) :
    (mountedFs g s).Everywhere fun _ m => FencedFile m :=
  fun _ => nofun

theorem fencedFile_run {s s' : Fs ι δ} {cs : List (Serial ι)} {answers : List Int}
    (inv : s.Everywhere fun _ m => FencedFile m)
    (hrun : run (serialStep D) cs s = some (answers, s')) :
    s'.Everywhere fun _ m => FencedFile m :=
  run_keeps (fun s => s.Everywhere fun _ m => FencedFile m)
    (fun s c ret s' inv hstep => fencedFile_kept s c ret s' inv (serial_done hstep)) inv hrun

omit [DecidableEq ι] in
theorem refusesReads_of_fenced {s : Fs ι δ} (fenced : s.Everywhere fun _ m => FencedFile m) {i : ι}
    (offline : (s.member i).z.zoneOffline = true) {f : FileState δ} (hat : at? s i = some f) :
    RefusesReads D f := by
  have here := fenced i
  rw [member_of_at? hat] at here offline
  exact refusesReads ((here f.inode rfl).unreadable offline)

/-- After a mount, as long as the calls come one after the other, the file of a zone that is
offline cannot be read, whatever the device answers. -/
theorem offline_zones_unreadable {g : Zgroups} {s : Setup δ}
    {cs : List (Serial (Fin g.zones.length))} {answers : List Int} {s' : Fs _ δ}
    (hrun : run (serialStep D) cs (mountedFs g s) = some (answers, s')) {i : Fin g.zones.length}
    (offline : (s'.member i).z.zoneOffline = true) {f : FileState δ} (hat : at? s' i = some f) :
    RefusesReads D f := by
  have fenced := fencedFile_run (fencedFile_mounted g s) hrun
  exact refusesReads_of_fenced fenced offline hat

/-- A write fails with `errors=zone-offline` in force. -/
def lostWrites : List (Serial (Fin mixedGroups.zones.length)) :=
  .remount (some (bytes "errors=zone-offline")) false :: twoWrites

theorem lostWrites_unreadable : ∃ answers s' f,
    run (serialStep mixedDrive) lostWrites (mountedFs mixedGroups mixedSetup) =
        some (answers, s') ∧
      (s'.member seqFile).z.zoneOffline = true ∧ at? s' seqFile = some f ∧
      RefusesReads mixedDrive f := by
  have hrun := run_ends (serialStep mixedDrive) lostWrites
    (mountedFs mixedGroups mixedSetup) (by decide +kernel)
  have offline : ((runState (serialStep mixedDrive) lostWrites
      (mountedFs mixedGroups mixedSetup)).member seqFile).z.zoneOffline = true := by
    decide +kernel
  have hsome : (at? (runState (serialStep mixedDrive) lostWrites
      (mountedFs mixedGroups mixedSetup)) seqFile).isSome = true := by
    decide +kernel
  obtain ⟨f, hat⟩ := Option.isSome_iff_exists.mp hsome
  exact ⟨_, _, f, hrun, offline, hat, offline_zones_unreadable hrun offline hat⟩

end

end ZonefsBadZones
