import HodoZns.ZonefsRuns

/-!
# What the sections keep

A section leaves the place and the size of the zone and the mount options alone,
never takes back that a zone is bad, and changes the count of the active zones by
what it changes the mark of this zone.
-/

namespace ZonefsSteps

open Families ZonefsZones ZonefsFiles ZonefsOptions ZonefsRuns

variable {δ : Type} {D : BlockDevice δ} {s s' s'' : FileState δ}

/-- The zone is at the same place, and as bad as it was. -/
structure SameZone (z z' : ZonefsZone) : Prop where
  cnv : z'.zoneCnv = z.zoneCnv
  sector : z'.zSector = z.zSector
  size : z'.zSize = z.zSize
  capacity : z'.zCapacity = z.zCapacity
  offline : z.zoneOffline = true → z'.zoneOffline = true
  readonly : z.zoneReadonly = true → z'.zoneReadonly = true

theorem SameZone.refl (z : ZonefsZone) : SameZone z z :=
  ⟨rfl, rfl, rfl, rfl, id, id⟩

theorem SameZone.trans {z z' z'' : ZonefsZone} (h : SameZone z z') (h' : SameZone z' z'') :
    SameZone z z'' where
  cnv := h'.cnv.trans h.cnv
  sector := h'.sector.trans h.sector
  size := h'.size.trans h.size
  capacity := h'.capacity.trans h.capacity
  offline := h'.offline ∘ h.offline
  readonly := h'.readonly ∘ h.readonly

theorem SameZone.bad {z z' : ZonefsZone} (h : SameZone z z') (bad : z.isBad = true) :
    z'.isBad = true := by
  rw [ZonefsZone.isBad, Bool.or_eq_true] at bad ⊢
  exact bad.imp h.readonly h.offline

/-- Not accounted, options and limits. -/
structure SameSuper (sbi sbi' : SbInfo) : Prop where
  errorsRo : sbi'.errorsRo = sbi.errorsRo
  errorsZro : sbi'.errorsZro = sbi.errorsZro
  errorsZol : sbi'.errorsZol = sbi.errorsZol
  errorsRepair : sbi'.errorsRepair = sbi.errorsRepair
  explicitOpen : sbi'.explicitOpen = sbi.explicitOpen
  blocks : sbi'.sBlocks = sbi.sBlocks
  maxWro : sbi'.maxWroSeqFiles = sbi.maxWroSeqFiles
  maxActive : sbi'.maxActiveSeqFiles = sbi.maxActiveSeqFiles
  blocksizeBits : sbi'.blocksizeBits = sbi.blocksizeBits
  rdonly : sbi.rdonly = true → sbi'.rdonly = true

theorem SameSuper.refl (sbi : SbInfo) : SameSuper sbi sbi :=
  ⟨rfl, rfl, rfl, rfl, rfl, rfl, rfl, rfl, rfl, id⟩

theorem SameSuper.trans {a b c : SbInfo} (h : SameSuper a b) (h' : SameSuper b c) :
    SameSuper a c where
  errorsRo := h'.errorsRo.trans h.errorsRo
  errorsZro := h'.errorsZro.trans h.errorsZro
  errorsZol := h'.errorsZol.trans h.errorsZol
  errorsRepair := h'.errorsRepair.trans h.errorsRepair
  explicitOpen := h'.explicitOpen.trans h.explicitOpen
  blocks := h'.blocks.trans h.blocks
  maxWro := h'.maxWro.trans h.maxWro
  maxActive := h'.maxActive.trans h.maxActive
  blocksizeBits := h'.blocksizeBits.trans h.blocksizeBits
  rdonly := h'.rdonly ∘ h.rdonly

/-- 1 for a zone that is marked active. -/
def activity (z : ZonefsZone) : Int := if z.zoneActive then 1 else 0

/-- What every section keeps. -/
structure Kept (s s' : FileState δ) : Prop where
  zone : SameZone s.z s'.z
  super : SameSuper s.sbi s'.sbi
  immutable : s.inode.immutable = true → s'.inode.immutable = true
  swapfile : s'.inode.swapfile = s.inode.swapfile
  balanced : s'.sbi.activeSeqFiles - activity s'.z = s.sbi.activeSeqFiles - activity s.z

theorem Kept.refl (s : FileState δ) : Kept s s :=
  ⟨.refl _, .refl _, id, rfl, rfl⟩

theorem Kept.trans (h : Kept s s') (h' : Kept s' s'') : Kept s s'' where
  zone := h.zone.trans h'.zone
  super := h.super.trans h'.super
  immutable := h'.immutable ∘ h.immutable
  swapfile := h'.swapfile.trans h.swapfile
  balanced := h'.balanced.trans h.balanced

/-- Writers are neither added nor taken away, and the zone is not opened. -/
structure Unopened (s s' : FileState δ) : Prop where
  wro : s'.sbi.wroSeqFiles = s.sbi.wroSeqFiles
  refcnt : s'.inode.iWrRefcnt = s.inode.iWrRefcnt
  zoneOpen : s'.z.zoneOpen = true → s.z.zoneOpen = true

theorem Unopened.refl (s : FileState δ) : Unopened s s :=
  ⟨rfl, rfl, id⟩

theorem Unopened.trans (h : Unopened s s') (h' : Unopened s' s'') : Unopened s s'' where
  wro := h'.wro.trans h.wro
  refcnt := h'.refcnt.trans h.refcnt
  zoneOpen := h.zoneOpen ∘ h'.zoneOpen

/-- The zone is one of those that the device counts as active. -/
def IsActive (z : ZonefsZone) : Prop :=
  z.zoneCnv = false ∧ z.isBad = false ∧
    (z.zoneOpen = true ∨ 0 < z.zWpoffset ∧ z.zWpoffset < z.zCapacity)

instance (z : ZonefsZone) : Decidable (IsActive z) :=
  inferInstanceAs (Decidable (_ ∧ _ ∧ (_ ∨ _ ∧ _)))

/-- `zonefs_account_active` in closed form. -/
theorem zonefsAccountActive_eq (sbi : SbInfo) {z : ZonefsZone} (h : z.zoneCnv = false) :
    zonefsAccountActive sbi z =
      ({ sbi with
          activeSeqFiles := sbi.activeSeqFiles - activity z + (if IsActive z then 1 else 0) },
        { z with zoneActive := decide (IsActive z) }) := by
  cases z with
  | mk initMode isOpen active offline readonly cnv sector size capacity wpoffset mode uid gid =>
    simp only at h
    subst h
    by_cases written : 0 < wpoffset ∧ wpoffset < capacity
    · cases isOpen <;> cases active <;> cases offline <;> cases readonly <;>
        simp [zonefsAccountActive, accountInactive, activity, IsActive, ZonefsZone.isBad, written]
    · cases isOpen <;> cases active <;> cases offline <;> cases readonly <;>
        simp [zonefsAccountActive, accountInactive, activity, IsActive, ZonefsZone.isBad, written]

theorem zonefsAccountActive_cnv (sbi : SbInfo) {z : ZonefsZone} (h : z.zoneCnv = true) :
    zonefsAccountActive sbi z = (sbi, z) :=
  if_pos h

/-- An accounting changes nothing of the zone but the mark. -/
theorem accountActive_z (s : FileState δ) :
    (zonefsInodeAccountActive s).z =
      { s.z with zoneActive := (zonefsInodeAccountActive s).z.zoneActive } := by
  rw [zonefsInodeAccountActive]
  by_cases hcnv : s.z.zoneCnv = true
  · rw [zonefsAccountActive_cnv s.sbi hcnv]
  · rw [zonefsAccountActive_eq s.sbi (Bool.eq_false_iff.mpr hcnv)]

structure Quiet (s s' : FileState δ) : Prop extends Kept s s', Unopened s s'

theorem Quiet.refl (s : FileState δ) : Quiet s s := ⟨.refl s, .refl s⟩

theorem Quiet.trans (h : Quiet s s') (h' : Quiet s' s'') : Quiet s s'' :=
  ⟨h.toKept.trans h'.toKept, h.toUnopened.trans h'.toUnopened⟩

theorem quiet_device (dev : δ) : Quiet s { s with dev := dev } :=
  ⟨⟨.refl _, .refl _, id, rfl, rfl⟩, ⟨rfl, rfl, id⟩⟩

theorem quiet_accountActive (s : FileState δ) : Quiet s (zonefsInodeAccountActive s) := by
  rw [zonefsInodeAccountActive]
  cases hcnv : s.z.zoneCnv with
  | true =>
    rw [zonefsAccountActive_cnv s.sbi hcnv]
    exact .refl s
  | false =>
    rw [zonefsAccountActive_eq s.sbi hcnv]
    refine ⟨⟨⟨rfl, rfl, rfl, rfl, id, id⟩, ⟨rfl, rfl, rfl, rfl, rfl, rfl, rfl, rfl, rfl, id⟩, id,
      rfl, ?_⟩, ⟨rfl, rfl, id⟩⟩
    simp only [activity, decide_eq_true_eq]
    omega

theorem quiet_iSizeWrite (isize : Int) (s : FileState δ) : Quiet s (zonefsISizeWrite isize s) := by
  rw [zonefsISizeWrite]
  simp only
  split
  · cases hactive : s.z.zoneActive with
    | true =>
      refine ⟨⟨⟨rfl, rfl, rfl, rfl, id, id⟩, ⟨rfl, rfl, rfl, rfl, rfl, rfl, rfl, rfl, rfl, id⟩, id,
        rfl, ?_⟩, ⟨rfl, rfl, nofun⟩⟩
      simp [activity, hactive]
    | false =>
      refine ⟨⟨⟨rfl, rfl, rfl, rfl, id, id⟩, .refl _, id, rfl, ?_⟩, ⟨rfl, rfl, nofun⟩⟩
      simp [activity, hactive]
  · exact ⟨⟨.refl _, .refl _, id, rfl, rfl⟩, ⟨rfl, rfl, id⟩⟩

theorem quiet_updateStats (isize : Int) (s : FileState δ) :
    Quiet s (zonefsUpdateStats isize s) := by
  rw [zonefsUpdateStats]
  split
  · exact .refl s
  · exact ⟨⟨.refl _, ⟨rfl, rfl, rfl, rfl, rfl, rfl, rfl, rfl, rfl, id⟩, id, rfl, rfl⟩,
      ⟨rfl, rfl, id⟩⟩

/-- The write pointer is not among what is kept. -/
theorem quiet_wpoffset (wp : Int) (s : FileState δ) :
    Quiet s { s with z := { s.z with zWpoffset := wp } } :=
  ⟨⟨⟨rfl, rfl, rfl, rfl, id, id⟩, .refl _, id, rfl, rfl⟩, ⟨rfl, rfl, id⟩⟩

theorem quiet_setDataSize (dataSize : Int) (s : FileState δ) :
    Quiet s (setDataSize dataSize s) :=
  (((quiet_updateStats dataSize s).trans (quiet_iSizeWrite dataSize _)).trans
    (quiet_wpoffset dataSize _)).trans (quiet_accountActive _)

theorem quiet_checkCondition (zone : BlkZone) (s : FileState δ) :
    Quiet s { s with z := (zonefsCheckZoneCondition s.z zone).2 } := by
  rw [zonefsCheckZoneCondition]
  split
  · exact ⟨⟨⟨rfl, rfl, rfl, rfl, fun _ => rfl, id⟩, .refl _, id, rfl, rfl⟩, ⟨rfl, rfl, id⟩⟩
  · exact ⟨⟨⟨rfl, rfl, rfl, rfl, id, fun _ => rfl⟩, .refl _, id, rfl, rfl⟩, ⟨rfl, rfl, id⟩⟩
  · exact .refl s
  · exact .refl s

theorem quiet_updateMode (s : FileState δ) :
    Quiet s
      { s with
        z := (zonefsInodeUpdateMode s.z s.inode).1
        inode := (zonefsInodeUpdateMode s.z s.inode).2 } := by
  rw [zonefsInodeUpdateMode]
  simp only
  split
  · exact ⟨⟨⟨rfl, rfl, rfl, rfl, id, id⟩, .refl _, fun _ => rfl, rfl, rfl⟩, ⟨rfl, rfl, id⟩⟩
  · split
    · exact ⟨⟨⟨rfl, rfl, rfl, rfl, id, id⟩, .refl _, fun _ => rfl, rfl, rfl⟩, ⟨rfl, rfl, id⟩⟩
    · exact ⟨⟨⟨rfl, rfl, rfl, rfl, id, id⟩, .refl _, id, rfl, rfl⟩, ⟨rfl, rfl, id⟩⟩

theorem quiet_markOffline (s : FileState δ) :
    Quiet s { s with z := { s.z with zoneOffline := true } } :=
  ⟨⟨⟨rfl, rfl, rfl, rfl, fun _ => rfl, id⟩, .refl _, id, rfl, rfl⟩, ⟨rfl, rfl, id⟩⟩

theorem quiet_markReadonly (s : FileState δ) :
    Quiet s { s with z := { s.z with zoneReadonly := true } } :=
  ⟨⟨⟨rfl, rfl, rfl, rfl, id, fun _ => rfl⟩, .refl _, id, rfl, rfl⟩, ⟨rfl, rfl, id⟩⟩

theorem quiet_errorPolicy (dataSize : Int) (s : FileState δ) :
    Quiet s (errorPolicy dataSize s).2 := by
  rw [errorPolicy]
  split
  · exact (quiet_markOffline s).trans (quiet_updateMode _)
  split
  · exact (quiet_markReadonly s).trans (quiet_updateMode _)
  split
  · exact .refl s
  · exact .refl s

theorem quiet_errorFlags (s : FileState δ) : Quiet s (errorFlags s) := by
  refine ⟨⟨⟨rfl, rfl, rfl, rfl, id, id⟩, ⟨rfl, rfl, rfl, rfl, rfl, rfl, rfl, rfl, rfl, ?_⟩, id, rfl,
    rfl⟩, ⟨rfl, rfl, ?_⟩⟩
  · intro h
    simp [errorFlags, h]
  · intro h
    rw [errorFlags, Bool.and_eq_true] at h
    exact h.1

theorem quiet_handleIoError (zone : BlkZone) (write : Bool) (s : FileState δ) :
    Quiet s (zonefsHandleIoError zone write s) := by
  rw [zonefsHandleIoError]
  simp only
  split
  · exact quiet_checkCondition zone s
  · exact (((quiet_checkCondition zone s).trans (quiet_errorPolicy _ _)).trans
      (quiet_errorFlags _)).trans (quiet_setDataSize _ _)

theorem quiet_setRdonly (s : FileState δ) (dev : δ) :
    Quiet s { s with dev := dev, sbi := { s.sbi with rdonly := true } } :=
  ⟨⟨.refl _, ⟨rfl, rfl, rfl, rfl, rfl, rfl, rfl, rfl, rfl, fun _ => rfl⟩, id, rfl, rfl⟩,
    ⟨rfl, rfl, id⟩⟩

theorem quiet_ioError (write : Bool) (s : FileState δ) : Quiet s (zonefsIoError D write s) := by
  rw [zonefsIoError]
  split
  · exact quiet_handleIoError _ write s
  · split
    · exact quiet_setRdonly s _
    · exact (quiet_device _).trans (quiet_handleIoError _ write _)

theorem quiet_zoneMgmt (op : ReqOp) (s : FileState δ) : Quiet s (zonefsInodeZoneMgmt D op s).2 :=
  quiet_device _

theorem quiet_advanceWp (count : Int) (s : FileState δ) : Quiet s (advanceWp count s) :=
  (quiet_wpoffset _ s).trans (quiet_accountActive _)

theorem quiet_endIo (iocb : ZoneKiocb) (size error : Int) (s : FileState δ) :
    Quiet s (zonefsFileWriteDioEndIo D iocb size error s).2 := by
  rw [zonefsFileWriteDioEndIo]
  split
  · simp only
    split
    · exact .refl s
    · exact quiet_ioError true s
  split
  · exact (quiet_updateStats _ s).trans (quiet_iSizeWrite _ _)
  · exact .refl s

theorem quiet_iSize (isize : Int) (s : FileState δ) :
    Quiet s { s with inode := { s.inode with iSize := isize } } :=
  ⟨⟨.refl _, .refl _, id, rfl, rfl⟩, ⟨rfl, rfl, id⟩⟩

theorem quiet_closeFlag (s : FileState δ) :
    Quiet s { s with z := { s.z with zoneOpen := false } } :=
  ⟨⟨⟨rfl, rfl, rfl, rfl, id, id⟩, .refl _, id, rfl, rfl⟩, ⟨rfl, rfl, nofun⟩⟩

theorem quiet_truncateOpenZone (isize : Int) (s : FileState δ) :
    Quiet s (truncateOpenZone D isize s).2 := by
  rw [truncateOpenZone]
  split
  · split
    · exact quiet_zoneMgmt .zoneOpen s
    · exact quiet_closeFlag s
  · exact .refl s

theorem quiet_truncateSetsize (isize : Int) (s : FileState δ) :
    Quiet s (truncateSetsize isize s) :=
  (((quiet_updateStats isize s).trans (quiet_iSize isize _)).trans
    (quiet_wpoffset isize _)).trans (quiet_accountActive _)

theorem quiet_truncate (isize : Int) (s : FileState δ) :
    Quiet s (zonefsFileTruncate D isize s).2 := by
  rw [zonefsFileTruncate]
  split
  · exact .refl s
  cases truncateOp s.z isize with
  | none => exact .refl s
  | some op =>
    simp only
    split
    · exact .refl s
    split
    · exact quiet_zoneMgmt op s
    · exact ((quiet_zoneMgmt op s).trans (quiet_truncateOpenZone isize _)).trans
        (quiet_truncateSetsize isize _)

theorem quiet_setAttributes (mode : BitVec 16) (uid gid : Nat) (s : FileState δ) :
    Quiet s (setAttributes mode uid gid s) :=
  ⟨⟨⟨rfl, rfl, rfl, rfl, id, id⟩, .refl _, id, rfl, rfl⟩, ⟨rfl, rfl, id⟩⟩

/-- All sections but the two that open and close. -/
theorem quiet_section {x : Section δ} (hopen : x ≠ .writeOpen) (hclose : x ≠ .writeClose)
    (s : FileState δ) : Quiet s (x.run D s) := by
  cases x with
  | advance pos count =>
    change Quiet s (advanceAt pos count s)
    rw [advanceAt]
    split
    · exact .refl s
    · exact quiet_advanceWp count s
  | dioWrite offset data => exact quiet_device _
  | endIo iocb size error => exact quiet_endIo iocb size error s
  | dioRead offset count => exact quiet_device _
  | request r => exact quiet_device _
  | ioError write => exact quiet_ioError write s
  | truncate isize => exact quiet_truncate isize s
  | writeOpen => exact absurd rfl hopen
  | writeClose => exact absurd rfl hclose
  | attributes mode uid gid => exact quiet_setAttributes mode uid gid s
  | device dev => exact quiet_device dev

/-- What is left of a request that passes the checks: the first bytes of it, at its position or
at the write pointer. -/
structure WriteChecked (iocb : ZoneKiocb) (data : List UInt8) (s : FileState δ)
    (r : Int × ZoneKiocb × List UInt8) : Prop where
  count : r.1 = r.2.2.length
  bytes : r.2.2 <+: data
  request : r.2.1 = { iocb with kiPos := r.2.1.kiPos }
  pos : r.2.1.kiPos = if iocb.append then s.z.zWpoffset else iocb.kiPos
  append : iocb.append = true → s.z.zoneCnv = false

theorem writeChecked (iocb : ZoneKiocb) (data : List UInt8)
    (h : 0 < (zonefsWriteChecks iocb data s).1) :
    WriteChecked iocb data s (zonefsWriteChecks iocb data s) := by
  rw [zonefsWriteChecks] at h ⊢
  by_cases hswap : s.inode.swapfile = true
  · rw [if_pos hswap] at h
    exact absurd h (show ¬ 0 < eTxtBsy by decide)
  rw [if_neg hswap] at h ⊢
  by_cases hempty : data.length = 0
  · rw [if_pos hempty] at h
    exact absurd h (lt_irrefl 0)
  rw [if_neg hempty] at h ⊢
  by_cases hnowait : (iocb.nowait && !iocb.direct) = true
  · rw [if_pos hnowait] at h
    exact absurd h (show ¬ 0 < eInval by decide)
  rw [if_neg hnowait] at h ⊢
  by_cases happend : (iocb.append && s.z.zoneCnv) = true
  · rw [if_pos happend] at h
    exact absurd h (show ¬ 0 < eInval by decide)
  rw [if_neg happend] at h ⊢
  generalize hiocb : (if iocb.append = true then { iocb with kiPos := s.z.zWpoffset } else iocb) =
    iocb' at h ⊢
  have hrequest : iocb' = { iocb with kiPos := iocb'.kiPos } := by
    rw [← hiocb]
    split
    · rfl
    · rfl
  have hpos : iocb'.kiPos = if iocb.append then s.z.zWpoffset else iocb.kiPos := by
    rw [← hiocb]
    split
    · rfl
    · rfl
  by_cases hneg : zonefsWriteCheckLimits iocb' s.z iocb'.kiPos data.length < 0
  · rw [if_pos hneg] at h
    exact absurd h (not_lt.mpr hneg.le)
  · rw [if_neg hneg]
    refine ⟨rfl, List.take_prefix _ _, hrequest, hpos, fun h => ?_⟩
    rw [h, Bool.true_and, Bool.not_eq_true] at happend
    exact happend

/-- 1 for a file that is open for writing. -/
def writing (inode : ZonefsInode) : Int := if 0 < inode.iWrRefcnt then 1 else 0

/-- What a section does about the writers: afterwards the count is by `leak` further ahead of
the file, and if it is not, an open zone still has its writer. -/
structure Writers (leak : Int) (s s' : FileState δ) : Prop where
  ahead : s'.sbi.wroSeqFiles - writing s'.inode = s.sbi.wroSeqFiles - writing s.inode + leak
  held : leak = 0 → (s.z.zoneOpen = true → 0 < s.inode.iWrRefcnt) →
    s'.z.zoneOpen = true → 0 < s'.inode.iWrRefcnt
  bounded : s'.sbi.wroSeqFiles ≤ s.sbi.wroSeqFiles ∨
    (s.sbi.explicitOpen = true → s.sbi.maxWroSeqFiles ≠ 0 →
      s'.sbi.wroSeqFiles ≤ s.sbi.maxWroSeqFiles)

theorem Quiet.writers (h : Quiet s s') : Writers 0 s s' where
  ahead := by rw [h.wro, writing, writing, h.refcnt, add_zero]
  held := by
    intro _ held isOpen
    rw [h.refcnt]
    exact held (h.zoneOpen isOpen)
  bounded := .inl (le_of_eq h.wro)

theorem kept_addWro (n : Int) (s : FileState δ) : Kept s (addWro n s) :=
  ⟨.refl _, ⟨rfl, rfl, rfl, rfl, rfl, rfl, rfl, rfl, rfl, id⟩, id, rfl, rfl⟩

theorem kept_openFlag (isOpen : Bool) (s : FileState δ) :
    Kept s { s with z := { s.z with zoneOpen := isOpen } } :=
  ⟨⟨rfl, rfl, rfl, rfl, id, id⟩, .refl _, id, rfl, rfl⟩

theorem kept_takeReference (s : FileState δ) : Kept s (takeReference s) :=
  ⟨.refl _, .refl _, id, rfl, rfl⟩

theorem kept_dropReference (s : FileState δ) : Kept s (dropReference s) :=
  ⟨.refl _, .refl _, id, rfl, rfl⟩

theorem zoneMgmt_eq (op : ReqOp) (s : FileState δ) :
    ∃ ret dev, zonefsInodeZoneMgmt D op s = (ret, { s with dev := dev }) :=
  ⟨_, _, rfl⟩

/-- What `openZone` and `firstWriter` come to: a writer more is counted on success alone. -/
structure Opened (n : Int) (s : FileState δ) (r : Int × FileState δ) : Prop extends Kept s r.2 where
  refcnt : r.2.inode.iWrRefcnt = s.inode.iWrRefcnt
  counted : r.1 = 0 → r.2.sbi.wroSeqFiles = s.sbi.wroSeqFiles + n
  failed : r.1 ≠ 0 → r.2.sbi.wroSeqFiles = s.sbi.wroSeqFiles + n - 1
  zoneOpen : r.1 ≠ 0 → r.2.z.zoneOpen = s.z.zoneOpen

theorem opened_openZone (s : FileState δ) : Opened 0 s (openZone D s) := by
  rw [openZone]
  split
  · obtain ⟨ret, dev, mgmt⟩ := zoneMgmt_eq (D := D) .zoneOpen s
    rw [mgmt]
    simp only
    split
    · rename_i hret
      constructor
      · exact (quiet_device dev).toKept.trans (kept_addWro (-1) _)
      · rfl
      · exact fun h => absurd h hret
      · intro _
        simp only [addWro, add_zero]
        omega
      · exact fun _ => rfl
    · have active := quiet_accountActive { s with dev := dev, z := { s.z with zoneOpen := true } }
      constructor
      · exact ((quiet_device dev).toKept.trans (kept_openFlag true _)).trans active.toKept
      · exact active.refcnt
      · intro _
        rw [active.wro, add_zero]
      · exact fun h => absurd rfl h
      · exact fun h => absurd rfl h
  · constructor
    · exact .refl s
    · rfl
    · exact fun _ => (add_zero _).symm
    · exact fun h => absurd rfl h
    · exact fun h => absurd rfl h

theorem opened_firstWriter (s : FileState δ) : Opened 1 s (firstWriter D s) := by
  have counted := kept_addWro 1 s
  have zone := opened_openZone (D := D) (addWro 1 s)
  have hwro : (addWro 1 s).sbi.wroSeqFiles = s.sbi.wroSeqFiles + 1 := rfl
  rw [firstWriter]
  split
  · split
    · constructor
      · exact counted.trans (kept_addWro (-1) _)
      · rfl
      · exact fun h => absurd h (show eBusy ≠ 0 by decide)
      · intro _
        simp only [addWro]
        omega
      · exact fun _ => rfl
    · constructor
      · exact counted.trans zone.toKept
      · exact zone.refcnt
      · intro h
        rw [zone.counted h, hwro, add_zero]
      · intro h
        rw [zone.failed h, hwro, add_zero]
      · exact zone.zoneOpen
  · constructor
    · exact counted
    · rfl
    · exact fun _ => rfl
    · exact fun h => absurd rfl h
    · exact fun h => absurd rfl h

/-- With explicit open a further writer fits into the limit of the device. -/
theorem firstWriter_bounded (s : FileState δ) (hopt : s.sbi.explicitOpen = true)
    (hmax : s.sbi.maxWroSeqFiles ≠ 0) (h : (firstWriter D s).1 = 0) :
    s.sbi.wroSeqFiles + 1 ≤ s.sbi.maxWroSeqFiles := by
  rw [firstWriter] at h
  rw [if_pos (show (addWro 1 s).sbi.explicitOpen = true from hopt)] at h
  split at h
  · cases h
  · rename_i hnot
    have hle := not_and.mp hnot hmax
    exact not_lt.mp hle

theorem kept_writeOpen (s : FileState δ) : Kept s (zonefsSeqFileWriteOpen D s).2 := by
  have first := opened_firstWriter (D := D) s
  rw [zonefsSeqFileWriteOpen]
  by_cases hzero : s.inode.iWrRefcnt = 0
  · rw [if_pos hzero]
    simp only
    split
    · exact first.toKept.trans (kept_takeReference _)
    · exact first.toKept
  · rw [if_neg hzero]
    exact kept_takeReference s

theorem writers_writeOpen (s : FileState δ) : Writers 0 s (zonefsSeqFileWriteOpen D s).2 := by
  have first := opened_firstWriter (D := D) s
  rw [zonefsSeqFileWriteOpen]
  by_cases hzero : s.inode.iWrRefcnt = 0
  · rw [if_pos hzero]
    simp only
    split
    · rename_i hret
      have hwro := first.counted hret
      constructor
      · simp only [takeReference, writing, first.refcnt, hzero, hwro]
        simp
      · intro _ _ _
        exact Nat.succ_pos _
      · refine .inr fun hopt hmax => ?_
        simp only [takeReference, hwro]
        exact firstWriter_bounded s hopt hmax hret
    · rename_i hret
      have hwro : (firstWriter D s).2.sbi.wroSeqFiles = s.sbi.wroSeqFiles := by
        rw [first.failed hret]
        omega
      constructor
      · rw [hwro, writing, writing, first.refcnt, add_zero]
      · intro _ held isOpen
        rw [first.refcnt]
        exact held ((first.zoneOpen hret).symm.trans isOpen)
      · exact .inl (le_of_eq hwro)
  · rw [if_neg hzero]
    have hpos := Nat.pos_of_ne_zero hzero
    constructor
    · simp [takeReference, writing, hpos]
    · intro _ _ _
      exact Nat.succ_pos _
    · exact .inl le_rfl

theorem quiet_closeFailed (s : FileState δ) : Quiet s (closeFailed D s) := by
  refine (quiet_ioError (D := D) false s).trans ?_
  refine ⟨⟨.refl _, ⟨rfl, rfl, rfl, rfl, rfl, rfl, rfl, rfl, rfl, ?_⟩, id, rfl, rfl⟩,
    ⟨rfl, rfl, id⟩⟩
  intro h
  exact Bool.or_eq_true_iff.mpr (.inl h)

theorem quiet_closeZone (s : FileState δ) (dev : δ) :
    Quiet s
      (zonefsInodeAccountActive { s with dev := dev, z := { s.z with zoneOpen := false } }) :=
  ((quiet_device dev).trans (quiet_closeFlag _)).trans (quiet_accountActive _)

/-- What `lastWriter` comes to. -/
structure Closed (D : BlockDevice δ) (s s' : FileState δ) : Prop extends Kept s s' where
  refcnt : s'.inode.iWrRefcnt = s.inode.iWrRefcnt
  failed : s.z.zoneOpen = true → (zonefsInodeZoneMgmt D .zoneClose s).1 ≠ 0 →
    s'.sbi.wroSeqFiles = s.sbi.wroSeqFiles
  counted : ¬ (s.z.zoneOpen = true ∧ (zonefsInodeZoneMgmt D .zoneClose s).1 ≠ 0) →
    s'.sbi.wroSeqFiles = s.sbi.wroSeqFiles - 1 ∧ s'.z.zoneOpen = false

theorem closed_lastWriter (s : FileState δ) : Closed D s (lastWriter D s) := by
  rw [lastWriter]
  by_cases hopen : s.z.zoneOpen = true
  · rw [if_pos hopen]
    obtain ⟨ret, dev, mgmt⟩ := zoneMgmt_eq (D := D) .zoneClose s
    by_cases hret : ret = 0
    · have hmgmt : (zonefsInodeZoneMgmt D .zoneClose s).1 = 0 := by rw [mgmt, hret]
      have zone := quiet_closeZone s dev
      rw [mgmt]
      simp only [hret, ne_eq, not_true_eq_false, if_false]
      constructor
      · exact zone.toKept.trans (kept_addWro (-1) _)
      · exact zone.refcnt
      · exact fun _ h => absurd hmgmt h
      · intro _
        constructor
        · exact congrArg (· + -1) zone.wro
        · exact congrArg ZonefsZone.zoneOpen (accountActive_z _)
    · have failed := (quiet_device dev).trans (quiet_closeFailed (D := D) { s with dev := dev })
      rw [mgmt]
      simp only [hret, ne_eq, not_false_eq_true, if_true]
      constructor
      · exact failed.toKept
      · exact failed.refcnt
      · exact fun _ _ => failed.wro
      · intro h
        refine absurd ⟨hopen, ?_⟩ h
        rw [mgmt]
        exact hret
  · rw [if_neg hopen]
    constructor
    · exact kept_addWro (-1) s
    · rfl
    · exact fun h => absurd h hopen
    · exact fun _ => ⟨rfl, Bool.eq_false_iff.mpr hopen⟩

theorem kept_writeClose (s : FileState δ) : Kept s (zonefsSeqFileWriteClose D s) := by
  rw [zonefsSeqFileWriteClose]
  split
  · exact (kept_dropReference s).trans (closed_lastWriter _).toKept
  · exact kept_dropReference s

theorem writers_writeClose {s : FileState δ} (h : 0 < s.inode.iWrRefcnt) :
    Writers (if (Section.writeClose : Section δ).closeFails D s then 1 else 0) s
      (zonefsSeqFileWriteClose D s) := by
  have closed := closed_lastWriter (D := D) (dropReference s)
  have hfails : (Section.writeClose : Section δ).closeFails D s = true ↔
      s.inode.iWrRefcnt = 1 ∧ s.z.zoneOpen = true ∧
        (zonefsInodeZoneMgmt D .zoneClose s).1 ≠ 0 := by
    simp [Section.closeFails, and_assoc]
  rw [zonefsSeqFileWriteClose]
  by_cases hlast : s.inode.iWrRefcnt = 1
  · have hzero : (dropReference s).inode.iWrRefcnt = 0 := by simp [dropReference, hlast]
    rw [if_pos hzero]
    have hrefcnt := closed.refcnt.trans hzero
    by_cases hfail : s.z.zoneOpen = true ∧ (zonefsInodeZoneMgmt D .zoneClose s).1 ≠ 0
    · rw [if_pos (hfails.mpr ⟨hlast, hfail⟩)]
      have hwro := closed.failed hfail.1 hfail.2
      constructor
      · rw [hwro, writing, writing, hrefcnt, hlast]
        simp [dropReference]
      · exact fun h => absurd h one_ne_zero
      · exact .inl (le_of_eq hwro)
    · rw [if_neg fun h => hfail (hfails.mp h).2]
      obtain ⟨hwro, hclosed⟩ := closed.counted hfail
      constructor
      · rw [hwro, writing, writing, hrefcnt, hlast]
        simp [dropReference]
      · intro _ _ isOpen
        rw [hclosed] at isOpen
        cases isOpen
      · refine .inl ?_
        rw [hwro]
        simp [dropReference]
  · have hmore : 0 < s.inode.iWrRefcnt - 1 := by omega
    rw [if_neg (show (dropReference s).inode.iWrRefcnt ≠ 0 from hmore.ne'),
      if_neg fun h => hlast (hfails.mp h).1]
    constructor
    · simp [dropReference, writing, h, hmore]
    · exact fun _ _ _ => hmore
    · exact .inl le_rfl

theorem kept_section (x : Section δ) (s : FileState δ) : Kept s (x.run D s) := by
  by_cases hopen : x = .writeOpen
  · subst hopen
    exact kept_writeOpen s
  by_cases hclose : x = .writeClose
  · subst hclose
    exact kept_writeClose s
  · exact (quiet_section hopen hclose s).toKept

theorem writers_section {x : Section δ} {s : FileState δ} (h : x.possible s) :
    Writers (if x.closeFails D s then 1 else 0) s (x.run D s) := by
  by_cases hclose : x = .writeClose
  · subst hclose
    exact writers_writeClose (of_decide_eq_true h)
  · have hfails : x.closeFails D s = false := by
      cases x <;> first | rfl | exact absurd rfl hclose
    rw [hfails]
    by_cases hopen : x = .writeOpen
    · subst hopen
      exact writers_writeOpen s
    · exact (quiet_section hopen hclose s).writers

theorem kept_sections {s s' : FileState δ} (h : AnySections D s s') : Kept s s' := by
  induction h with
  | refl => exact .refl s
  | tail _ hlast ih =>
    obtain ⟨x, _, _, rfl⟩ := hlast
    exact ih.trans (kept_section x _)

end ZonefsSteps
