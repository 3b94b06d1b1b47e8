import HodoZns.CallRuns
import HodoZns.Families
import HodoZns.ZonefsFiles
import HodoZns.ZonefsOptions
import Mathlib.Logic.Relation

/-!
# Runs of zonefs

What is done to a zone file in one go, under `i_truncate_mutex` or as one request
to the device, is a section. A call is some sections one after the other, and the
sections of calls that are made at the same time may come in any order. The inode
of a zone file comes into the cache by a lookup and leaves it when nobody uses it.
-/

namespace ZonefsRuns

open Families ZonefsZones ZonefsFiles ZonefsOptions

structure Shared (δ : Type) where
  sbi : SbInfo
  dev : δ

/-- A zone, with its inode if that is in the cache. -/
structure ZoneFile where
  z : ZonefsZone
  inode : Option ZonefsInode

abbrev Fs (ι δ : Type) := Family ι (Shared δ) ZoneFile

/-- `device` is what the device does on its own. -/
inductive Section (δ : Type) where
  | advance (pos count : Int)
  | dioWrite (offset : Int) (data : List UInt8)
  | endIo (iocb : ZoneKiocb) (size error : Int)
  | dioRead (offset count : Int)
  | request (r : IoRequest)
  | ioError (write : Bool)
  | truncate (isize : Int)
  | writeOpen
  | writeClose
  | attributes (mode : BitVec 16) (uid gid : Nat)
  | device (dev : δ)

section

variable {δ : Type}

/-- The part of `zonefs_file_dio_write` under the mutex. -/
def advanceAt (pos count : Int) (s : FileState δ) : FileState δ :=
  if pos ≠ s.z.zWpoffset then s else advanceWp count s

def Section.run (D : BlockDevice δ) (s : FileState δ) : Section δ → FileState δ
  | .advance pos count => advanceAt pos count s
  | .dioWrite offset data => { s with dev := (D.dioWrite offset data s.dev).2 }
  | .endIo iocb size error => (zonefsFileWriteDioEndIo D iocb size error s).2
  | .dioRead offset count => { s with dev := (D.dioRead offset count s.dev).2 }
  | .request r => { s with dev := (D.request r s.dev).2 }
  | .ioError write => zonefsIoError D write s
  | .truncate isize => (zonefsFileTruncate D isize s).2
  | .writeOpen => (zonefsSeqFileWriteOpen D s).2
  | .writeClose => zonefsSeqFileWriteClose D s
  | .attributes mode uid gid => setAttributes mode uid gid s
  | .device dev => { s with dev := dev }

/-- The VFS closes a file only if it has been opened. -/
def Section.possible (s : FileState δ) : Section δ → Bool
  | .writeClose => 0 < s.inode.iWrRefcnt
  | _ => true

/-- Requests that do not write to a sequential zone, and what is done when they fail. -/
def Section.io : Section δ → Bool
  | .dioRead _ _ | .request _ | .ioError _ => true
  | _ => false

/-- What is done in calls that neither write to a sequential zone nor change an attribute. -/
def Section.passive : Section δ → Bool
  | .dioRead _ _ | .request _ | .ioError _ | .writeOpen | .writeClose => true
  | _ => false

def Section.keepsMode : Section δ → Bool
  | .attributes _ _ _ => false
  | _ => true

/-- Some sections of the kind lead from the first state to the second. -/
def Sections (kind : Section δ → Bool) (D : BlockDevice δ) : FileState δ → FileState δ → Prop :=
  Relation.ReflTransGen fun s s' => ∃ x : Section δ, kind x ∧ x.possible s ∧ s' = x.run D s

variable {D : BlockDevice δ} {s s' s'' : FileState δ} {kind : Section δ → Bool}

theorem Sections.refl : Sections kind D s s := Relation.ReflTransGen.refl

theorem Sections.trans (h : Sections kind D s s') (h' : Sections kind D s' s'') :
    Sections kind D s s'' :=
  Relation.ReflTransGen.trans h h'

theorem Sections.one {x : Section δ} (hkind : kind x) (h : x.possible s) :
    Sections kind D s (x.run D s) :=
  Relation.ReflTransGen.single ⟨x, hkind, h, rfl⟩

abbrev AnySections (D : BlockDevice δ) : FileState δ → FileState δ → Prop :=
  Sections (fun _ => true) D

abbrev Io (D : BlockDevice δ) : FileState δ → FileState δ → Prop := Sections Section.io D

abbrev Passive (D : BlockDevice δ) : FileState δ → FileState δ → Prop := Sections Section.passive D

abbrev ModeKept (D : BlockDevice δ) : FileState δ → FileState δ → Prop :=
  Sections Section.keepsMode D

theorem Sections.mono {kind' : Section δ → Bool} (hkind : ∀ x, kind x → kind' x)
    (h : Sections kind D s s') : Sections kind' D s s' := by
  induction h with
  | refl => exact .refl
  | tail _ hlast ih =>
    obtain ⟨x, hx, hpossible, rfl⟩ := hlast
    exact ih.trans (.one (hkind x hx) hpossible)

theorem Io.passive (h : Io D s s') : Passive D s s' := by
  refine h.mono fun x hx => ?_
  cases x with
  | dioRead offset count => rfl
  | request r => rfl
  | ioError write => rfl
  | _ => cases hx

theorem Passive.modeKept (h : Passive D s s') : ModeKept D s s' := by
  refine h.mono fun x hx => ?_
  cases x with
  | attributes mode uid gid => cases hx
  | _ => rfl

theorem ModeKept.any (h : ModeKept D s s') : AnySections D s s' := h.mono fun _ _ => rfl

theorem io_ioError (write : Bool) : Io D s (zonefsIoError D write s) :=
  .one (x := .ioError write) rfl rfl

theorem io_request (r : IoRequest) : Io D s { s with dev := (D.request r s.dev).2 } :=
  .one (x := .request r) rfl rfl

theorem modeKept_endIo (iocb : ZoneKiocb) (size error : Int) :
    ModeKept D s (zonefsFileWriteDioEndIo D iocb size error s).2 :=
  .one (x := .endIo iocb size error) rfl rfl

theorem modeKept_truncate (isize : Int) : ModeKept D s (zonefsFileTruncate D isize s).2 :=
  .one (x := .truncate isize) rfl rfl

theorem modeKept_advance {count : Int} : ModeKept D s (advanceWp count s) := by
  have h : ModeKept D s (advanceAt s.z.zWpoffset count s) :=
    .one (x := .advance s.z.zWpoffset count) rfl rfl
  rwa [advanceAt, if_neg (not_not.mpr rfl)] at h

inductive FileCall where
  | open (fModeWrite : Bool) (opened : Int)
  | release (fModeWrite : Bool)
  | writeIter (iocb : ZoneKiocb) (data : List UInt8)
  | endIo (iocb : ZoneKiocb) (size error : Int)
  | readIter (iocb : ZoneKiocb) (count : Nat)
  | spliceRead (pos : Int) (len : Nat)
  | fsync
  | truncate (isize : Int)
  | setattr (prepared transferred : Int) (attr : ZoneIattr)

def FileCall.exec (D : BlockDevice δ) (s : FileState δ) : FileCall → Int × FileState δ
  | .open fModeWrite opened => zonefsFileOpen D fModeWrite opened s
  | .release fModeWrite => zonefsFileRelease D fModeWrite s
  | .writeIter iocb data => zonefsFileWriteIter D iocb data s
  | .endIo iocb size error => zonefsFileWriteDioEndIo D iocb size error s
  | .readIter iocb count =>
    let (r, s) := zonefsFileReadIter D iocb count s
    (r.1, s)
  | .spliceRead pos len => zonefsFileSpliceRead D pos len s
  | .fsync => zonefsFileFsync D s
  | .truncate isize => zonefsFileTruncate D isize s
  | .setattr prepared transferred attr => zonefsInodeSetattr D prepared transferred attr s

theorem modeKept_dioWriteDone (iocb : ZoneKiocb) (result : DioResult) :
    ModeKept D s (dioWriteDone D iocb s result).2 := by
  cases result with
  | refused ret => exact .refl
  | completed size error ret => exact modeKept_endIo iocb size error
  | queued => exact .refl

theorem modeKept_iomapDioWrite (iocb : ZoneKiocb) (data : List UInt8) :
    ModeKept D s (iomapDioWrite D iocb data s).2 := by
  rw [iomapDioWrite]
  cases zonefsWriteIomapBegin true iocb.kiPos data.length s with
  | error e => exact modeKept_endIo iocb 0 e
  | ok iomap =>
    have device : ModeKept D s
        { s with dev := (D.dioWrite (iomap.at iocb.kiPos) data s.dev).2 } :=
      .one (x := .dioWrite (iomap.at iocb.kiPos) data) rfl rfl
    exact device.trans (modeKept_dioWriteDone iocb _)

theorem modeKept_recoverWrite (ret : Int) : ModeKept D s (recoverWrite D ret s) := by
  rw [recoverWrite]
  split
  · exact (io_ioError true).passive.modeKept
  · exact .refl

theorem modeKept_submitDioWrite (iocb : ZoneKiocb) (data : List UInt8) :
    ModeKept D s (submitDioWrite D iocb data s).2 := by
  have h := modeKept_iomapDioWrite (D := D) (s := s) iocb data
  rw [submitDioWrite]
  simp only
  split
  · exact h
  · exact h.trans (modeKept_recoverWrite _)

theorem modeKept_dioWrite (iocb : ZoneKiocb) (data : List UInt8) :
    ModeKept D s (zonefsFileDioWrite D iocb data s).2 := by
  rw [zonefsFileDioWrite]
  split
  · exact .refl
  split
  · exact .refl
  obtain ⟨count, iocb, data⟩ := zonefsWriteChecks iocb data s
  simp only
  split
  · exact .refl
  split
  · exact .refl
  split
  · exact modeKept_submitDioWrite iocb data
  split
  · exact .refl
  · exact modeKept_advance.trans (modeKept_submitDioWrite iocb data)

theorem io_bufferedWrite (iocb : ZoneKiocb) (data : List UInt8) :
    Io D s (zonefsFileBufferedWrite D iocb data s).2 := by
  have recovered : ∀ (ret : Int) (s' : FileState δ), Io D s s' →
      Io D s (if ret = eIo then zonefsIoError D true s' else s') := by
    intro ret s' h
    split
    · exact h.trans (io_ioError true)
    · exact h
  rw [zonefsFileBufferedWrite]
  split
  · exact .refl
  split
  · exact .refl
  obtain ⟨ret, iocb, data⟩ := zonefsWriteChecks iocb data s
  simp only
  split
  · exact .refl
  have written := recovered (D.request (.bufferedWrite iocb.kiPos data) s.dev).1 _
    (io_request (.bufferedWrite iocb.kiPos data))
  split
  · exact written.trans (io_request .writeSync)
  · exact written

theorem modeKept_writeIter (iocb : ZoneKiocb) (data : List UInt8) :
    ModeKept D s (zonefsFileWriteIter D iocb data s).2 := by
  rw [zonefsFileWriteIter]
  split
  · exact .refl
  split
  · exact .refl
  split
  · exact .refl
  split
  · have h := modeKept_dioWrite (D := D) (s := s) iocb data
    simp only
    split
    · exact h
    · exact h.trans (io_bufferedWrite iocb data).passive.modeKept
  · exact (io_bufferedWrite iocb data).passive.modeKept

theorem io_bufferedRead (pos count : Int) :
    Io D s (bufferedRead D pos count s).2 := by
  rw [bufferedRead]
  simp only
  split
  · exact (io_request (.bufferedRead pos count)).trans (io_ioError false)
  · exact io_request (.bufferedRead pos count)

theorem io_dioReadDone (result : DioResult × List UInt8) : Io D s (dioReadDone D s result).2 := by
  obtain ⟨result, data⟩ := result
  cases result with
  | refused ret => exact .refl
  | completed size error ret =>
    simp only [dioReadDone, zonefsFileReadDioEndIo]
    split
    · exact io_ioError false
    · exact .refl
  | queued => exact .refl

theorem io_iomapDioRead (pos count : Int) :
    Io D s (iomapDioRead D pos count s).2 := by
  rw [iomapDioRead]
  simp only
  split
  · exact .refl
  · have device : Io D s
        { s with dev := (D.dioRead ((zonefsReadIomapBegin pos count s).at pos) count s.dev).2 } :=
      .one (x := .dioRead ((zonefsReadIomapBegin pos count s).at pos) count) rfl rfl
    exact device.trans (io_dioReadDone _)

theorem io_readIter (iocb : ZoneKiocb) (count : Nat) :
    Io D s (zonefsFileReadIter D iocb count s).2 := by
  rw [zonefsFileReadIter]
  split
  · exact .refl
  split
  · exact .refl
  split
  · exact .refl
  split
  · exact .refl
  simp only
  split
  · split
    · exact .refl
    · exact io_iomapDioRead _ _
  · exact io_bufferedRead _ _

theorem io_spliceRead (pos : Int) (len : Nat) :
    Io D s (zonefsFileSpliceRead D pos len s).2 := by
  rw [zonefsFileSpliceRead]
  split
  · exact .refl
  split
  · exact .refl
  simp only
  split
  · exact io_bufferedRead _ _
  · exact .refl

theorem io_fsync : Io D s (zonefsFileFsync D s).2 := by
  have recovered : ∀ (ret : Int) (s' : FileState δ), Io D s s' →
      Io D s (if ret ≠ 0 then zonefsIoError D true s' else s') := by
    intro ret s' h
    split
    · exact h.trans (io_ioError true)
    · exact h
  rw [zonefsFileFsync]
  split
  · exact .refl
  cases s.z.zoneCnv with
  | false => exact recovered _ _ (io_request .flush)
  | true =>
    have written : Io D s { s with dev := (D.request .writeAndWait s.dev).2 } :=
      io_request .writeAndWait
    simp only [if_true]
    split
    · exact recovered _ _ (written.trans (io_request .flush))
    · exact written.trans (io_ioError true)

theorem passive_open (fModeWrite : Bool) (opened : Int) :
    Passive D s (zonefsFileOpen D fModeWrite opened s).2 := by
  rw [zonefsFileOpen]
  split
  · exact .refl
  split
  · exact .one (x := .writeOpen) rfl rfl
  · exact .refl

theorem passive_release {fModeWrite : Bool}
    (h : zonefsSeqFileNeedWro fModeWrite s.z → 0 < s.inode.iWrRefcnt) :
    Passive D s (zonefsFileRelease D fModeWrite s).2 := by
  rw [zonefsFileRelease]
  simp only
  split
  · rename_i hneed
    exact .one (x := .writeClose) rfl (decide_eq_true (h hneed))
  · exact .refl

/-- What `zonefs_inode_setattr` comes to. -/
inductive SetattrDone (D : BlockDevice δ) (attr : ZoneIattr) (s : FileState δ) :
    Int × FileState δ → Prop where
  | refused (ret : Int) : SetattrDone D attr s (ret, s)
  | failed (mutable : s.inode.immutable = false) :
      SetattrDone D attr s (setattrSize D attr.size s)
  | done (mutable : s.inode.immutable = false) (hret : (setattrSize D attr.size s).1 = 0)
      (mode : BitVec 16) (uid gid : Nat) :
      SetattrDone D attr s (0, setAttributes mode uid gid (setattrSize D attr.size s).2)

theorem setattr_done (prepared transferred : Int) (attr : ZoneIattr) :
    SetattrDone D attr s (zonefsInodeSetattr D prepared transferred attr s) := by
  rw [zonefsInodeSetattr]
  by_cases himmutable : s.inode.immutable = true
  · rw [if_pos himmutable]
    exact .refused _
  rw [if_neg himmutable]
  split
  · exact .refused _
  split
  · exact .refused _
  have mutable := Bool.eq_false_iff.mpr himmutable
  simp only
  split
  · exact .failed mutable
  · rename_i hret
    exact .done mutable (not_not.mp hret) _ _ _

theorem sections_setattrSize (size : Option Int) : AnySections D s (setattrSize D size s).2 := by
  cases size with
  | none => exact .refl
  | some isize => exact (modeKept_truncate isize).any

theorem sections_setattr (prepared transferred : Int) (attr : ZoneIattr) :
    AnySections D s (zonefsInodeSetattr D prepared transferred attr s).2 := by
  have done := setattr_done (D := D) (s := s) prepared transferred attr
  generalize zonefsInodeSetattr D prepared transferred attr s = r at done ⊢
  cases done with
  | refused ret => exact .refl
  | failed mutable => exact sections_setattrSize attr.size
  | done mutable hret mode uid gid =>
    exact (sections_setattrSize attr.size).trans (.one (x := .attributes mode uid gid) rfl rfl)

/-- The VFS takes no negative position. -/
def FileCall.Possible (s : FileState δ) : FileCall → Prop
  | .release fModeWrite => zonefsSeqFileNeedWro fModeWrite s.z → 0 < s.inode.iWrRefcnt
  | .writeIter iocb _ | .readIter iocb _ => 0 ≤ iocb.kiPos
  | .spliceRead pos _ => 0 ≤ pos
  | _ => True

instance (s : FileState δ) : (c : FileCall) → Decidable (c.Possible s)
  | .release fModeWrite =>
    inferInstanceAs (Decidable (zonefsSeqFileNeedWro fModeWrite s.z → 0 < s.inode.iWrRefcnt))
  | .writeIter iocb _ | .readIter iocb _ => inferInstanceAs (Decidable (0 ≤ iocb.kiPos))
  | .spliceRead pos _ => inferInstanceAs (Decidable (0 ≤ pos))
  | .open _ _ | .endIo _ _ _ | .fsync | .truncate _ | .setattr _ _ _ => isTrue trivial

/-- The calls that neither write nor truncate. -/
def FileCall.passive : FileCall → Bool
  | .open _ _ | .release _ | .readIter _ _ | .spliceRead _ _ | .fsync => true
  | .writeIter _ _ | .endIo _ _ _ | .truncate _ | .setattr _ _ _ => false

/-- The calls that may set the size. -/
def FileCall.truncates : FileCall → Bool
  | .truncate _ => true
  | .setattr _ _ attr => attr.size.isSome
  | _ => false

theorem call_passive {c : FileCall} (hkind : c.passive) (h : c.Possible s) :
    Passive D s (c.exec D s).2 := by
  cases c with
  | «open» fModeWrite opened => exact passive_open fModeWrite opened
  | release fModeWrite => exact passive_release h
  | readIter iocb count => exact (io_readIter iocb count).passive
  | spliceRead pos len => exact (io_spliceRead pos len).passive
  | fsync => exact io_fsync.passive
  | writeIter iocb data => cases hkind
  | endIo iocb size error => cases hkind
  | truncate isize => cases hkind
  | setattr prepared transferred attr => cases hkind

theorem call_modeKept {c : FileCall} (hset : ∀ p t attr, c ≠ .setattr p t attr)
    (h : c.Possible s) : ModeKept D s (c.exec D s).2 := by
  cases c with
  | writeIter iocb data => exact modeKept_writeIter iocb data
  | endIo iocb size error => exact modeKept_endIo iocb size error
  | truncate isize => exact modeKept_truncate isize
  | setattr prepared transferred attr => exact absurd rfl (hset prepared transferred attr)
  | «open» fModeWrite opened => exact (call_passive rfl h).modeKept
  | release fModeWrite => exact (call_passive rfl h).modeKept
  | readIter iocb count => exact (call_passive rfl h).modeKept
  | spliceRead pos len => exact (call_passive rfl h).modeKept
  | fsync => exact (call_passive rfl h).modeKept

/-- Every call is some sections one after the other. -/
theorem call_sections {c : FileCall} (h : c.Possible s) : AnySections D s (c.exec D s).2 := by
  by_cases hset : ∃ p t attr, c = .setattr p t attr
  · obtain ⟨prepared, transferred, attr, rfl⟩ := hset
    exact sections_setattr prepared transferred attr
  · refine (call_modeKept ?_ h).any
    intro p t attr hc
    exact hset ⟨p, t, attr, hc⟩

end

section

variable {ι δ : Type} [DecidableEq ι]

/-- The state that a file is worked on in, if its inode is in the cache. -/
def at? (s : Fs ι δ) (i : ι) : Option (FileState δ) :=
  (s.member i).inode.map fun inode => ⟨s.shared.sbi, (s.member i).z, inode, s.shared.dev⟩

/-- What a file state says about the shared part and about the file. -/
def parts (f : FileState δ) : Shared δ × ZoneFile := (⟨f.sbi, f.dev⟩, ⟨f.z, some f.inode⟩)

omit [DecidableEq ι] in
theorem parts_of_at? {s : Fs ι δ} {i : ι} {f : FileState δ} (h : at? s i = some f) :
    parts f = (s.shared, s.member i) := by
  obtain ⟨inode, hinode, rfl⟩ := Option.map_eq_some_iff.mp h
  cases hm : s.member i with
  | mk z inode' =>
    rw [hm] at hinode
    cases hinode
    simp [parts]

/-- The inode comes into the cache. -/
def lookupInode (s : Fs ι δ) (i : ι) : Fs ι δ :=
  match (s.member i).inode with
  | some _ => s
  | none =>
    let (z, inode) := zonefsGetFileInode (s.member i).z
    s.set i (s.shared, ⟨z, some inode⟩)

/-- An inode that has no writer leaves the cache. -/
def evictInode (s : Fs ι δ) (i : ι) : Option (Fs ι δ) :=
  match (s.member i).inode with
  | none => none
  | some inode =>
    if inode.iWrRefcnt = 0 then some (s.set i (s.shared, { s.member i with inode := none }))
    else none

/-- The VFS changes `SB_RDONLY` if the options could be parsed. -/
def remount (data : Option (List UInt8)) (rdonly : Bool) (s : Fs ι δ) : Int × Fs ι δ :=
  let (ret, sbi) := zonefsRemount data s.shared.sbi
  (ret, { s with
    shared := { s.shared with sbi := if ret = 0 then { sbi with rdonly := rdonly } else sbi } })

/-- The last writer closes the file, and the device does not close the zone. -/
def Section.closeFails (D : BlockDevice δ) (f : FileState δ) : Section δ → Bool
  | .writeClose =>
    f.inode.iWrRefcnt == 1 && f.z.zoneOpen && (zonefsInodeZoneMgmt D .zoneClose f).1 != 0
  | _ => false

inductive Move (ι δ : Type) where
  | section (i : ι) (x : Section δ)
  | lookup (i : ι)
  | evict (i : ι)
  | remount (data : Option (List UInt8)) (rdonly : Bool)

/-- One move; the answer is whether a close failed. -/
def moveStep (D : BlockDevice δ) (s : Fs ι δ) : Move ι δ → Option (Bool × Fs ι δ)
  | .section i x =>
    match at? s i with
    | none => none
    | some f =>
      if x.possible f then some (x.closeFails D f, s.set i (parts (x.run D f))) else none
  | .lookup i => some (false, lookupInode s i)
  | .evict i => (evictInode s i).map fun s' => (false, s')
  | .remount data rdonly => some (false, (remount data rdonly s).2)

/-- A user, or the kernel, does one thing after the other. -/
inductive Serial (ι : Type) where
  | call (i : ι) (c : FileCall)
  | lookup (i : ι)
  | evict (i : ι)
  | remount (data : Option (List UInt8)) (rdonly : Bool)

def serialStep (D : BlockDevice δ) (s : Fs ι δ) : Serial ι → Option (Int × Fs ι δ)
  | .call i c =>
    match at? s i with
    | none => none
    | some f =>
      if c.Possible f then
        let (ret, f') := c.exec D f
        some (ret, s.set i (parts f'))
      else none
  | .lookup i => some (0, lookupInode s i)
  | .evict i => (evictInode s i).map fun s' => (0, s')
  | .remount data rdonly => some (remount data rdonly s)

/-- A request ends that has not ended in its call. -/
def Serial.isEnd : Serial ι → Bool
  | .call _ (.endIo _ _ _) => true
  | _ => false

theorem at?_set (s : Fs ι δ) (i : ι) (f : FileState δ) : at? (s.set i (parts f)) i = some f := by
  simp [at?, parts]

theorem set_parts {s : Fs ι δ} {i : ι} {f : FileState δ} (h : at? s i = some f) :
    s.set i (parts f) = s := by
  rw [parts_of_at? h, Family.set_self]

omit [DecidableEq ι] in
theorem shared_of_at? {s : Fs ι δ} {i : ι} {f : FileState δ} (h : at? s i = some f) :
    s.shared = ⟨f.sbi, f.dev⟩ :=
  (congrArg Prod.fst (parts_of_at? h)).symm

omit [DecidableEq ι] in
theorem member_of_at? {s : Fs ι δ} {i : ι} {f : FileState δ} (h : at? s i = some f) :
    s.member i = ⟨f.z, some f.inode⟩ :=
  (congrArg Prod.snd (parts_of_at? h)).symm

/-- A new inode has the size that the zone gives it, and nobody has it open. -/
theorem getFileInode_new (z : ZonefsZone) : (zonefsGetFileInode z).2.iSize = z.zWpoffset ∧
    (zonefsGetFileInode z).2.iWrRefcnt = 0 := by
  rw [zonefsGetFileInode, zonefsInodeUpdateMode]
  simp only
  split
  · exact ⟨rfl, rfl⟩
  · split
    · exact ⟨rfl, rfl⟩
    · exact ⟨rfl, rfl⟩

/-- What a lookup does to the zone. -/
structure LookedUp (z z' : ZonefsZone) : Prop where
  flags : { z' with zoneInitMode := z.zoneInitMode, zMode := z.zMode } = z
  initMode : z'.zoneInitMode = false

theorem lookedUp (z : ZonefsZone) : LookedUp z (zonefsGetFileInode z).1 := ⟨rfl, rfl⟩

theorem lookupInode_eq (s : Fs ι δ) (i : ι) :
    lookupInode s i = s ∨ (s.member i).inode = none ∧
      lookupInode s i = s.set i (s.shared, ⟨(zonefsGetFileInode (s.member i).z).1,
        some (zonefsGetFileInode (s.member i).z).2⟩) := by
  rw [lookupInode]
  cases (s.member i).inode with
  | some inode => exact .inl rfl
  | none => exact .inr ⟨rfl, rfl⟩

theorem evictInode_eq_some {s s' : Fs ι δ} {i : ι} (h : evictInode s i = some s') :
    ∃ inode, (s.member i).inode = some inode ∧ inode.iWrRefcnt = 0 ∧
      s' = s.set i (s.shared, { s.member i with inode := none }) := by
  rw [evictInode] at h
  cases hinode : (s.member i).inode with
  | none =>
    rw [hinode] at h
    cases h
  | some inode =>
    rw [hinode] at h
    by_cases hzero : inode.iWrRefcnt = 0
    · simp only [if_pos hzero] at h
      cases h
      exact ⟨inode, rfl, hzero, rfl⟩
    · simp only [if_neg hzero] at h
      cases h

/-- What a remount does to the super block. -/
structure Remounted (sbi sbi' : SbInfo) : Prop where
  frame : sbi' = { setErrors sbi sbi'.errorsRo sbi'.errorsZro sbi'.errorsZol sbi'.errorsRepair with
    explicitOpen := sbi'.explicitOpen
    rdonly := sbi'.rdonly }
  explicitOpen : sbi.explicitOpen = true → sbi'.explicitOpen = true
  policy : ∀ p, InForce sbi p → ∃ q, InForce sbi' q

omit [DecidableEq ι] in
theorem remount_eq (data : Option (List UInt8)) (rdonly : Bool) (s : Fs ι δ) :
    ∃ sbi', Remounted s.shared.sbi sbi' ∧
      (remount data rdonly s).2 = { s with shared := { s.shared with sbi := sbi' } } := by
  have parsed : Reparsed s.shared.sbi (zonefsRemount data s.shared.sbi).2 :=
    reparsed data s.shared.sbi
  refine ⟨(remount data rdonly s).2.shared.sbi, ?_, rfl⟩
  rw [remount]
  generalize zonefsRemount data s.shared.sbi = r at parsed ⊢
  obtain ⟨ret, sbi'⟩ := r
  simp only at parsed ⊢
  have frame := parsed.frame
  split
  · refine ⟨?_, parsed.explicitOpen, ?_⟩
    · exact congrArg (fun sbi : SbInfo => { sbi with rdonly := rdonly }) frame
    · intro p h
      obtain ⟨q, force⟩ := parsed.policy p h
      exact ⟨q, force.ro, force.zro, force.zol, force.repair⟩
  · refine ⟨?_, parsed.explicitOpen, parsed.policy⟩
    exact congrArg (fun x : SbInfo => { x with rdonly := sbi'.rdonly }) frame

/-- What is done without a file being worked on. -/
inductive Housekeeping (s : Fs ι δ) : Fs ι δ → Prop where
  | lookup (i : ι) (hnone : (s.member i).inode = none) :
      Housekeeping s (s.set i (s.shared, ⟨(zonefsGetFileInode (s.member i).z).1,
        some (zonefsGetFileInode (s.member i).z).2⟩))
  | evict (i : ι) (inode : ZonefsInode) (hinode : (s.member i).inode = some inode)
      (unused : inode.iWrRefcnt = 0) :
      Housekeeping s (s.set i (s.shared, { s.member i with inode := none }))
  | remount (sbi' : SbInfo) (remounted : Remounted s.shared.sbi sbi') :
      Housekeeping s { s with shared := { s.shared with sbi := sbi' } }
  | nothing : Housekeeping s s

theorem housekeeping_lookup (s : Fs ι δ) (i : ι) : Housekeeping s (lookupInode s i) := by
  rcases lookupInode_eq s i with heq | ⟨hnone, heq⟩
  · rw [heq]
    exact .nothing
  · rw [heq]
    exact .lookup i hnone

theorem housekeeping_evict {s s' : Fs ι δ} {i : ι} (h : evictInode s i = some s') :
    Housekeeping s s' := by
  obtain ⟨inode, hinode, hzero, rfl⟩ := evictInode_eq_some h
  exact .evict i inode hinode hzero

theorem housekeeping_remount (data : Option (List UInt8)) (rdonly : Bool) (s : Fs ι δ) :
    Housekeeping s (remount data rdonly s).2 := by
  obtain ⟨sbi', remounted, heq⟩ := remount_eq data rdonly s
  rw [heq]
  exact .remount sbi' remounted

/-- What a move comes to. -/
inductive Moved (D : BlockDevice δ) (s : Fs ι δ) : Bool → Fs ι δ → Prop where
  | section (i : ι) (f : FileState δ) (x : Section δ) (hat : at? s i = some f)
      (possible : x.possible f) :
      Moved D s (x.closeFails D f) (s.set i (parts (x.run D f)))
  | other (s' : Fs ι δ) (h : Housekeeping s s') : Moved D s false s'

theorem moved {D : BlockDevice δ} {s s' : Fs ι δ} {m : Move ι δ} {failed : Bool}
    (hstep : moveStep D s m = some (failed, s')) : Moved D s failed s' := by
  cases m with
  | «section» i x =>
    rw [moveStep] at hstep
    cases hat : at? s i with
    | none =>
      rw [hat] at hstep
      cases hstep
    | some f =>
      rw [hat] at hstep
      by_cases hx : x.possible f
      · simp only [if_pos hx] at hstep
        cases hstep
        exact .section i f x hat hx
      · simp only [if_neg hx] at hstep
        cases hstep
  | lookup i =>
    obtain ⟨rfl, rfl⟩ := Prod.mk.inj (Option.some.inj hstep)
    exact .other _ (housekeeping_lookup s i)
  | evict i =>
    obtain ⟨s₁, hevicted, heq⟩ := Option.map_eq_some_iff.mp hstep
    obtain ⟨rfl, rfl⟩ := Prod.mk.inj heq
    exact .other _ (housekeeping_evict hevicted)
  | remount data rdonly =>
    obtain ⟨rfl, rfl⟩ := Prod.mk.inj (Option.some.inj hstep)
    exact .other _ (housekeeping_remount data rdonly s)

/-- What a call, or another thing that is done, comes to. -/
inductive Done (D : BlockDevice δ) (s : Fs ι δ) : Serial ι → Int → Fs ι δ → Prop where
  | call (i : ι) (f : FileState δ) (c : FileCall) (hat : at? s i = some f)
    (possible : c.Possible f) :
      Done D s (.call i c) (c.exec D f).1 (s.set i (parts (c.exec D f).2))
  | other (c : Serial ι) (ret : Int) (s' : Fs ι δ) (hcall : ∀ i k, c ≠ .call i k)
      (h : Housekeeping s s') : Done D s c ret s'

theorem serial_done {D : BlockDevice δ} {s s' : Fs ι δ} {c : Serial ι} {ret : Int}
    (hstep : serialStep D s c = some (ret, s')) : Done D s c ret s' := by
  cases c with
  | call i c =>
    rw [serialStep] at hstep
    cases hat : at? s i with
    | none =>
      rw [hat] at hstep
      cases hstep
    | some f =>
      rw [hat] at hstep
      by_cases hc : c.Possible f
      · simp only [if_pos hc] at hstep
        cases hstep
        exact .call i f c hat hc
      · simp only [if_neg hc] at hstep
        cases hstep
  | lookup i =>
    obtain ⟨rfl, rfl⟩ := Prod.mk.inj (Option.some.inj hstep)
    exact .other _ _ _ (by rintro _ _ ⟨⟩) (housekeeping_lookup s i)
  | evict i =>
    obtain ⟨s₁, hevicted, heq⟩ := Option.map_eq_some_iff.mp hstep
    obtain ⟨rfl, rfl⟩ := Prod.mk.inj heq
    exact .other _ _ _ (by rintro _ _ ⟨⟩) (housekeeping_evict hevicted)
  | remount data rdonly =>
    obtain ⟨rfl, rfl⟩ := Prod.mk.inj (Option.some.inj hstep)
    exact .other _ _ _ (by rintro _ _ ⟨⟩) (housekeeping_remount data rdonly s)

/-- The sections of a file as moves. -/
theorem sections_keep {D : BlockDevice δ} {Inv : Fs ι δ → Prop}
    (kept : ∀ s failed s', Inv s → Moved D s failed s' → Inv s')
    {s : Fs ι δ} {i : ι} {f f' : FileState δ} (h : AnySections D f f')
    (inv : Inv (s.set i (parts f))) : Inv (s.set i (parts f')) := by
  induction h with
  | refl => exact inv
  | tail _ hlast ih =>
    obtain ⟨x, _, hx, rfl⟩ := hlast
    have next := kept _ _ _ ih (.section i _ x (at?_set s i _) hx)
    rwa [Family.set_set] at next

/-- What moves in any order keep, one call after the other keeps. -/
theorem serial_keeps {D : BlockDevice δ} {Inv : Fs ι δ → Prop}
    (kept : ∀ s failed s', Inv s → Moved D s failed s' → Inv s')
    {s s' : Fs ι δ} {c : Serial ι} {ret : Int} (inv : Inv s)
    (hstep : serialStep D s c = some (ret, s')) : Inv s' := by
  cases serial_done hstep with
  | call i f c hat possible =>
    refine sections_keep kept (call_sections possible) ?_
    rwa [set_parts hat]
  | other c ret s' hcall h => exact kept s false s' inv (.other s' h)

end

end ZonefsRuns
