import HodoZns.ZonedDevices
import HodoZns.ZonefsBadZones

/-!
# Contents of sequential files

The file of a sequential zone shows the bytes in front of its size. On a device that
keeps what is written to its zones, nothing that is shown is lost but by a truncation
or with the zone, whatever errors the device reports, and a read returns what is
shown.
-/

namespace ZonefsContents

open CallRuns Families ZonefsZones ZonefsFiles ZonefsOptions ZonefsRuns ZonefsSteps ZonefsMounts
  ZonefsCounts ZonefsBadZones ZonedDevices

section

variable {δ : Type} {D : BlockDevice δ} {E : List Extent} {written : δ → Nat → List UInt8}
  {s s' : FileState δ}

/-- What has been written to the zone of the file. -/
def content (written : δ → Nat → List UInt8) (s : FileState δ) : List UInt8 :=
  written s.dev s.z.zSector

def view (written : δ → Nat → List UInt8) (s : FileState δ) : List UInt8 :=
  (content written s).take s.inode.iSize.toNat

/-- The size is not behind the write pointer of the zone. -/
structure Ordered (s : FileState δ) : Prop where
  nonneg : 0 ≤ s.inode.iSize
  le : s.inode.iSize ≤ s.z.zWpoffset

/-- All in front of the size has been written. -/
structure Backed (written : δ → Nat → List UInt8) (s : FileState δ) : Prop where
  nonneg : 0 ≤ s.inode.iSize
  le : s.inode.iSize ≤ (content written s).length

/-- The size is where the next write goes, and all in front of it has been written. -/
structure Settled (written : δ → Nat → List UInt8) (s : FileState δ) : Prop
    extends Backed written s where
  wp : s.z.zWpoffset = s.inode.iSize

/-- The zone is one of the sequential zones of the device. -/
structure Sequential (E : List Extent) (z : ZonefsZone) : Prop where
  seq : z.zoneCnv = false
  mem : extentOf z ∈ E

theorem Sequential.same {z z' : ZonefsZone} (h : Sequential E z) (same : SameZone z z') :
    Sequential E z' := by
  constructor
  · exact same.cnv.trans h.seq
  · have hz : extentOf z' = extentOf z := by
      rw [extentOf, extentOf, same.sector, same.size, same.capacity]
    rw [hz]
    exact h.mem

/-- Nothing that is shown is lost unless the zone is, and the other zones are left alone. -/
structure Safe (D : BlockDevice δ) (E : List Extent) (written : δ → Nat → List UInt8)
    (s s' : FileState δ) : Prop extends Kept s s' where
  elsewhere : Elsewhere E written s.z.zSector s.dev s'.dev
  ordered : Ordered s → Ordered s'
  settled : Reports D E → Settled written s → Settled written s'
  shown : Ordered s → s'.z.zoneOffline = true ∨ view written s <+: view written s'

theorem Safe.refl (s : FileState δ) : Safe D E written s s :=
  ⟨.refl s, fun _ _ _ => rfl, id, fun _ => id, fun _ => .inr List.prefix_rfl⟩

theorem Safe.trans {s s' s'' : FileState δ} (h : Safe D E written s s')
    (h' : Safe D E written s' s'') : Safe D E written s s'' where
  toKept := h.toKept.trans h'.toKept
  elsewhere := by
    intro e he hne
    rw [h'.elsewhere e he (h.zone.sector ▸ hne), h.elsewhere e he hne]
  ordered := h'.ordered ∘ h.ordered
  settled := fun reports settled => h'.settled reports (h.settled reports settled)
  shown := by
    intro ordered
    rcases h'.shown (h.ordered ordered) with offline | hview'
    · exact .inl offline
    · rcases h.shown ordered with offline | hview
      · exact .inl (h'.zone.offline offline)
      · exact .inr (hview.trans hview')

theorem take_prefix_take {a b : List UInt8} (h : a <+: b) {m n : Int} (hle : m ≤ n) :
    a.take m.toNat <+: b.take n.toNat :=
  (h.take m.toNat).trans (List.take_prefix_take_left (Int.toNat_le_toNat hle))

/-- A step that leaves the size, the write pointer and all that has been written alone. -/
theorem Safe.same (kept : Kept s s') (untouched : Untouched E written s.dev s'.dev)
    (seq : Sequential E s.z) (size : s'.inode.iSize = s.inode.iSize)
    (wp : s'.z.zWpoffset = s.z.zWpoffset) : Safe D E written s s' := by
  have hcontent : content written s' = content written s := by
    rw [content, content, kept.zone.sector]
    exact untouched _ seq.mem
  refine ⟨kept, fun e he _ => untouched e he, ?_, ?_, ?_⟩
  · intro ordered
    exact ⟨size ▸ ordered.nonneg, size ▸ wp ▸ ordered.le⟩
  · intro _ settled
    refine ⟨⟨size ▸ settled.nonneg, ?_⟩, ?_⟩
    · rw [size, hcontent]
      exact settled.le
    · rw [wp, size]
      exact settled.wp
  · intro _
    rw [view, view, hcontent, size]
    exact .inr List.prefix_rfl

/-- What the size and the write pointer are after an error, if `c` is in the zone. -/
inductive Resized (c : List UInt8) (write : Bool) (s s' : FileState δ) : Prop where
  | unchanged (quiet : write = false) (size : s'.inode.iSize = s.inode.iSize)
      (wp : s'.z.zWpoffset = s.z.zWpoffset)
  | lost (offline : s'.z.zoneOffline = true) (size : s'.inode.iSize = 0)
      (wp : s'.z.zWpoffset = 0)
  | kept (size : s'.inode.iSize = s.inode.iSize) (wp : s'.z.zWpoffset = s.inode.iSize)
  | found (size : s'.inode.iSize = c.length) (wp : s'.z.zWpoffset = c.length)

theorem setDataSize_eq (n : Int) (s : FileState δ) :
    (setDataSize n s).inode.iSize = n ∧ (setDataSize n s).z.zWpoffset = n ∧
      (setDataSize n s).dev = s.dev := by
  refine ⟨?_, congrArg ZonefsZone.zWpoffset (accountActive_z _), ?_⟩
  · rw [setDataSize]
    simp only [zonefsInodeAccountActive, zonefsISizeWrite]
    split
    · rfl
    · rfl
  · rw [setDataSize]
    simp only [zonefsInodeAccountActive, zonefsISizeWrite, zonefsUpdateStats]
    split
    · split
      · rfl
      · rfl
    · split
      · rfl
      · rfl

/-- What a true report comes to. -/
theorem checkCondition_tells {z : ZonefsZone} {zone : BlkZone} {c : List UInt8}
    (seq : z.zoneCnv = false) (tells : Tells zone (extentOf z) c) :
    (zonefsCheckZoneCondition z zone).2.isBad = true ∨
      (zonefsCheckZoneCondition z zone).1 = c.length := by
  rw [Tells] at tells
  rw [zonefsCheckZoneCondition]
  cases hcond : zone.cond with
  | offline => simp [ZonefsZone.isBad]
  | readonly => simp [ZonefsZone.isBad]
  | full =>
    rw [hcond] at tells
    exact .inr tells.symm
  | notWp | empty | impOpen | expOpen | closed =>
    rw [hcond] at tells
    simp only [seq]
    exact .inr tells

theorem errorPolicy_dev (dataSize : Int) (s : FileState δ) :
    (errorPolicy dataSize s).2.dev = s.dev := by
  rw [errorPolicy]
  split
  · rfl
  split
  · rfl
  split
  · rfl
  · rfl

theorem handleIoError_dev (zone : BlkZone) (write : Bool) (s : FileState δ) :
    (zonefsHandleIoError zone write s).dev = s.dev := by
  rw [zonefsHandleIoError]
  simp only
  split
  · rfl
  · exact (setDataSize_eq _ _).2.2.trans (errorPolicy_dev _ _)

theorem handleIoError_resized {zone : BlkZone} {c : List UInt8} (write : Bool)
    (seq : s.z.zoneCnv = false) (tells : Tells zone (extentOf s.z) c) :
    Resized c write s (zonefsHandleIoError zone write s) := by
  have told := checkCondition_tells seq tells
  have unbad := checkCondition_eq s.z zone
  rw [zonefsHandleIoError]
  generalize zonefsCheckZoneCondition s.z zone = r at told unbad
  obtain ⟨dataSize, z⟩ := r
  simp only at told unbad ⊢
  split
  · rename_i hquiet
    rw [Bool.and_eq_true, Bool.and_eq_true, Bool.not_eq_true', Bool.not_eq_true'] at hquiet
    refine .unchanged hquiet.1.2 rfl ?_
    change z.zWpoffset = s.z.zWpoffset
    rw [unbad hquiet.1.1]
  · obtain ⟨size, wp, _⟩ := setDataSize_eq (errorPolicy dataSize { s with z := z }).1
      (errorFlags (errorPolicy dataSize { s with z := z }).2)
    have flags := unfenced_setDataSize (errorPolicy dataSize { s with z := z }).1
      (errorFlags (errorPolicy dataSize { s with z := z }).2)
    by_cases hoffline : (z.zoneOffline || s.sbi.errorsZol) = true
    · have policy : (errorPolicy dataSize { s with z := z }).1 = 0 ∧
          (errorPolicy dataSize { s with z := z }).2.z.zoneOffline = true := by
        rw [errorPolicy, if_pos hoffline]
        exact ⟨rfl, rfl⟩
      exact .lost (flags.offline.trans policy.2) (size.trans policy.1) (wp.trans policy.1)
    by_cases hreadonly : (z.zoneReadonly || s.sbi.errorsZro) = true
    · have policy : (errorPolicy dataSize { s with z := z }).1 = s.inode.iSize := by
        rw [errorPolicy, if_neg hoffline, if_pos hreadonly]
      exact .kept (size.trans policy) (wp.trans policy)
    by_cases hro : (s.sbi.errorsRo && decide (dataSize > s.inode.iSize)) = true
    · have policy : (errorPolicy dataSize { s with z := z }).1 = s.inode.iSize := by
        rw [errorPolicy, if_neg hoffline, if_neg hreadonly, if_pos hro]
      exact .kept (size.trans policy) (wp.trans policy)
    · have policy : (errorPolicy dataSize { s with z := z }).1 = dataSize := by
        rw [errorPolicy, if_neg hoffline, if_neg hreadonly, if_neg hro]
      have hsize : dataSize = c.length := by
        rw [Bool.or_eq_true, not_or] at hoffline hreadonly
        refine told.resolve_left fun hbad => ?_
        rcases Bool.or_eq_true_iff.mp hbad with h | h
        · exact hreadonly.1 h
        · exact hoffline.1 h
      exact .found (size.trans (policy.trans hsize)) (wp.trans (policy.trans hsize))

/-- What an error comes to, unless the report fails. -/
structure Reported (D : BlockDevice δ) (E : List Extent) (written : δ → Nat → List UInt8)
    (write : Bool) (s s' : FileState δ) : Prop where
  untouched : Untouched E written s.dev s'.dev
  sizes : Resized (content written s) write s s' ∨
    ¬ Reports D E ∧ s'.inode.iSize = s.inode.iSize ∧ s'.z.zWpoffset = s.z.zWpoffset

theorem ioError_reported (law : ZonedDevice D E written) (seq : Sequential E s.z) (write : Bool) :
    Reported D E written write s (zonefsIoError D write s) := by
  have report := law.report _ seq.mem s.dev
  rw [zonefsIoError, seq.seq]
  simp only [Bool.false_eq_true, if_false]
  cases hreport : D.reportZone s.z.zSector s.dev with
  | mk told dev =>
    have hdev : D.reportZone (extentOf s.z).sector s.dev = (told, dev) := hreport
    rw [hdev] at report
    cases told with
    | none =>
      refine ⟨report.1, .inr ⟨fun reports => ?_, rfl, rfl⟩⟩
      have := reports _ seq.mem s.dev
      rw [hdev] at this
      cases this
    | some zone =>
      have resized := handleIoError_resized (s := { s with dev := dev })
        (c := content written s) write seq.seq (report.2 zone rfl)
      constructor
      · intro e he
        rw [handleIoError_dev]
        exact report.1 e he
      · refine .inl ?_
        cases resized with
        | unchanged quiet size wp => exact .unchanged quiet size wp
        | lost offline size wp => exact .lost offline size wp
        | kept size wp => exact .kept size wp
        | found size wp => exact .found size wp

theorem Reported.content {write : Bool} (h : Reported D E written write s s')
    (seq : Sequential E s.z) (same : SameZone s.z s'.z) :
    content written s' = content written s := by
  rw [ZonefsContents.content, ZonefsContents.content, same.sector]
  exact h.untouched _ seq.mem

theorem safe_ioError (law : ZonedDevice D E written) (seq : Sequential E s.z) (write : Bool) :
    Safe D E written s (zonefsIoError D write s) := by
  have reported := ioError_reported law seq write
  have kept := (quiet_ioError (D := D) write s).toKept
  have hcontent := reported.content seq kept.zone
  refine ⟨kept, fun e he _ => reported.untouched e he, ?_, ?_, ?_⟩
  · intro ordered
    rcases reported.sizes with
      (⟨_, size, wp⟩ | ⟨_, size, wp⟩ | ⟨size, wp⟩ | ⟨size, wp⟩) | ⟨_, size, wp⟩
    · exact ⟨size ▸ ordered.nonneg, size ▸ wp ▸ ordered.le⟩
    · exact ⟨size.ge, by rw [size, wp]⟩
    · exact ⟨size ▸ ordered.nonneg, by rw [size, wp]⟩
    · exact ⟨size ▸ Int.natCast_nonneg _, by rw [size, wp]⟩
    · exact ⟨size ▸ ordered.nonneg, size ▸ wp ▸ ordered.le⟩
  · intro reports settled
    have hnonneg := settled.nonneg
    have hle := settled.le
    have hwp := settled.wp
    rcases reported.sizes with (⟨_, size, wp⟩ | ⟨_, size, wp⟩ | ⟨size, wp⟩ | ⟨size, wp⟩) | ⟨none, _⟩
    · refine ⟨⟨by omega, ?_⟩, by omega⟩
      rw [hcontent]
      omega
    · exact ⟨⟨size.ge, by omega⟩, by omega⟩
    · refine ⟨⟨by omega, ?_⟩, by omega⟩
      rw [hcontent]
      omega
    · refine ⟨⟨by omega, ?_⟩, by omega⟩
      rw [hcontent]
      omega
    · exact absurd reports none
  · intro _
    rw [view, view, hcontent]
    rcases reported.sizes with
      (⟨_, size, _⟩ | ⟨offline, _, _⟩ | ⟨size, _⟩ | ⟨size, _⟩) | ⟨_, size, _⟩
    · exact .inr (size ▸ List.prefix_rfl)
    · exact .inl offline
    · exact .inr (size ▸ List.prefix_rfl)
    · rw [size, Int.toNat_natCast, List.take_length]
      exact .inr (List.take_prefix _ _)
    · exact .inr (size ▸ List.prefix_rfl)

/-- After a write that failed the report puts the size and the write pointer right. -/
theorem settled_recover (law : ZonedDevice D E written) (reports : Reports D E)
    (seq : Sequential E s.z) (backed : Backed written s) :
    Settled written (zonefsIoError D true s) := by
  have reported := ioError_reported law seq true
  have hcontent := reported.content seq (quiet_ioError (D := D) true s).toKept.zone
  have hnonneg := backed.nonneg
  have hle := backed.le
  rcases reported.sizes with (⟨quiet, _⟩ | ⟨_, size, wp⟩ | ⟨size, wp⟩ | ⟨size, wp⟩) | ⟨none, _⟩
  · cases quiet
  · exact ⟨⟨size.ge, by omega⟩, by omega⟩
  · refine ⟨⟨by omega, ?_⟩, by omega⟩
    rw [hcontent]
    omega
  · refine ⟨⟨by omega, ?_⟩, by omega⟩
    rw [hcontent]
    omega
  · exact absurd reports none

/-- What a zone management command comes to. -/
structure MgmtDone (E : List Extent) (written : δ → Nat → List UInt8) (op : ReqOp)
    (s : FileState δ) (r : Int × FileState δ) : Prop where
  dev : r.2 = { s with dev := r.2.dev }
  managed : Managed (extentOf s.z) (content written s)
    (if op = .zoneClose ∧ s.z.zWpoffset = 0 then .zoneReset else op) r.1 (content written r.2)
  elsewhere : Elsewhere E written s.z.zSector s.dev r.2.dev

theorem mgmt_done (law : ZonedDevice D E written) (seq : Sequential E s.z) (op : ReqOp) :
    MgmtDone E written op s (zonefsInodeZoneMgmt D op s) := by
  obtain ⟨managed, elsewhere⟩ := law.mgmt _ seq.mem
    (if op = .zoneClose ∧ s.z.zWpoffset = 0 then .zoneReset else op) s.dev
  exact ⟨rfl, managed, elsewhere⟩

/-- An open and a close leave alone what has been written. -/
theorem Managed.same {e : Extent} {before after : List UInt8} {op : ReqOp} {ret : Int}
    (h : Managed e before op ret after) (hop : op = .zoneOpen ∨ op = .zoneClose) :
    after = before := by
  cases h with
  | failed op ret hret => rfl
  | opened => rfl
  | closed => rfl
  | reset => rcases hop with h | h <;> cases h
  | finished padding h => rcases hop with h | h <;> cases h

theorem reset_nothing {e : Extent} {before after : List UInt8} {ret : Int}
    (h : Managed e before .zoneReset ret after) (hempty : before = []) : after = before := by
  cases h with
  | failed op ret hret => rfl
  | reset => exact hempty.symm

theorem reset_clears {e : Extent} {before after : List UInt8} {ret : Int}
    (h : Managed e before .zoneReset ret after) (hret : ret = 0) : after = [] := by
  cases h with
  | failed op ret h => exact absurd hret h
  | reset => rfl

theorem untouched_of_elsewhere {sector : Nat} {d d' : δ} (h : Elsewhere E written sector d d')
    (own : written d' sector = written d sector) : Untouched E written d d' := by
  intro e he
  by_cases hsector : e.sector = sector
  · rw [hsector]
    exact own
  · exact h e he hsector

theorem untouched_zoneOpen (law : ZonedDevice D E written) (seq : Sequential E s.z) :
    Untouched E written s.dev (zonefsInodeZoneMgmt D .zoneOpen s).2.dev := by
  have done := mgmt_done law seq .zoneOpen
  refine untouched_of_elsewhere done.elsewhere ?_
  exact Managed.same done.managed (.inl (if_neg (by simp)))

/-- What a step leaves alone that only opens or closes. -/
structure Framed (E : List Extent) (written : δ → Nat → List UInt8)
    (s s' : FileState δ) : Prop where
  untouched : Untouched E written s.dev s'.dev
  size : s'.inode.iSize = s.inode.iSize
  wp : s'.z.zWpoffset = s.z.zWpoffset

theorem Framed.safe (h : Framed E written s s') (kept : Kept s s') (seq : Sequential E s.z) :
    Safe D E written s s' :=
  .same kept h.untouched seq h.size h.wp

theorem framed_refl (s : FileState δ) : Framed E written s s := ⟨fun _ _ => rfl, rfl, rfl⟩

theorem accountActive_wp (s : FileState δ) :
    (zonefsInodeAccountActive s).z.zWpoffset = s.z.zWpoffset := by
  have h := congrArg ZonefsZone.zWpoffset (accountActive_z s)
  exact h

theorem framed_openZone (law : ZonedDevice D E written) (seq : Sequential E s.z) :
    Framed E written s (openZone D s).2 := by
  have untouched := untouched_zoneOpen law seq
  rw [openZone]
  split
  · simp only
    split
    · exact ⟨untouched, rfl, rfl⟩
    · exact ⟨untouched, rfl, accountActive_wp _⟩
  · exact framed_refl s

theorem safe_writeOpen (law : ZonedDevice D E written) (seq : Sequential E s.z) :
    Safe D E written s (zonefsSeqFileWriteOpen D s).2 := by
  refine Framed.safe ?_ (kept_writeOpen s) seq
  have opened := framed_openZone (s := addWro 1 s) law seq
  have first : Framed E written s (firstWriter D s).2 := by
    rw [firstWriter]
    split
    · split
      · exact ⟨fun _ _ => rfl, rfl, rfl⟩
      · exact ⟨opened.untouched, opened.size, opened.wp⟩
    · exact ⟨fun _ _ => rfl, rfl, rfl⟩
  rw [zonefsSeqFileWriteOpen]
  by_cases hzero : s.inode.iWrRefcnt = 0
  · rw [if_pos hzero]
    simp only
    split
    · exact ⟨first.untouched, first.size, first.wp⟩
    · exact first
  · rw [if_neg hzero]
    exact ⟨fun _ _ => rfl, rfl, rfl⟩

/-- The close of a zone that has not been written resets it, and then nothing is shown of it. -/
theorem safe_zoneClose (law : ZonedDevice D E written) (seq : Sequential E s.z) :
    Safe D E written s (zonefsInodeZoneMgmt D .zoneClose s).2 := by
  have done := mgmt_done law seq .zoneClose
  have kept := (quiet_zoneMgmt (D := D) .zoneClose s).toKept
  by_cases hzero : s.z.zWpoffset = 0
  · have managed := done.managed
    rw [if_pos ⟨rfl, hzero⟩] at managed
    refine ⟨kept, done.elsewhere, fun ordered => ⟨ordered.nonneg, ordered.le⟩, ?_, ?_⟩
    · intro _ settled
      have hsize : s.inode.iSize = 0 := settled.wp.symm.trans hzero
      refine ⟨⟨settled.nonneg, ?_⟩, settled.wp⟩
      change s.inode.iSize ≤ _
      omega
    · intro ordered
      have hsize : s.inode.iSize.toNat = 0 := by
        have := ordered.le
        omega
      rw [view, hsize]
      exact .inr List.nil_prefix
  · have managed := done.managed
    rw [if_neg fun h => hzero h.2] at managed
    have same := untouched_of_elsewhere done.elsewhere (Managed.same managed (.inr rfl))
    exact .same kept same seq rfl rfl

theorem safe_lastWriter (law : ZonedDevice D E written) (seq : Sequential E s.z) :
    Safe D E written s (lastWriter D s) := by
  rw [lastWriter]
  split
  · have closed := safe_zoneClose law seq
    have seq' := seq.same closed.zone
    simp only
    split
    · have failed := safe_ioError law seq' false
      refine (closed.trans failed).trans ?_
      have kept : Kept (zonefsIoError D false (zonefsInodeZoneMgmt D .zoneClose s).2)
          (closeFailed D (zonefsInodeZoneMgmt D .zoneClose s).2) :=
        ⟨.refl _, ⟨rfl, rfl, rfl, rfl, rfl, rfl, rfl, rfl, rfl, fun h => by simp [closeFailed, h]⟩,
          id, rfl, rfl⟩
      exact .same kept (fun _ _ => rfl) (seq'.same failed.zone) rfl rfl
    · have kept := (quiet_closeZone s (zonefsInodeZoneMgmt D .zoneClose s).2.dev).toKept
      have kept' := kept.trans (kept_addWro (-1) _)
      refine closed.trans (.same ?_ (fun _ _ => rfl) seq' rfl (accountActive_wp _))
      exact ⟨kept'.zone, kept'.super, kept'.immutable, kept'.swapfile, kept'.balanced⟩
  · exact .same (kept_addWro (-1) s) (fun _ _ => rfl) seq rfl rfl

theorem safe_writeClose (law : ZonedDevice D E written) (seq : Sequential E s.z) :
    Safe D E written s (zonefsSeqFileWriteClose D s) := by
  have dropped : Safe D E written s (dropReference s) :=
    .same (kept_dropReference s) (fun _ _ => rfl) seq rfl rfl
  rw [zonefsSeqFileWriteClose]
  split
  · exact dropped.trans (safe_lastWriter law seq)
  · exact dropped

theorem safe_device {dev : δ} (seq : Sequential E s.z) (untouched : Untouched E written s.dev dev) :
    Safe D E written s { s with dev := dev } :=
  .same (quiet_device dev).toKept untouched seq rfl rfl

theorem safe_passive (law : ZonedDevice D E written) (seq : Sequential E s.z)
    (h : Passive D s s') : Safe D E written s s' := by
  induction h with
  | refl => exact .refl s
  | tail _ hlast ih =>
    obtain ⟨x, hkind, _, rfl⟩ := hlast
    have seq' := seq.same ih.zone
    refine ih.trans ?_
    cases x with
    | dioRead offset count => exact safe_device seq' (law.readOnly offset count _)
    | request r => exact safe_device seq' (law.request r _)
    | ioError write => exact safe_ioError law seq' write
    | writeOpen => exact safe_writeOpen law seq'
    | writeClose => exact safe_writeClose law seq'
    | _ => cases hkind

theorem safe_attributes (seq : Sequential E s.z) (mode : BitVec 16) (uid gid : Nat) :
    Safe D E written s (setAttributes mode uid gid s) :=
  .same (quiet_setAttributes mode uid gid s).toKept (fun _ _ => rfl) seq rfl rfl

/-- What every call keeps, also those that truncate. -/
structure Steady (D : BlockDevice δ) (E : List Extent) (written : δ → Nat → List UInt8)
    (s s' : FileState δ) : Prop extends Kept s s' where
  elsewhere : Elsewhere E written s.z.zSector s.dev s'.dev
  ordered : Ordered s → Ordered s'
  settled : Reports D E → Settled written s → Settled written s'

theorem Safe.steady (h : Safe D E written s s') : Steady D E written s s' :=
  ⟨h.toKept, h.elsewhere, h.ordered, h.settled⟩

theorem Steady.trans {s s' s'' : FileState δ} (h : Steady D E written s s')
    (h' : Steady D E written s' s'') : Steady D E written s s'' where
  toKept := h.toKept.trans h'.toKept
  elsewhere := by
    intro e he hne
    rw [h'.elsewhere e he (h.zone.sector ▸ hne), h.elsewhere e he hne]
  ordered := h'.ordered ∘ h.ordered
  settled := fun reports settled => h'.settled reports (h.settled reports settled)

theorem setsize_dev (n : Int) (g : FileState δ) : (truncateSetsize n g).dev = g.dev := by
  rw [truncateSetsize]
  simp only [zonefsInodeAccountActive, zonefsUpdateStats]
  split
  · rfl
  · rfl

/-- The size is set to what is in the zone. -/
theorem steady_setsize {f g : FileState δ} {n : Int} (kept : Kept f g)
    (elsewhere : Elsewhere E written f.z.zSector f.dev g.dev) (hnonneg : 0 ≤ n)
    (hle : n ≤ (content written g).length) : Steady D E written f (truncateSetsize n g) := by
  have quiet := (quiet_truncateSetsize n g).toKept
  have hdev := setsize_dev n g
  have hsize : (truncateSetsize n g).inode.iSize = n := rfl
  have hwp : (truncateSetsize n g).z.zWpoffset = n := accountActive_wp _
  refine ⟨kept.trans quiet, hdev ▸ elsewhere, ?_, ?_⟩
  · exact fun _ => ⟨hsize ▸ hnonneg, by rw [hsize, hwp]⟩
  · intro _ _
    refine ⟨⟨hsize ▸ hnonneg, ?_⟩, by rw [hsize, hwp]⟩
    rw [hsize, content, hdev, quiet.zone.sector]
    exact hle

theorem content_openZone (law : ZonedDevice D E written) {g : FileState δ} (seq : Sequential E g.z)
    (isize : Int) : Untouched E written g.dev (truncateOpenZone D isize g).2.dev := by
  rw [truncateOpenZone]
  split
  · split
    · exact untouched_zoneOpen law seq
    · exact fun _ _ => rfl
  · exact fun _ _ => rfl

theorem steady_truncate (law : ZonedDevice D E written) (seq : Sequential E s.z) (isize : Int) :
    Steady D E written s (zonefsFileTruncate D isize s).2 := by
  rw [zonefsFileTruncate, seq.seq]
  simp only [Bool.false_eq_true, if_false]
  cases hop : truncateOp s.z isize with
  | none => exact (Safe.refl s).steady
  | some op =>
    simp only
    split
    · exact (Safe.refl s).steady
    have done := mgmt_done law seq op
    have kept := (quiet_zoneMgmt (D := D) op s).toKept
    have hnotClose : op ≠ .zoneClose := by
      rintro rfl
      rw [truncateOp] at hop
      split at hop
      · cases hop
      · split at hop <;> cases hop
    have managed := done.managed
    rw [if_neg fun h => hnotClose h.1] at managed
    split
    · rename_i hret
      have same : content written (zonefsInodeZoneMgmt D op s).2 = content written s := by
        generalize content written (zonefsInodeZoneMgmt D op s).2 = after at managed
        generalize (zonefsInodeZoneMgmt D op s).1 = ret at managed hret
        cases managed with
        | failed op ret h => rfl
        | _ => exact absurd rfl hret
      exact (Safe.same kept (untouched_of_elsewhere done.elsewhere same) seq rfl rfl).steady
    · rename_i hret
      have hret := not_not.mp hret
      have seq' := seq.same kept.zone
      have opened := content_openZone law seq' isize
      have kept' := kept.trans
        (quiet_truncateOpenZone (D := D) isize (zonefsInodeZoneMgmt D op s).2).toKept
      have hafter : content written (truncateOpenZone D isize (zonefsInodeZoneMgmt D op s).2).2 =
          content written (zonefsInodeZoneMgmt D op s).2 := by
        rw [content, kept'.zone.sector]
        exact opened _ seq.mem
      have elsewhere : Elsewhere E written s.z.zSector s.dev
          (truncateOpenZone D isize (zonefsInodeZoneMgmt D op s).2).2.dev := by
        intro e he hne
        rw [opened e he]
        exact done.elsewhere e he hne
      have hlen : 0 ≤ isize ∧ isize = (content written (zonefsInodeZoneMgmt D op s).2).length := by
        rw [hret] at managed
        generalize content written (zonefsInodeZoneMgmt D op s).2 = after at managed
        rw [truncateOp] at hop
        split at hop
        · rename_i hzero
          cases hop
          cases managed with
          | failed op ret h => exact absurd rfl h
          | reset => exact ⟨hzero.ge, hzero⟩
        · split at hop
          · rename_i hcap
            cases hop
            cases managed with
            | failed op ret h => exact absurd rfl h
            | finished padding h =>
              have heq : isize = ((content written s ++ padding).length : Int) := hcap.trans h.symm
              exact ⟨heq ▸ Int.natCast_nonneg _, heq⟩
          · cases hop
      exact steady_setsize kept' elsewhere hlen.1 (hafter ▸ hlen.2.le)

/-- Where a read in front of the size goes to on the device. -/
theorem readIomapBegin_at {pos n : Int} (h : pos < s.inode.iSize) :
    (zonefsReadIomapBegin pos n s).type ≠ .hole ∧
      (zonefsReadIomapBegin pos n s).at pos = (extentOf s.z).start + pos := by
  have hstart : alignDown s.sbi pos ≤ pos :=
    Int.ediv_mul_le pos (Int.ne_of_gt (Int.pow_pos (show (0 : Int) < 2 by decide)))
  rw [zonefsReadIomapBegin, if_neg (not_le.mpr (lt_of_le_of_lt hstart h))]
  refine ⟨nofun, ?_⟩
  simp only [Iomap.at, Option.getD_some]
  change _ = sectorBytes s.z.zSector + pos
  omega

theorem dioReadDone_shows {requested : List UInt8} {r : DioResult × List UInt8}
    (back : ReadBack requested r) (h : 0 ≤ (dioReadDone D s r).1.1) :
    (dioReadDone D s r).1.2 <+: requested ∧
      (dioReadDone D s r).1.1 = (dioReadDone D s r).1.2.length := by
  cases back with
  | refused ret data hret => exact absurd h (not_le.mpr hret)
  | failed size error ret data herror =>
    simp only [dioReadDone, zonefsFileReadDioEndIo, if_pos herror.ne] at h
    exact absurd h (not_le.mpr herror)
  | read size data part => exact ⟨part, rfl⟩

theorem dioRead_shows (law : ZonedDevice D E written) (seq : Sequential E s.z)
    (backed : Backed written s) {pos n : Int} (hpos : 0 ≤ pos) (hsize : pos < s.inode.iSize)
    (hn : n ≤ s.inode.iSize - pos) (h : 0 ≤ (iomapDioRead D pos n s).1.1) :
    (iomapDioRead D pos n s).1.2 <+: (view written s).drop pos.toNat ∧
      (iomapDioRead D pos n s).1.1 = (iomapDioRead D pos n s).1.2.length := by
  obtain ⟨hmapped, hat⟩ := readIomapBegin_at (n := n) hsize
  have hle := backed.le
  have back := law.read _ seq.mem pos n s.dev hpos (by
    change pos + n ≤ (content written s).length
    omega)
  have hrequested : ((content written s).drop pos.toNat).take n.toNat <+:
      (view written s).drop pos.toNat := by
    rw [view, List.drop_take]
    exact List.take_prefix_take_left (by omega)
  rw [iomapDioRead] at h ⊢
  simp only [if_neg hmapped, hat] at h ⊢
  obtain ⟨shows, hret⟩ := dioReadDone_shows back h
  exact ⟨shows.trans hrequested, hret⟩

/-- What a direct read returns is what the file shows there. -/
theorem read_shows (law : ZonedDevice D E written) (seq : Sequential E s.z)
    (backed : Backed written s) {iocb : ZoneKiocb} (hdirect : iocb.direct = true)
    (hpos : 0 ≤ iocb.kiPos) (count : Nat)
    (h : 0 ≤ (zonefsFileReadIter D iocb count s).1.1) :
    (zonefsFileReadIter D iocb count s).1.2 <+: (view written s).drop iocb.kiPos.toNat ∧
      (zonefsFileReadIter D iocb count s).1.1 = (zonefsFileReadIter D iocb count s).1.2.length := by
  rw [zonefsFileReadIter] at h ⊢
  by_cases hunreadable : unreadable s.inode = true
  · rw [if_pos hunreadable] at h
    exact absurd h (show ¬ 0 ≤ ePerm by decide)
  rw [if_neg hunreadable] at h ⊢
  by_cases hcap : iocb.kiPos ≥ s.z.zCapacity
  · rw [if_pos hcap]
    exact ⟨List.nil_prefix, rfl⟩
  rw [if_neg hcap] at h ⊢
  by_cases hbusy : (iocb.nowait && iocb.lockBusy) = true
  · rw [if_pos hbusy] at h
    exact absurd h (show ¬ 0 ≤ eAgain by decide)
  rw [if_neg hbusy] at h ⊢
  by_cases hsize : iocb.kiPos ≥ s.inode.iSize
  · rw [if_pos hsize]
    exact ⟨List.nil_prefix, rfl⟩
  rw [if_neg hsize] at h ⊢
  simp only [hdirect, if_true] at h ⊢
  have hcount : min (count : Int) (s.inode.iSize - iocb.kiPos) ≤ s.inode.iSize - iocb.kiPos :=
    min_le_right _ _
  generalize min (count : Int) (s.inode.iSize - iocb.kiPos) = n at h hcount ⊢
  by_cases hunaligned : unaligned s.sbi iocb.kiPos n = true
  · rw [if_pos hunaligned] at h
    exact absurd h (show ¬ 0 ≤ eInval by decide)
  rw [if_neg hunaligned] at h ⊢
  exact dioRead_shows law seq backed hpos (not_le.mp hsize) hcount h

end

end ZonefsContents
