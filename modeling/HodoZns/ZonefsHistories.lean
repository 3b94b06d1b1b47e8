import HodoZns.ZonefsAppends

/-!
# Histories of sequential files

On a mounted zoned device calls on all files, lookups, evictions and remounts follow
one another. What the file of a sequential zone shows is changed by calls on this file
alone, it only grows as long as the file is not truncated and the zone is not lost, and
the bytes of an acknowledged write stay where they are.
-/

namespace ZonefsHistories

open CallRuns Families ZonefsZones ZonefsFiles ZonefsOptions ZonefsRuns ZonefsSteps ZonefsMounts
  ZonefsCounts ZonefsBadZones ZonedDevices ZonefsContents ZonefsAppends

section

variable {δ : Type} {D : BlockDevice δ} {E : List Extent} {written : δ → Nat → List UInt8}
  {s s' : FileState δ}

/-- The zone is a conventional one, and no byte of it is in a sequential zone. -/
structure Outside (E : List Extent) (z : ZonefsZone) : Prop where
  cnv : z.zoneCnv = true
  apart : ∀ e ∈ E, ∀ pos, 0 ≤ pos → pos < z.zCapacity → ¬ e.Contains (sectorBytes z.zSector + pos)

theorem Outside.same {z z' : ZonefsZone} (h : Outside E z) (same : SameZone z z') :
    Outside E z' := by
  constructor
  · exact same.cnv.trans h.cnv
  · rw [same.sector, same.capacity]
    exact h.apart

theorem ioError_dev (h : s.z.zoneCnv = true) (write : Bool) :
    (zonefsIoError D write s).dev = s.dev := by
  rw [zonefsIoError, if_pos h]
  exact handleIoError_dev _ write s

theorem untouched_trans {d d' d'' : δ} (h : Untouched E written d d')
    (h' : Untouched E written d' d'') : Untouched E written d d'' :=
  fun e he => (h' e he).trans (h e he)

theorem untouched_io (law : ZonedDevice D E written) (hcnv : s.z.zoneCnv = true) (h : Io D s s') :
    s'.z.zoneCnv = true ∧ Untouched E written s.dev s'.dev := by
  induction h with
  | refl => exact ⟨hcnv, fun _ _ => rfl⟩
  | @tail s₁ _ _ hlast ih =>
    obtain ⟨x, hkind, _, rfl⟩ := hlast
    refine ⟨(kept_section x s₁).zone.cnv.trans ih.1, untouched_trans ih.2 ?_⟩
    cases x with
    | dioRead offset count => exact law.readOnly offset count _
    | request r => exact law.request r _
    | ioError write =>
      change Untouched E written s₁.dev (zonefsIoError D write s₁).dev
      rw [ioError_dev ih.1]
      exact fun _ _ => rfl
    | _ => cases hkind

theorem endIo_dev (hcnv : s.z.zoneCnv = true) (iocb : ZoneKiocb) (size error : Int) :
    (zonefsFileWriteDioEndIo D iocb size error s).2.dev = s.dev := by
  rw [zonefsFileWriteDioEndIo]
  split
  · simp only
    split
    · rfl
    · exact ioError_dev hcnv true
  split
  · rename_i hwritten
    rw [hcnv] at hwritten
    cases hwritten.2.1
  · rfl

theorem dioWriteDone_dev (hcnv : s.z.zoneCnv = true) (iocb : ZoneKiocb) (result : DioResult) :
    (dioWriteDone D iocb s result).2.dev = s.dev := by
  cases result with
  | refused ret => rfl
  | completed size error ret => exact endIo_dev hcnv iocb size error
  | queued => rfl

theorem untouched_submitDioWrite (law : ZonedDevice D E written) (outside : Outside E s.z)
    {iocb : ZoneKiocb} {data : List UInt8} (hpos : 0 ≤ iocb.kiPos) (hdata : data ≠ []) :
    Untouched E written s.dev (submitDioWrite D iocb data s).2.dev := by
  have hlen := List.length_pos_iff.mpr hdata
  have hcnv : (iomapDioWrite D iocb data s).2.z.zoneCnv = true := by
    have kept := kept_sections (modeKept_iomapDioWrite (D := D) (s := s) iocb data).any
    exact kept.zone.cnv.trans outside.cnv
  rw [submitDioWrite]
  simp only [hcnv, if_true]
  rw [iomapDioWrite]
  cases hbegin : zonefsWriteIomapBegin true iocb.kiPos data.length s with
  | error e =>
    simp only [dioWriteEnded]
    rw [endIo_dev outside.cnv]
    exact fun _ _ => rfl
  | ok iomap =>
    obtain ⟨hat, hfits⟩ := writeIomapBegin_at hbegin
    simp only
    rw [dioWriteDone_dev (by exact outside.cnv), hat]
    refine law.outside _ data s.dev fun e he => outside.apart e he iocb.kiPos hpos ?_
    omega

theorem untouched_dioWrite (law : ZonedDevice D E written) (outside : Outside E s.z)
    {iocb : ZoneKiocb} (hpos : 0 ≤ iocb.kiPos) (data : List UInt8) :
    Untouched E written s.dev (zonefsFileDioWrite D iocb data s).2.dev := by
  have same : Untouched E written s.dev s.dev := fun _ _ => rfl
  rw [zonefsFileDioWrite]
  split
  · exact same
  split
  · exact same
  have checked := writeChecked (s := s) iocb data
  generalize zonefsWriteChecks iocb data s = r at checked ⊢
  obtain ⟨count, iocb', data'⟩ := r
  simp only
  split
  · exact same
  rename_i hpositive
  obtain ⟨hcount, _, _, hpos', happend⟩ := checked (not_le.mp hpositive)
  simp only at hcount hpos'
  split
  · exact same
  simp only [outside.cnv, if_true]
  have hnot : iocb.append = false := by
    by_contra h
    have := happend (Bool.not_eq_false _ ▸ h)
    rw [outside.cnv] at this
    cases this
  refine untouched_submitDioWrite law outside ?_ ?_
  · rw [hpos', hnot]
    exact hpos
  · rintro rfl
    rw [hcount] at hpositive
    exact hpositive le_rfl

theorem untouched_writeIter (law : ZonedDevice D E written) (outside : Outside E s.z)
    {iocb : ZoneKiocb} (hpos : 0 ≤ iocb.kiPos) (data : List UInt8) :
    Untouched E written s.dev (zonefsFileWriteIter D iocb data s).2.dev := by
  have same : Untouched E written s.dev s.dev := fun _ _ => rfl
  have buffered : ∀ g : FileState δ, g.z.zoneCnv = true →
      Untouched E written g.dev (zonefsFileBufferedWrite D iocb data g).2.dev :=
    fun g hcnv => (untouched_io law hcnv (io_bufferedWrite iocb data)).2
  rw [zonefsFileWriteIter]
  split
  · exact same
  split
  · exact same
  split
  · exact same
  split
  · have direct := untouched_dioWrite law outside hpos data
    have kept := kept_sections (modeKept_dioWrite (D := D) (s := s) iocb data).any
    simp only
    split
    · exact direct
    · exact untouched_trans direct (buffered _ (kept.zone.cnv.trans outside.cnv))
  · exact buffered s outside.cnv

theorem truncate_cnv (hcnv : s.z.zoneCnv = true) (isize : Int) :
    zonefsFileTruncate D isize s = (ePerm, s) :=
  if_pos hcnv

/-- A call on a conventional file leaves the sequential zones alone. -/
theorem call_untouched (law : ZonedDevice D E written) (outside : Outside E s.z) {c : FileCall}
    (possible : c.Possible s) : Untouched E written s.dev (c.exec D s).2.dev := by
  have same : Untouched E written s.dev s.dev := fun _ _ => rfl
  have unwritten : ∀ fModeWrite, zonefsSeqFileNeedWro fModeWrite s.z = false := by
    intro fModeWrite
    rw [zonefsSeqFileNeedWro, outside.cnv]
    rfl
  cases c with
  | «open» fModeWrite opened =>
    change Untouched E written s.dev (zonefsFileOpen D fModeWrite opened s).2.dev
    rw [zonefsFileOpen, unwritten]
    split
    · exact same
    · exact same
  | release fModeWrite =>
    change Untouched E written s.dev (zonefsFileRelease D fModeWrite s).2.dev
    rw [zonefsFileRelease, unwritten]
    exact same
  | writeIter iocb data => exact untouched_writeIter law outside possible data
  | endIo iocb size error =>
    change Untouched E written s.dev (zonefsFileWriteDioEndIo D iocb size error s).2.dev
    rw [endIo_dev outside.cnv]
    exact same
  | readIter iocb count => exact (untouched_io law outside.cnv (io_readIter iocb count)).2
  | spliceRead pos len => exact (untouched_io law outside.cnv (io_spliceRead pos len)).2
  | fsync => exact (untouched_io law outside.cnv io_fsync).2
  | truncate isize =>
    change Untouched E written s.dev (zonefsFileTruncate D isize s).2.dev
    rw [truncate_cnv outside.cnv]
    exact same
  | setattr prepared transferred attr =>
    have sized : (setattrSize D attr.size s).2 = s := by
      cases attr.size with
      | none => rfl
      | some isize => exact congrArg Prod.snd (truncate_cnv outside.cnv isize)
    have done := setattr_done (D := D) (s := s) prepared transferred attr
    change Untouched E written s.dev (zonefsInodeSetattr D prepared transferred attr s).2.dev
    generalize zonefsInodeSetattr D prepared transferred attr s = r at done ⊢
    cases done with
    | refused ret => exact same
    | failed mutable =>
      rw [sized]
      exact same
    | done mutable hret mode uid gid =>
      rw [sized]
      exact same

end

section

variable {ι δ : Type} {D : BlockDevice δ} {E : List Extent} {written : δ → Nat → List UInt8}

def fileSize (m : ZoneFile) : Int := (m.inode.map ZonefsInode.iSize).getD m.z.zWpoffset

def contentOf (written : δ → Nat → List UInt8) (s : Fs ι δ) (i : ι) : List UInt8 :=
  written s.shared.dev (s.member i).z.zSector

/-- What the file shows, or would show. -/
def shown (written : δ → Nat → List UInt8) (s : Fs ι δ) (i : ι) : List UInt8 :=
  (contentOf written s i).take (fileSize (s.member i)).toNat

theorem contentOf_at {s : Fs ι δ} {i : ι} {f : FileState δ} (hat : at? s i = some f) :
    contentOf written s i = content written f := by
  rw [contentOf, member_of_at? hat, shared_of_at? hat]
  rfl

theorem shown_at {s : Fs ι δ} {i : ι} {f : FileState δ} (hat : at? s i = some f) :
    shown written s i = view written f := by
  rw [shown, contentOf_at hat, member_of_at? hat]
  rfl

/-- The files are made of zones of the device that have nothing in common. -/
structure Laid (E : List Extent) (s : Fs ι δ) : Prop where
  placed : ∀ i, Sequential E (s.member i).z ∨ Outside E (s.member i).z
  apart : ∀ i j, i ≠ j → (s.member i).z.zoneCnv = false → (s.member j).z.zoneCnv = false →
    (s.member i).z.zSector ≠ (s.member j).z.zSector

theorem Laid.same {s s' : Fs ι δ} (h : Laid E s)
    (same : ∀ i, SameZone (s.member i).z (s'.member i).z) : Laid E s' := by
  constructor
  · exact fun i => (h.placed i).imp (fun seq => seq.same (same i)) fun out => out.same (same i)
  · intro i j hij hi hj
    rw [(same i).sector, (same j).sector]
    exact h.apart i j hij ((same i).cnv.symm.trans hi) ((same j).cnv.symm.trans hj)

theorem Laid.sequential {s : Fs ι δ} (h : Laid E s) {i : ι}
    (hseq : (s.member i).z.zoneCnv = false) :
    Sequential E (s.member i).z := by
  refine (h.placed i).resolve_right fun out => ?_
  have := out.cnv
  rw [hseq] at this
  cases this

/-- The sizes and the write pointers of the sequential files are in order. -/
structure Tidy (D : BlockDevice δ) (E : List Extent) (written : δ → Nat → List UInt8)
    (s : Fs ι δ) : Prop where
  laid : Laid E s
  nonneg : ∀ i, (s.member i).z.zoneCnv = false → 0 ≤ fileSize (s.member i)
  le : ∀ i, (s.member i).z.zoneCnv = false → fileSize (s.member i) ≤ (s.member i).z.zWpoffset
  wp : Reports D E → ∀ i, (s.member i).z.zoneCnv = false →
    (s.member i).z.zWpoffset = fileSize (s.member i)
  backed : Reports D E → ∀ i, (s.member i).z.zoneCnv = false →
    fileSize (s.member i) ≤ (contentOf written s i).length

theorem Tidy.ordered {s : Fs ι δ} (h : Tidy D E written s) {i : ι} {f : FileState δ}
    (hat : at? s i = some f) (hseq : f.z.zoneCnv = false) : Ordered f := by
  have hnonneg := h.nonneg i
  have hle := h.le i
  rw [member_of_at? hat] at hnonneg hle
  exact ⟨hnonneg hseq, hle hseq⟩

theorem Tidy.settled {s : Fs ι δ} (h : Tidy D E written s) (reports : Reports D E) {i : ι}
    {f : FileState δ} (hat : at? s i = some f) (hseq : f.z.zoneCnv = false) :
    Settled written f := by
  have hnonneg := h.nonneg i
  have hwp := h.wp reports i
  have hbacked := h.backed reports i
  rw [contentOf, member_of_at? hat, shared_of_at? hat] at hbacked
  rw [member_of_at? hat] at hnonneg hwp
  exact ⟨⟨hnonneg hseq, hbacked hseq⟩, hwp hseq⟩

/-- What a step does to file `j`. -/
inductive FileStep (D : BlockDevice δ) (written : δ → Nat → List UInt8) (s s' : Fs ι δ)
    (c : Serial ι) (j : ι) : Prop where
  | same (hmember : s'.member j = s.member j)
    (hcontent : contentOf written s' j = contentOf written s j)
  | called (f : FileState δ) (call : FileCall) (hc : c = .call j call) (hat : at? s j = some f)
      (possible : call.Possible f) (hat' : at? s' j = some (call.exec D f).2)
  | cached (hzone : SameZone (s.member j).z (s'.member j).z)
      (hwp : (s'.member j).z.zWpoffset = (s.member j).z.zWpoffset)
      (hsize : fileSize (s'.member j) = (s.member j).z.zWpoffset)
      (hcontent : contentOf written s' j = contentOf written s j)

variable [DecidableEq ι]

/-- A call leaves alone what is in the zones of the other files. -/
theorem call_other {s : Fs ι δ} (law : ZonedDevice D E written) (tidy : Tidy D E written s)
    {i j : ι} (hij : j ≠ i) (hseq : (s.member j).z.zoneCnv = false) {f : FileState δ} {c : FileCall}
    (hend : (Serial.call i c).isEnd = false) (hat : at? s i = some f) (possible : c.Possible f) :
    contentOf written (s.set i (parts (c.exec D f).2)) j = contentOf written s j := by
  have mem := (tidy.laid.sequential hseq).mem
  have notEnd : ∀ iocb size error, c ≠ .endIo iocb size error := by
    rintro iocb size error rfl
    cases hend
  rw [contentOf, contentOf, Family.set_member_other s _ hij, shared_of_at? hat]
  rcases tidy.laid.placed i with seq | out
  · have hne := tidy.laid.apart j i hij hseq seq.seq
    rw [member_of_at? hat] at seq hne
    have steady := call_steady law seq (tidy.ordered hat seq.seq) notEnd possible
    exact steady.elsewhere _ mem hne
  · rw [member_of_at? hat] at out
    exact call_untouched law out possible _ mem

theorem done_file {s s' : Fs ι δ} {c : Serial ι} {ret : Int} (law : ZonedDevice D E written)
    (tidy : Tidy D E written s) (hend : c.isEnd = false) (done : Done D s c ret s') (j : ι)
    (hseq : (s.member j).z.zoneCnv = false) : FileStep D written s s' c j := by
  cases done with
  | call i f c hat possible =>
    by_cases hij : j = i
    · subst hij
      exact .called f c rfl hat possible (at?_set s j _)
    · have hmember := Family.set_member_other s (parts (c.exec D f).2) hij
      exact .same hmember (call_other law tidy hij hseq hend hat possible)
  | other c ret s' hcall h =>
    cases h with
    | lookup i hnone =>
      by_cases hij : j = i
      · subst hij
        refine .cached ?_ ?_ ?_ ?_
        · rw [Family.set_member_same]
          exact ⟨rfl, rfl, rfl, rfl, id, id⟩
        · rw [Family.set_member_same]
          rfl
        · rw [Family.set_member_same]
          exact (getFileInode_new _).1
        · rw [contentOf, Family.set_member_same]
          rfl
      · have hmember := Family.set_member_other s (s.shared, ⟨(zonefsGetFileInode (s.member i).z).1,
          some (zonefsGetFileInode (s.member i).z).2⟩) hij
        refine .same hmember ?_
        rw [contentOf, hmember]
        rfl
    | evict i inode hinode unused =>
      by_cases hij : j = i
      · subst hij
        refine .cached ?_ ?_ ?_ ?_
        · rw [Family.set_member_same]
          exact .refl _
        · rw [Family.set_member_same]
        · rw [Family.set_member_same]
          rfl
        · rw [contentOf, Family.set_member_same]
          rfl
      · have hmember := Family.set_member_other s (s.shared, { s.member i with inode := none }) hij
        refine .same hmember ?_
        rw [contentOf, hmember]
        rfl
    | remount sbi' remounted => exact .same rfl rfl
    | nothing => exact .same rfl rfl

/-- A step keeps the zones in their places. -/
theorem done_same {s s' : Fs ι δ} {c : Serial ι} {ret : Int} (done : Done D s c ret s') (j : ι) :
    SameZone (s.member j).z (s'.member j).z := by
  have set : ∀ (i : ι) (y : Shared δ × ZoneFile), SameZone (s.member i).z y.2.z →
      SameZone (s.member j).z ((s.set i y).member j).z := by
    intro i y same
    by_cases hij : j = i
    · subst hij
      rwa [Family.set_member_same]
    · rw [Family.set_member_other s y hij]
      exact .refl _
  cases done with
  | call i f c hat possible =>
    refine set i _ ?_
    rw [member_of_at? hat]
    exact (kept_sections (call_sections possible)).zone
  | other c ret s' hcall h =>
    cases h with
    | lookup i hnone => exact set i _ ⟨rfl, rfl, rfl, rfl, id, id⟩
    | evict i inode hinode unused => exact set i _ (.refl _)
    | remount sbi' remounted => exact .refl _
    | nothing => exact .refl _

theorem tidy_kept {s s' : Fs ι δ} {c : Serial ι} {ret : Int} (law : ZonedDevice D E written)
    (tidy : Tidy D E written s) (hend : c.isEnd = false) (done : Done D s c ret s') :
    Tidy D E written s' := by
  have before : ∀ j, (s'.member j).z.zoneCnv = false → (s.member j).z.zoneCnv = false :=
    fun j hj => (done_same done j).cnv.symm.trans hj
  have after : ∀ j, (s'.member j).z.zoneCnv = false →
      (0 ≤ fileSize (s'.member j) ∧ fileSize (s'.member j) ≤ (s'.member j).z.zWpoffset) ∧
      (Reports D E → (s'.member j).z.zWpoffset = fileSize (s'.member j) ∧
        fileSize (s'.member j) ≤ (contentOf written s' j).length) := by
    intro j hj
    have hseq := before j hj
    have hnonneg := tidy.nonneg j hseq
    have hle := tidy.le j hseq
    cases done_file law tidy hend done j hseq with
    | same hmember hcontent =>
      rw [hmember, hcontent]
      exact ⟨⟨hnonneg, hle⟩, fun reports => ⟨tidy.wp reports j hseq, tidy.backed reports j hseq⟩⟩
    | called f call hc hat possible hat' =>
      subst hc
      have notEnd : ∀ iocb size error, call ≠ .endIo iocb size error := by
        rintro iocb size error rfl
        cases hend
      have seq := tidy.laid.sequential hseq
      rw [member_of_at? hat] at seq
      have ordered := tidy.ordered hat seq.seq
      have steady := call_steady law seq ordered notEnd possible
      have ordered' := steady.ordered ordered
      rw [contentOf, member_of_at? hat', shared_of_at? hat']
      refine ⟨⟨ordered'.nonneg, ordered'.le⟩, fun reports => ?_⟩
      have settled := steady.settled reports (tidy.settled reports hat seq.seq)
      exact ⟨settled.wp, settled.le⟩
    | cached hzone hwp hsize hcontent =>
      rw [hsize, hwp, hcontent]
      refine ⟨⟨hnonneg.trans hle, le_rfl⟩, fun reports => ⟨rfl, ?_⟩⟩
      rw [tidy.wp reports j hseq]
      exact tidy.backed reports j hseq
  exact ⟨tidy.laid.same (done_same done), fun j hj => (after j hj).1.1,
    fun j hj => (after j hj).1.2,
    fun reports j hj => ((after j hj).2 reports).1, fun reports j hj => ((after j hj).2 reports).2⟩

/-- The step does not set the size of file `j`. -/
def Serial.leaves (j : ι) : Serial ι → Bool
  | .call i c => !(decide (i = j) && c.truncates)
  | _ => true

/-- What is shown only grows, unless the zone is lost. -/
theorem shown_grows {s s' : Fs ι δ} {c : Serial ι} {ret : Int} (law : ZonedDevice D E written)
    (tidy : Tidy D E written s) (hend : c.isEnd = false) {j : ι}
    (hseq : (s.member j).z.zoneCnv = false) (leaves : Serial.leaves j c = true)
    (done : Done D s c ret s') :
    (s'.member j).z.zoneOffline = true ∨ shown written s j <+: shown written s' j := by
  cases done_file law tidy hend done j hseq with
  | same hmember hcontent =>
    rw [shown, shown, hmember, hcontent]
    exact .inr List.prefix_rfl
  | called f call hc hat possible hat' =>
    subst hc
    have notEnd : ∀ iocb size error, call ≠ .endIo iocb size error := by
      rintro iocb size error rfl
      cases hend
    have keeps : call.truncates = false := by
      simpa [Serial.leaves] using leaves
    have seq := tidy.laid.sequential hseq
    rw [member_of_at? hat] at seq
    have ordered := tidy.ordered hat seq.seq
    have safe := call_safe law seq ordered notEnd keeps possible
    rw [shown_at hat, shown_at hat', member_of_at? hat']
    exact safe.shown ordered
  | cached hzone hwp hsize hcontent =>
    rw [shown, shown, hcontent, hsize]
    exact .inr (take_prefix_take List.prefix_rfl (tidy.le j hseq))

/-- What is shown of a file changes by calls on this file alone. -/
theorem shown_other {s s' : Fs ι δ} {i j : ι} {c : FileCall} {ret : Int}
    (law : ZonedDevice D E written) (tidy : Tidy D E written s)
    (hend : (Serial.call i c).isEnd = false) (hseq : (s.member j).z.zoneCnv = false) (hij : j ≠ i)
    (done : Done D s (.call i c) ret s') : shown written s' j = shown written s j := by
  cases done with
  | call i f c hat possible =>
    have hcontent := call_other law tidy hij hseq hend hat possible
    rw [shown, shown, hcontent, Family.set_member_other s _ hij]
  | other c ret s' hcall h => exact absurd rfl (hcall i c)

theorem tidy_run {s s' : Fs ι δ} {cs : List (Serial ι)} {answers : List Int}
    (law : ZonedDevice D E written) (tidy : Tidy D E written s)
    (hend : ∀ c ∈ cs, c.isEnd = false) (hrun : run (serialStep D) cs s = some (answers, s')) :
    Tidy D E written s' :=
  run_keeps_mem (Tidy D E written)
    (fun _ c _ _ hc tidy hstep => tidy_kept law tidy (hend c hc) (serial_done hstep)) tidy hrun

theorem run_same {s s' : Fs ι δ} {cs : List (Serial ι)} {answers : List Int}
    (hrun : run (serialStep D) cs s = some (answers, s')) (j : ι) :
    SameZone (s.member j).z (s'.member j).z :=
  run_keeps (fun t : Fs ι δ => SameZone (s.member j).z (t.member j).z)
    (fun _ _ _ _ same hstep => same.trans (done_same (serial_done hstep) j)) (.refl _) hrun

/-- What is shown lasts, unless the zone is lost. -/
theorem shown_lasts {s s' : Fs ι δ} {cs : List (Serial ι)} {answers : List Int}
    (law : ZonedDevice D E written) (tidy : Tidy D E written s)
    (hend : ∀ c ∈ cs, c.isEnd = false) {j : ι} (hseq : (s.member j).z.zoneCnv = false)
    (leaves : ∀ c ∈ cs, Serial.leaves j c = true)
    (hrun : run (serialStep D) cs s = some (answers, s')) :
    (s'.member j).z.zoneOffline = true ∨ shown written s j <+: shown written s' j := by
  have inv := run_keeps_mem
    (fun t => Tidy D E written t ∧ SameZone (s.member j).z (t.member j).z ∧
      ((t.member j).z.zoneOffline = true ∨ shown written s j <+: shown written t j))
    (fun t c ret t' hc inv hstep => ?_) ⟨tidy, .refl _, .inr List.prefix_rfl⟩ hrun
  · exact inv.2.2
  · obtain ⟨tidy, same, lasts⟩ := inv
    have done := serial_done hstep
    refine ⟨tidy_kept law tidy (hend c hc) done, same.trans (done_same done j), ?_⟩
    rcases lasts with offline | hshown
    · exact .inl ((done_same done j).offline offline)
    · have grows := shown_grows law tidy (hend c hc) (same.cnv.trans hseq) (leaves c hc) done
      exact grows.imp id hshown.trans

end

end ZonefsHistories
