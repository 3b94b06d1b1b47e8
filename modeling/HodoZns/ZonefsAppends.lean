import HodoZns.ZonefsContents

/-!
# Writes to sequential files

The write pointer is moved before the request is made, and put right by a report when
the request has failed. A write that is acknowledged has put its bytes at the end of
what is in the zone.
-/

namespace ZonefsAppends

open CallRuns ZonefsZones ZonefsFiles ZonefsRuns ZonefsSteps ZonedDevices ZonefsContents

section

variable {δ : Type} {D : BlockDevice δ} {E : List Extent} {written : δ → Nat → List UInt8}
  {s : FileState δ}

/-- Behind what was in the zone there is a part of the data, or nothing. -/
def Arrives (written : δ → Nat → List UInt8) (data : List UInt8) (s s' : FileState δ) : Prop :=
  ∃ arrived, arrived <+: data ∧ content written s' = content written s ++ arrived

theorem arrives_nothing {s' : FileState δ} (data : List UInt8)
    (h : content written s' = content written s) : Arrives written data s s' :=
  ⟨[], List.nil_prefix, h.trans (List.append_nil _).symm⟩

/-- A step after which the write pointer may be too far ahead. -/
structure Ahead (E : List Extent) (written : δ → Nat → List UInt8) (data : List UInt8)
    (s s' : FileState δ) : Prop extends Kept s s' where
  arrives : Arrives written data s s'
  elsewhere : Elsewhere E written s.z.zSector s.dev s'.dev
  ordered : Ordered s → Ordered s'
  backed : Settled written s → Backed written s'
  shown : Ordered s → s'.z.zoneOffline = true ∨ view written s <+: view written s'

theorem backed_ioError (law : ZonedDevice D E written) (seq : Sequential E s.z) (write : Bool)
    (backed : Backed written s) : Backed written (zonefsIoError D write s) := by
  have reported := ioError_reported law seq write
  have hcontent := reported.content seq (quiet_ioError (D := D) write s).toKept.zone
  have hnonneg := backed.nonneg
  have hle := backed.le
  constructor
  · rcases reported.sizes with
      (⟨_, size, _⟩ | ⟨_, size, _⟩ | ⟨size, _⟩ | ⟨size, _⟩) | ⟨_, size, _⟩ <;>
      omega
  · rw [hcontent]
    rcases reported.sizes with
      (⟨_, size, _⟩ | ⟨_, size, _⟩ | ⟨size, _⟩ | ⟨size, _⟩) | ⟨_, size, _⟩ <;>
      omega

theorem Ahead.ioError {f g : FileState δ} {data : List UInt8} (h : Ahead E written data f g)
    (law : ZonedDevice D E written) (seq : Sequential E f.z) (write : Bool) :
    Ahead E written data f (zonefsIoError D write g) := by
  have seq' := seq.same h.zone
  have safe := safe_ioError law seq' write
  refine ⟨h.toKept.trans safe.toKept, ?_, ?_, safe.ordered ∘ h.ordered, ?_, ?_⟩
  · obtain ⟨arrived, part, all⟩ := h.arrives
    have same := (ioError_reported law seq' write).content seq' safe.zone
    exact ⟨arrived, part, same.trans all⟩
  · intro e he hne
    rw [safe.elsewhere e he (h.zone.sector ▸ hne), h.elsewhere e he hne]
  · exact fun settled => backed_ioError law seq' write (h.backed settled)
  · intro ordered
    rcases safe.shown (h.ordered ordered) with offline | hview'
    · exact .inl offline
    · rcases h.shown ordered with offline | hview
      · exact .inl (safe.zone.offline offline)
      · exact .inr (hview.trans hview')

theorem Ahead.recovered {f g : FileState δ} {data : List UInt8} (h : Ahead E written data f g)
    (law : ZonedDevice D E written) (seq : Sequential E f.z) :
    Safe D E written f (zonefsIoError D true g) := by
  have ahead := h.ioError law seq true
  refine ⟨ahead.toKept, ahead.elsewhere, ahead.ordered, ?_, ahead.shown⟩
  exact fun reports settled => settled_recover law reports (seq.same h.zone) (h.backed settled)

/-- The write pointer is moved, and some bytes arrive behind what is in the zone. -/
theorem ahead_arrived {f : FileState δ} {count : Int} {dev : δ} {data : List UInt8}
    (arrived : List UInt8) (part : arrived <+: data) (hcount : 0 ≤ count)
    (elsewhere : Elsewhere E written f.z.zSector f.dev dev)
    (harrived : written dev f.z.zSector = content written f ++ arrived) :
    Ahead E written data f { advanceWp count f with dev := dev } := by
  have kept := (quiet_advanceWp count f).toKept
  have hwp : (advanceWp count f).z.zWpoffset = f.z.zWpoffset + count := accountActive_wp _
  have hcontent : content written { advanceWp count f with dev := dev } =
      content written f ++ arrived := by
    rw [content, ← harrived]
    change written dev (advanceWp count f).z.zSector = _
    rw [kept.zone.sector]
  refine ⟨kept.trans (quiet_device dev).toKept, ⟨arrived, part, hcontent⟩, elsewhere, ?_, ?_, ?_⟩
  · intro ordered
    refine ⟨ordered.nonneg, ?_⟩
    change f.inode.iSize ≤ (advanceWp count f).z.zWpoffset
    have := ordered.le
    omega
  · intro settled
    refine ⟨settled.nonneg, ?_⟩
    rw [hcontent, List.length_append]
    change f.inode.iSize ≤ _
    have := settled.le
    push_cast
    omega
  · intro _
    rw [view, view, hcontent]
    exact .inr (take_prefix_take (List.prefix_append _ _) le_rfl)

/-- Where a write goes to on the device, and that it fits. -/
theorem writeIomapBegin_at {pos : Int} {n : Int} {iomap : Iomap}
    (h : zonefsWriteIomapBegin true pos n s = .ok iomap) :
    iomap.at pos = (extentOf s.z).start + pos ∧ pos + n ≤ s.z.zCapacity := by
  rw [zonefsWriteIomapBegin] at h
  split at h
  · cases h
  · rename_i hfits
    simp only [Bool.not_true, Bool.and_false, Bool.false_eq_true, if_false] at h
    have hat : ∀ (type : IomapType) (len : Int), (Iomap.mk type
        (some (sectorBytes s.z.zSector + alignDown s.sbi pos)) (alignDown s.sbi pos) len).at pos =
        (extentOf s.z).start + pos := by
      intro type len
      simp only [Iomap.at, Option.getD_some]
      change _ = sectorBytes s.z.zSector + pos
      omega
    split at h
    · cases h
      exact ⟨hat _ _, not_lt.mp hfits⟩
    · cases h
      exact ⟨hat _ _, not_lt.mp hfits⟩

/-- What a write that has been submitted comes to; the write pointer was at `f` in the zone. -/
inductive Submitted (E : List Extent) (written : δ → Nat → List UInt8) (f : FileState δ)
    (data : List UInt8) : Int × FileState δ → Prop where
  | failed (ret : Int) (g : FileState δ) (h : ret < 0) (hend : ret ≠ eIocbQueued)
      (ahead : Ahead E written data f g) : Submitted E written f data (ret, g)
  | written (arrived : List UInt8) (g : FileState δ) (part : arrived <+: data) (some : arrived ≠ [])
      (ahead : Ahead E written data f g) (atEnd : f.z.zWpoffset = (content written f).length)
      (all : content written g = content written f ++ arrived)
      (size : g.inode.iSize = (content written g).length)
      (wp : g.z.zWpoffset = f.z.zWpoffset + data.length) :
      Submitted E written f data (arrived.length, g)

theorem writeIomapBegin_error {direct : Bool} {pos n e : Int}
    (h : zonefsWriteIomapBegin direct pos n s = .error e) : e = eIo := by
  rw [zonefsWriteIomapBegin] at h
  split at h
  · cases h
    rfl
  split at h
  · cases h
    rfl
  simp only at h
  split at h
  · cases h
  · cases h

/-- The end of a request that failed. -/
theorem endIo_failed {f g : FileState δ} {data : List UInt8} (law : ZonedDevice D E written)
    (seq : Sequential E f.z) (iocb : ZoneKiocb) (size : Int) {error : Int} (h : error < 0)
    (ahead : Ahead E written data f g) :
    ∃ g', zonefsFileWriteDioEndIo D iocb size error g = (error, g') ∧
      Ahead E written data f g' := by
  rw [zonefsFileWriteDioEndIo, if_pos h.ne]
  refine ⟨_, rfl, ?_⟩
  split
  · exact ahead
  · exact ahead.ioError law seq true

theorem recordSize_fields (n : Int) (g : FileState δ) :
    (zonefsISizeWrite n (zonefsUpdateStats n g)).dev = g.dev ∧
      (zonefsISizeWrite n (zonefsUpdateStats n g)).inode.iSize = n ∧
      (zonefsISizeWrite n (zonefsUpdateStats n g)).z.zWpoffset = g.z.zWpoffset := by
  have stats : (zonefsUpdateStats n g).dev = g.dev ∧
      (zonefsUpdateStats n g).z.zWpoffset = g.z.zWpoffset := by
    rw [zonefsUpdateStats]
    split
    · exact ⟨rfl, rfl⟩
    · exact ⟨rfl, rfl⟩
  rw [zonefsISizeWrite]
  simp only
  split
  · exact ⟨stats.1, rfl, stats.2⟩
  · exact ⟨stats.1, rfl, stats.2⟩

/-- The end of a request that put something behind the size. -/
theorem endIo_eq {g : FileState δ} (seq : g.z.zoneCnv = false) (iocb : ZoneKiocb) {size : Int}
    (hsize : size ≠ 0) (h : g.inode.iSize < iocb.kiPos + size) :
    zonefsFileWriteDioEndIo D iocb size 0 g =
      (0, zonefsISizeWrite (iocb.kiPos + size) (zonefsUpdateStats (iocb.kiPos + size) g)) := by
  rw [zonefsFileWriteDioEndIo, if_neg (not_not.mpr rfl), if_pos ⟨hsize, seq, h⟩]

theorem endIo_written {g : FileState δ} (seq : g.z.zoneCnv = false) (iocb : ZoneKiocb)
    {size : Int} (hsize : size ≠ 0) (h : g.inode.iSize < iocb.kiPos + size) :
    ∃ g', zonefsFileWriteDioEndIo D iocb size 0 g = (0, g') ∧ Quiet g g' ∧ g'.dev = g.dev ∧
      g'.inode.iSize = iocb.kiPos + size ∧ g'.z.zWpoffset = g.z.zWpoffset := by
  refine ⟨_, endIo_eq seq iocb hsize h, ?_, recordSize_fields _ g⟩
  exact (quiet_updateStats _ g).trans (quiet_iSizeWrite _ _)

/-- What the device makes of a write at the write pointer. -/
theorem submitted_appended {f : FileState δ} (law : ZonedDevice D E written)
    (seq : Sequential E f.z) (ordered : Ordered f) {iocb : ZoneKiocb} {data : List UInt8}
    (hpos : iocb.kiPos = f.z.zWpoffset) (atEnd : f.z.zWpoffset = (content written f).length)
    {result : DioResult} {dev : δ} (elsewhere : Elsewhere E written f.z.zSector f.dev dev)
    (appended : Appended data (content written f) result (written dev f.z.zSector)) :
    Submitted E written f data
      (dioWriteDone D iocb { advanceWp data.length f with dev := dev } result) := by
  have arrives : ∀ arrived, arrived <+: data →
      written dev f.z.zSector = content written f ++ arrived →
      Ahead E written data f { advanceWp data.length f with dev := dev } := fun arrived part h =>
    ahead_arrived arrived part (Int.natCast_nonneg _) elsewhere h
  generalize hafter : written dev f.z.zSector = after at appended
  cases appended with
  | refused ret hret hqueued =>
    refine .failed ret _ hret hqueued (arrives [] List.nil_prefix ?_)
    rw [List.append_nil]
    exact hafter
  | failed size error ret arrived part herror hqueued =>
    obtain ⟨g, hend, ahead⟩ := endIo_failed law seq iocb size herror (arrives arrived part hafter)
    rw [dioWriteDone, dioWriteEnded, hend]
    simp only [if_pos herror.ne]
    exact .failed error g herror hqueued ahead
  | written arrived part some =>
    have hlen := List.length_pos_iff.mpr some
    have ahead := arrives arrived part hafter
    have hle := ordered.le
    have hwp : (advanceWp data.length f).z.zWpoffset = f.z.zWpoffset + data.length :=
      accountActive_wp _
    have behind : f.inode.iSize < iocb.kiPos + arrived.length := by omega
    have nonzero : (arrived.length : Int) ≠ 0 := by omega
    obtain ⟨g, hend, quiet, hdev, hsize, hwp'⟩ := endIo_written (D := D)
      (g := { advanceWp data.length f with dev := dev }) (seq.same ahead.zone).seq iocb nonzero
      behind
    have hcontent : content written g = content written f ++ arrived := by
      rw [content, hdev, quiet.zone.sector, ahead.zone.sector]
      exact hafter
    have hall : g.inode.iSize = (content written g).length := by
      rw [hsize, hcontent, List.length_append, hpos, atEnd]
      push_cast
      rfl
    rw [dioWriteDone, dioWriteEnded, hend]
    simp only [ne_eq, not_true_eq_false, if_false]
    refine .written arrived g part some ?_ atEnd hcontent hall (hwp'.trans hwp)
    refine ⟨ahead.toKept.trans quiet.toKept, ⟨arrived, part, hcontent⟩, ?_, ?_, ?_, ?_⟩
    · intro e he hne
      rw [hdev]
      exact elsewhere e he hne
    · intro _
      have hpart := part.length_le
      constructor
      · omega
      · rw [hall, hcontent, List.length_append, hwp'.trans hwp, atEnd]
        push_cast
        omega
    · intro _
      exact ⟨by omega, hall.le⟩
    · intro _
      refine .inr ?_
      rw [view, view, hall, Int.toNat_natCast, List.take_length, hcontent]
      exact (List.take_prefix _ _).trans (List.prefix_append _ _)

theorem submitted_misplaced {f : FileState δ} (law : ZonedDevice D E written)
    (seq : Sequential E f.z) {iocb : ZoneKiocb} {data : List UInt8}
    (result : DioResult) (dev : δ) (untouched : Untouched E written f.dev dev)
    (misplaced : Misplaced result) :
    Submitted E written f data
      (dioWriteDone D iocb { advanceWp data.length f with dev := dev } result) := by
  have nothing : Ahead E written data f { advanceWp data.length f with dev := dev } := by
    refine ahead_arrived [] List.nil_prefix (Int.natCast_nonneg _) (fun e he _ => untouched e he) ?_
    rw [List.append_nil]
    exact untouched _ seq.mem
  cases misplaced with
  | refused ret hret hqueued => exact .failed ret _ hret hqueued nothing
  | failed size error ret herror hqueued =>
    obtain ⟨g, hend, ahead⟩ := endIo_failed law seq iocb size herror nothing
    rw [dioWriteDone, dioWriteEnded, hend]
    simp only [if_pos herror.ne]
    exact .failed error g herror hqueued ahead

theorem submitted_iomapDioWrite {f : FileState δ} (law : ZonedDevice D E written)
    (seq : Sequential E f.z) (ordered : Ordered f) {iocb : ZoneKiocb} {data : List UInt8}
    (hpos : iocb.kiPos = f.z.zWpoffset) (hdata : data ≠ []) :
    Submitted E written f data (iomapDioWrite D iocb data (advanceWp data.length f)) := by
  have hlen := List.length_pos_iff.mpr hdata
  have advanced := (quiet_advanceWp data.length f).toKept
  have hextent : extentOf (advanceWp data.length f).z = extentOf f.z := by
    rw [extentOf, extentOf, advanced.zone.sector, advanced.zone.size, advanced.zone.capacity]
  rw [iomapDioWrite]
  cases hbegin : zonefsWriteIomapBegin true iocb.kiPos data.length (advanceWp data.length f) with
  | error e =>
    obtain rfl := writeIomapBegin_error hbegin
    exact submitted_misplaced law seq (.completed 0 eIo 0) f.dev (fun _ _ => rfl)
      (.failed 0 eIo 0 (by decide) (by decide))
  | ok iomap =>
    obtain ⟨hat, hfits⟩ := writeIomapBegin_at hbegin
    rw [hextent, hpos] at hat
    rw [advanced.zone.capacity, hpos] at hfits
    have hdev : (advanceWp data.length f).dev = f.dev := rfl
    simp only [hpos, hat, hdev]
    by_cases atEnd : f.z.zWpoffset = (content written f).length
    · have hroom : ((written f.dev (extentOf f.z).sector ++ data).length : Int) ≤
          (extentOf f.z).capacity := by
        rw [List.length_append]
        push_cast
        change ((content written f).length : Int) + data.length ≤ f.z.zCapacity
        omega
      obtain ⟨appended, elsewhere⟩ := law.write _ seq.mem data f.dev hdata hroom
      have hoffset : ((written f.dev (extentOf f.z).sector).length : Int) = f.z.zWpoffset :=
        atEnd.symm
      rw [hoffset] at appended elsewhere
      exact submitted_appended law seq ordered hpos atEnd elsewhere appended
    · have hcontains : (extentOf f.z).Contains ((extentOf f.z).start + f.z.zWpoffset) := by
        have hle := law.fits _ seq.mem
        have hnonneg := ordered.nonneg.trans ordered.le
        change f.z.zCapacity ≤ (extentOf f.z).size at hle
        constructor
        · omega
        · omega
      have hne : (extentOf f.z).start + f.z.zWpoffset ≠
          (extentOf f.z).start + (written f.dev (extentOf f.z).sector).length :=
        fun h => atEnd (Int.add_left_cancel h)
      obtain ⟨misplaced, untouched⟩ := law.misplaced _ seq.mem _ data f.dev hcontains hne
      exact submitted_misplaced law seq _ _ untouched misplaced

/-- What a write comes to: it is acknowledged for all the bytes that arrived, or it has failed. -/
inductive Wrote (D : BlockDevice δ) (E : List Extent) (written : δ → Nat → List UInt8)
    (f : FileState δ) (data : List UInt8) : Int × FileState δ → Prop where
  | failed (ret : Int) (g : FileState δ) (h : ret ≤ 0) (safe : Safe D E written f g)
      (arrives : Arrives written data f g) : Wrote D E written f data (ret, g)
  | done (n : Nat) (g : FileState δ) (hpos : 0 < n) (hle : n ≤ data.length)
      (safe : Safe D E written f g) (atEnd : f.z.zWpoffset = (content written f).length)
      (all : content written g = content written f ++ data.take n)
      (size : g.inode.iSize = (content written g).length) : Wrote D E written f data (n, g)

theorem wrote_submitDioWrite {f : FileState δ} (law : ZonedDevice D E written)
    (seq : Sequential E f.z) (ordered : Ordered f) {iocb : ZoneKiocb} {data : List UInt8}
    (hpos : iocb.kiPos = f.z.zWpoffset) (hdata : data ≠ []) :
    Wrote D E written f data (submitDioWrite D iocb data (advanceWp data.length f)) := by
  have submitted := submitted_iomapDioWrite law seq ordered hpos hdata
  rw [submitDioWrite]
  generalize iomapDioWrite D iocb data (advanceWp data.length f) = r at submitted ⊢
  cases submitted with
  | failed ret g hret hqueued ahead =>
    have hsense : makeSense ret < 0 ∧ makeSense ret ≠ eIocbQueued := by
      rw [makeSense]
      split
      · exact ⟨by decide, by decide⟩
      · exact ⟨hret, hqueued⟩
    have hcount : checkCount data.length (makeSense ret) = makeSense ret :=
      if_neg fun h => absurd h.1 (not_lt.mpr hsense.1.le)
    simp only [(seq.same ahead.zone).seq, Bool.false_eq_true, if_false, hcount]
    rw [recoverWrite, if_pos hsense]
    exact .failed _ _ hsense.1.le (ahead.recovered law seq) (ahead.ioError law seq true).arrives
  | written arrived g part some ahead atEnd all size wp =>
    have hlen := List.length_pos_iff.mpr some
    have hsense : makeSense (arrived.length : Int) = arrived.length :=
      if_neg (show (arrived.length : Int) ≠ -15 by omega)
    simp only [(seq.same ahead.zone).seq, Bool.false_eq_true, if_false, hsense]
    by_cases hfull : arrived.length = data.length
    · obtain rfl := part.eq_of_length hfull
      have hcount : checkCount arrived.length (arrived.length : Int) = arrived.length :=
        if_neg fun h => h.2 rfl
      rw [hcount, recoverWrite, if_neg fun h => absurd h.1 (by omega)]
      have safe : Safe D E written f g := by
        refine ⟨ahead.toKept, ahead.elsewhere, ahead.ordered, ?_, ahead.shown⟩
        intro _ settled
        have backed := ahead.backed settled
        refine ⟨backed, ?_⟩
        rw [wp, size, all, atEnd, List.length_append]
        push_cast
        rfl
      refine .done arrived.length g hlen le_rfl safe atEnd ?_ size
      rw [List.take_length]
      exact all
    · have hcount : checkCount data.length (arrived.length : Int) = eIo :=
        if_pos ⟨by omega, fun h => hfull (by exact_mod_cast h)⟩
      rw [hcount, recoverWrite, if_pos (by decide)]
      exact .failed _ _ (by decide) (ahead.recovered law seq) (ahead.ioError law seq true).arrives

/-- Where an acknowledged write has gone to. -/
def WentTo (f : FileState δ) (iocb : ZoneKiocb) (r : Int × FileState δ) : Prop :=
  0 < r.1 → iocb.append = false → iocb.kiPos = f.z.zWpoffset

theorem wrote_dioWrite {f : FileState δ} (law : ZonedDevice D E written) (seq : Sequential E f.z)
    (ordered : Ordered f) (iocb : ZoneKiocb) (data : List UInt8) :
    Wrote D E written f data (zonefsFileDioWrite D iocb data f) ∧
      WentTo f iocb (zonefsFileDioWrite D iocb data f) := by
  have refused : ∀ ret : Int, ret ≤ 0 →
      Wrote D E written f data (ret, f) ∧ WentTo f iocb (ret, f) := fun ret hret =>
    ⟨.failed ret f hret (.refl f) (arrives_nothing data rfl), fun h => absurd h (not_lt.mpr hret)⟩
  rw [zonefsFileDioWrite]
  split
  · exact refused _ (by decide)
  split
  · exact refused _ (by decide)
  have checked := writeChecked (s := f) iocb data
  generalize zonefsWriteChecks iocb data f = r at checked ⊢
  obtain ⟨count, iocb', data'⟩ := r
  simp only
  split
  · rename_i hcount
    exact refused _ hcount
  rename_i hpositive
  obtain ⟨hcount, hpart, _, hpos, _⟩ := checked (not_le.mp hpositive)
  simp only at hcount hpart hpos
  split
  · exact refused _ (by decide)
  simp only [seq.seq, Bool.false_eq_true, if_false]
  split
  · exact refused _ (by decide)
  · rename_i hat
    have hat := not_not.mp hat
    have hdata : data' ≠ [] := by
      rintro rfl
      rw [hcount] at hpositive
      exact hpositive le_rfl
    have wrote := wrote_submitDioWrite law seq ordered hat hdata
    rw [hcount]
    constructor
    · generalize submitDioWrite D iocb' data' (advanceWp data'.length f) = r at wrote ⊢
      cases wrote with
      | failed ret g hret safe arrives =>
        obtain ⟨arrived, part, all⟩ := arrives
        exact .failed ret g hret safe ⟨arrived, part.trans hpart, all⟩
      | done n g hn hle safe atEnd all size =>
        refine .done n g hn (hle.trans hpart.length_le) safe atEnd ?_ size
        rw [all]
        obtain ⟨rest, rfl⟩ := hpart
        rw [List.take_append_of_le_length hle]
    · intro _ happend
      rw [happend] at hpos
      exact hpos.symm.trans hat

theorem Wrote.safe {f : FileState δ} {data : List UInt8} {r : Int × FileState δ}
    (h : Wrote D E written f data r) :
    Safe D E written f r.2 ∧ Arrives written data f r.2 := by
  cases h with
  | failed ret g h safe arrives => exact ⟨safe, arrives⟩
  | done n g hpos hle safe atEnd all size => exact ⟨safe, _, List.take_prefix n data, all⟩

theorem wrote_writeIter {f : FileState δ} (law : ZonedDevice D E written) (seq : Sequential E f.z)
    (ordered : Ordered f) (iocb : ZoneKiocb) (data : List UInt8) :
    Wrote D E written f data (zonefsFileWriteIter D iocb data f) ∧
      WentTo f iocb (zonefsFileWriteIter D iocb data f) := by
  have refused : ∀ (ret : Int) (g : FileState δ), ret ≤ 0 → Safe D E written f g →
      Arrives written data f g →
      Wrote D E written f data (ret, g) ∧ WentTo f iocb (ret, g) := fun ret g hret safe arrives =>
    ⟨.failed ret g hret safe arrives, fun h => absurd h (not_lt.mpr hret)⟩
  have nothing : Arrives written data f f := arrives_nothing data rfl
  have buffered : ∀ g : FileState δ, g.z.zoneCnv = false →
      zonefsFileBufferedWrite D iocb data g = (eIo, g) := by
    intro g hseq
    rw [zonefsFileBufferedWrite, hseq]
    rfl
  rw [zonefsFileWriteIter]
  split
  · exact refused _ f (by decide) (.refl f) nothing
  split
  · exact refused _ f (by decide) (.refl f) nothing
  split
  · exact refused _ f (by decide) (.refl f) nothing
  split
  · have wrote := wrote_dioWrite law seq ordered iocb data
    generalize zonefsFileDioWrite D iocb data f = r at wrote ⊢
    obtain ⟨ret, g⟩ := r
    have written := wrote.1.safe
    simp only
    split
    · exact wrote
    · rw [buffered g (seq.same written.1.zone).seq]
      exact refused _ g (by decide) written.1 written.2
  · rw [buffered f seq.seq]
    exact refused _ f (by decide) (.refl f) nothing

theorem call_safe (law : ZonedDevice D E written) (seq : Sequential E s.z) (ordered : Ordered s)
    {c : FileCall} (hend : ∀ iocb size error, c ≠ .endIo iocb size error)
    (keeps : c.truncates = false) (possible : c.Possible s) :
    Safe D E written s (c.exec D s).2 := by
  cases c with
  | writeIter iocb data => exact (wrote_writeIter law seq ordered iocb data).1.safe.1
  | endIo iocb size error => exact absurd rfl (hend iocb size error)
  | truncate isize => cases keeps
  | setattr prepared transferred attr =>
    have hsize : attr.size = none := Option.not_isSome_iff_eq_none.mp (Bool.eq_false_iff.mp keeps)
    have done := setattr_done (D := D) (s := s) prepared transferred attr
    change Safe D E written s (zonefsInodeSetattr D prepared transferred attr s).2
    generalize zonefsInodeSetattr D prepared transferred attr s = r at done ⊢
    cases done with
    | refused ret => exact .refl s
    | failed mutable =>
      rw [hsize]
      exact .refl s
    | done mutable hret mode uid gid =>
      rw [hsize]
      exact safe_attributes seq mode uid gid
  | «open» fModeWrite opened => exact safe_passive law seq (call_passive rfl possible)
  | release fModeWrite => exact safe_passive law seq (call_passive rfl possible)
  | readIter iocb count => exact safe_passive law seq (call_passive rfl possible)
  | spliceRead pos len => exact safe_passive law seq (call_passive rfl possible)
  | fsync => exact safe_passive law seq (call_passive rfl possible)

theorem call_steady (law : ZonedDevice D E written) (seq : Sequential E s.z) (ordered : Ordered s)
    {c : FileCall} (hend : ∀ iocb size error, c ≠ .endIo iocb size error)
    (possible : c.Possible s) : Steady D E written s (c.exec D s).2 := by
  by_cases hsize : c.truncates = false
  · exact (call_safe law seq ordered hend hsize possible).steady
  cases c with
  | truncate isize => exact steady_truncate law seq isize
  | setattr prepared transferred attr =>
    have sized : Steady D E written s (setattrSize D attr.size s).2 := by
      cases attr.size with
      | none => exact (Safe.refl s).steady
      | some isize => exact steady_truncate law seq isize
    have done := setattr_done (D := D) (s := s) prepared transferred attr
    change Steady D E written s (zonefsInodeSetattr D prepared transferred attr s).2
    generalize zonefsInodeSetattr D prepared transferred attr s = r at done ⊢
    cases done with
    | refused ret => exact (Safe.refl s).steady
    | failed mutable => exact sized
    | done mutable hret mode uid gid =>
      exact sized.trans (safe_attributes (seq.same sized.zone) mode uid gid).steady
  | _ => exact absurd rfl hsize

end

end ZonefsAppends
