import HodoZns.ZonefsAppends

/-!
# Calls on a device without errors

As long as the device fails no command, the file of a sequential zone is as long as
what has been written to the zone, it can be opened by one writer, and every write at
its end succeeds.
-/

namespace ZonefsErrorFree

open CallRuns Families ZonefsZones ZonefsFiles ZonefsRuns ZonefsSteps ZonefsBadZones
  ZonedDevices ZonefsContents ZonefsAppends

section

variable {δ : Type} {D : BlockDevice δ} {E : List Extent} {written : δ → Nat → List UInt8}
  {s s' s'' : FileState δ}

/-- A step that marks nothing bad and does not make the file system read-only. -/
structure Calm (s s' : FileState δ) : Prop where
  kept : Kept s s'
  unfenced : Unfenced s s'
  rdonly : s'.sbi.rdonly = s.sbi.rdonly

theorem Calm.refl (s : FileState δ) : Calm s s := ⟨.refl s, .refl s, rfl⟩

theorem Calm.trans (h : Calm s s') (h' : Calm s' s'') : Calm s s'' :=
  ⟨h.kept.trans h'.kept, h.unfenced.trans h'.unfenced, h'.rdonly.trans h.rdonly⟩

theorem calm_device (s : FileState δ) (dev : δ) : Calm s { s with dev := dev } :=
  ⟨(quiet_device dev).toKept, ⟨rfl, rfl, rfl, rfl⟩, rfl⟩

theorem calm_accountActive (s : FileState δ) : Calm s (zonefsInodeAccountActive s) := by
  refine ⟨(quiet_accountActive s).toKept, unfenced_accountActive s, ?_⟩
  rw [zonefsInodeAccountActive]
  by_cases hcnv : s.z.zoneCnv = true
  · rw [zonefsAccountActive_cnv s.sbi hcnv]
  · rw [zonefsAccountActive_eq s.sbi (Bool.eq_false_iff.mpr hcnv)]

theorem calm_updateStats (isize : Int) (s : FileState δ) : Calm s (zonefsUpdateStats isize s) := by
  refine ⟨(quiet_updateStats isize s).toKept, unfenced_updateStats isize s, ?_⟩
  rw [zonefsUpdateStats]
  split
  · rfl
  · rfl

theorem calm_iSizeWrite (isize : Int) (s : FileState δ) : Calm s (zonefsISizeWrite isize s) := by
  refine ⟨(quiet_iSizeWrite isize s).toKept, unfenced_iSizeWrite isize s, ?_⟩
  rw [zonefsISizeWrite]
  simp only
  split
  · split
    · rfl
    · rfl
  · rfl

theorem calm_advanceWp (count : Int) (s : FileState δ) : Calm s (advanceWp count s) :=
  Calm.trans ⟨(quiet_wpoffset (s.z.zWpoffset + count) s).toKept, ⟨rfl, rfl, rfl, rfl⟩, rfl⟩
    (calm_accountActive _)

theorem calm_openFlag (isOpen : Bool) (s : FileState δ) :
    Calm s { s with z := { s.z with zoneOpen := isOpen } } :=
  ⟨kept_openFlag isOpen s, ⟨rfl, rfl, rfl, rfl⟩, rfl⟩

theorem calm_addWro (n : Int) (s : FileState δ) : Calm s (addWro n s) :=
  ⟨kept_addWro n s, ⟨rfl, rfl, rfl, rfl⟩, rfl⟩

theorem calm_takeReference (s : FileState δ) : Calm s (takeReference s) :=
  ⟨kept_takeReference s, ⟨rfl, rfl, rfl, rfl⟩, rfl⟩

theorem calm_dropReference (s : FileState δ) : Calm s (dropReference s) :=
  ⟨kept_dropReference s, ⟨rfl, rfl, rfl, rfl⟩, rfl⟩

theorem calm_truncateSetsize (isize : Int) (s : FileState δ) :
    Calm s (truncateSetsize isize s) := by
  refine ⟨(quiet_truncateSetsize isize s).toKept, ?_, ?_⟩
  · have stats := unfenced_updateStats isize s
    have account := unfenced_accountActive
      { zonefsUpdateStats isize s with
        inode := { (zonefsUpdateStats isize s).inode with iSize := isize }
        z := { (zonefsUpdateStats isize s).z with zWpoffset := isize } }
    exact stats.trans ⟨account.offline, account.readonly, account.immutable, account.mode⟩
  · exact (calm_accountActive _).rdonly.trans (calm_updateStats isize s).rdonly

/-- The file holds `c`, and nothing is in the way of writing more. -/
structure Holds (E : List Extent) (written : δ → Nat → List UInt8) (c : List UInt8)
    (s : FileState δ) : Prop where
  seq : Sequential E s.z
  good : s.z.isBad = false
  content : content written s = c
  wp : s.z.zWpoffset = c.length
  size : s.inode.iSize = c.length
  mutable : s.inode.immutable = false
  plain : s.inode.swapfile = false
  writable : s.sbi.rdonly = false

/-- The file is open for writing `n` times, and no other file is. -/
structure OpenBy (n : Nat) (s : FileState δ) : Prop where
  refcnt : s.inode.iWrRefcnt = n
  wro : s.sbi.wroSeqFiles = n

/-- A step without errors, told by what it changes. -/
theorem Holds.step {c c' : List UInt8} (h : Holds E written c s) (calm : Calm s s')
    (content : ZonefsContents.content written s' = c') (wp : s'.z.zWpoffset = c'.length)
    (size : s'.inode.iSize = c'.length) : Holds E written c' s' := by
  refine ⟨h.seq.same calm.kept.zone, ?_, content, wp, size, ?_, ?_, ?_⟩
  · have good := h.good
    rwa [ZonefsZone.isBad, ← calm.unfenced.offline, ← calm.unfenced.readonly] at good
  · exact calm.unfenced.immutable.trans h.mutable
  · exact calm.kept.swapfile.trans h.plain
  · exact calm.rdonly.trans h.writable

/-- A step that leaves the zones, the write pointer and the size alone. -/
theorem Holds.same {c : List UInt8} (h : Holds E written c s) (calm : Calm s s')
    (untouched : Untouched E written s.dev s'.dev) (wp : s'.z.zWpoffset = s.z.zWpoffset)
    (size : s'.inode.iSize = s.inode.iSize) : Holds E written c s' := by
  refine h.step calm ?_ (wp.trans h.wp) (size.trans h.size)
  rw [ZonefsContents.content, calm.kept.zone.sector]
  exact (untouched _ h.seq.mem).trans h.content

/-- An open or a close of the zone succeeds, and leaves the zones alone. -/
theorem mgmt_ok (sound : ErrorFree D E written) {c : List UInt8}
    (h : Holds E written c s) {op : ReqOp} (hop : op = .zoneOpen ∨ op = .zoneClose) :
    (zonefsInodeZoneMgmt D op s).1 = 0 ∧
      Untouched E written s.dev (zonefsInodeZoneMgmt D op s).2.dev := by
  have done := mgmt_done sound.toZonedDevice h.seq op
  have managed := done.managed
  constructor
  · refine sound.managed _ h.seq.mem _ s.dev ?_
    rcases hop with rfl | rfl
    · simp
    · split
      · nofun
      · nofun
  · refine untouched_of_elsewhere done.elsewhere ?_
    by_cases hreset : op = .zoneClose ∧ s.z.zWpoffset = 0
    · rw [if_pos hreset] at managed
      have hempty : content written s = [] := by
        rw [h.content]
        have := h.wp
        exact List.length_eq_zero_iff.mp (by omega)
      exact reset_nothing managed hempty
    · rw [if_neg hreset] at managed
      exact Managed.same managed hop

/-- What a call comes to that leaves the zones alone. -/
structure Passed (E : List Extent) (written : δ → Nat → List UInt8) (c : List UInt8)
    (s s' : FileState δ) : Prop where
  holds : Holds E written c s'
  untouched : Untouched E written s.dev s'.dev

theorem openZone_ok (sound : ErrorFree D E written) {c : List UInt8} (h : Holds E written c s) :
    (openZone D s).1 = 0 ∧ Passed E written c s (openZone D s).2 := by
  obtain ⟨hret, untouched⟩ := mgmt_ok sound h (.inl rfl)
  rw [openZone]
  split
  · simp only [hret, ne_eq, not_true_eq_false, if_false, true_and]
    have calm := ((calm_device s (zonefsInodeZoneMgmt D .zoneOpen s).2.dev).trans
      (calm_openFlag true _)).trans (calm_accountActive _)
    exact ⟨h.same calm untouched (accountActive_wp _) rfl, untouched⟩
  · exact ⟨rfl, h, fun _ _ => rfl⟩

/-- The first writer is let in. -/
theorem open_ok (sound : ErrorFree D E written) {c : List UInt8} (h : Holds E written c s)
    (unused : OpenBy 0 s) :
    (zonefsFileOpen D true 0 s).1 = 0 ∧ Passed E written c s (zonefsFileOpen D true 0 s).2 ∧
      OpenBy 1 (zonefsFileOpen D true 0 s).2 := by
  have counted : Holds E written c (addWro 1 s) := h.same (calm_addWro 1 s) (fun _ _ => rfl) rfl rfl
  have first : (firstWriter D s).1 = 0 ∧ Passed E written c s (firstWriter D s).2 := by
    rw [firstWriter]
    split
    · have fits : ¬ ((addWro 1 s).sbi.maxWroSeqFiles ≠ 0 ∧
          (addWro 1 s).sbi.wroSeqFiles > (addWro 1 s).sbi.maxWroSeqFiles) := by
        have hwro : (addWro 1 s).sbi.wroSeqFiles = 1 := by
          rw [addWro, unused.wro]
          rfl
        rw [hwro]
        omega
      rw [if_neg fits]
      obtain ⟨hret, passed⟩ := openZone_ok sound counted
      exact ⟨hret, passed.holds, passed.untouched⟩
    · exact ⟨rfl, counted, fun _ _ => rfl⟩
  obtain ⟨hret, passed⟩ := first
  have opened := opened_firstWriter (D := D) s
  have needed : zonefsSeqFileNeedWro true s.z = true := by
    rw [zonefsSeqFileNeedWro, h.seq.seq]
    rfl
  rw [zonefsFileOpen, if_neg (not_not.mpr rfl), if_pos needed, zonefsSeqFileWriteOpen,
    if_pos unused.refcnt]
  simp only [hret, if_true, true_and]
  constructor
  · exact ⟨passed.holds.same (calm_takeReference _) (fun _ _ => rfl) rfl rfl, passed.untouched⟩
  · constructor
    · rw [takeReference, opened.refcnt, unused.refcnt]
    · rw [takeReference, opened.counted hret, unused.wro]
      rfl

/-- The last writer closes the zone. -/
theorem release_ok (sound : ErrorFree D E written) {c : List UInt8} (h : Holds E written c s)
    (used : OpenBy 1 s) :
    Passed E written c s (zonefsFileRelease D true s).2 ∧
      OpenBy 0 (zonefsFileRelease D true s).2 := by
  have needed : zonefsSeqFileNeedWro true s.z = true := by
    rw [zonefsSeqFileNeedWro, h.seq.seq]
    rfl
  have dropped : Holds E written c (dropReference s) :=
    h.same (calm_dropReference s) (fun _ _ => rfl) rfl rfl
  have unused : (dropReference s).inode.iWrRefcnt = 0 := by
    rw [dropReference, used.refcnt]
  have hwro : (dropReference s).sbi.wroSeqFiles = 1 := used.wro
  obtain ⟨hret, untouched⟩ := mgmt_ok sound dropped (.inr rfl)
  rw [zonefsFileRelease, if_pos needed, zonefsSeqFileWriteClose]
  simp only [unused, if_true]
  rw [lastWriter]
  split
  · simp only [hret, ne_eq, not_true_eq_false, if_false]
    have quiet := quiet_closeZone (dropReference s)
      (zonefsInodeZoneMgmt D .zoneClose (dropReference s)).2.dev
    have calm := (((calm_device (dropReference s)
      (zonefsInodeZoneMgmt D .zoneClose (dropReference s)).2.dev).trans
        (calm_openFlag false _)).trans (calm_accountActive _)).trans (calm_addWro (-1) _)
    refine ⟨⟨dropped.same calm untouched (accountActive_wp _) rfl, untouched⟩, unused, ?_⟩
    have left := congrArg (fun n : Int => n + -1) (quiet.wro.trans hwro)
    exact left
  · refine ⟨⟨dropped.same (calm_addWro (-1) _) (fun _ _ => rfl) rfl rfl,
      fun _ _ => rfl⟩, unused, ?_⟩
    have left := congrArg (fun n : Int => n + -1) hwro
    exact left

/-- A truncation to 0 succeeds. -/
theorem truncate_ok (sound : ErrorFree D E written) {c : List UInt8} (h : Holds E written c s) :
    (zonefsFileTruncate D 0 s).1 = 0 ∧ Holds E written [] (zonefsFileTruncate D 0 s).2 := by
  have done := mgmt_done sound.toZonedDevice h.seq .zoneReset
  have hret : (zonefsInodeZoneMgmt D .zoneReset s).1 = 0 :=
    sound.managed _ h.seq.mem .zoneReset s.dev (by decide)
  have seq := h.seq.same (quiet_zoneMgmt (D := D) .zoneReset s).toKept.zone
  have opened : (truncateOpenZone D 0 (zonefsInodeZoneMgmt D .zoneReset s).2).1 = 0 := by
    rw [truncateOpenZone]
    split
    · exact sound.managed _ seq.mem .zoneOpen _ (by decide)
    · rfl
  have calmOpened : Calm (zonefsInodeZoneMgmt D .zoneReset s).2
      (truncateOpenZone D 0 (zonefsInodeZoneMgmt D .zoneReset s).2).2 := by
    rw [truncateOpenZone]
    split
    · exact calm_device _ _
    · exact .refl _
  have calm := ((calm_device s (zonefsInodeZoneMgmt D .zoneReset s).2.dev).trans calmOpened).trans
    (calm_truncateSetsize 0 _)
  have hcontent : content written (truncateOpenZone D 0 (zonefsInodeZoneMgmt D .zoneReset s).2).2 =
      [] := by
    have reset := reset_clears done.managed hret
    rw [content, calmOpened.kept.zone.sector]
    exact (content_openZone sound.toZonedDevice seq 0 _ seq.mem).trans reset
  rw [zonefsFileTruncate, if_neg (by rw [h.seq.seq]; exact Bool.false_ne_true)]
  simp only [truncateOp, if_true]
  by_cases hsize : 0 = s.inode.iSize
  · rw [if_pos hsize]
    have hempty : c = [] := List.length_eq_zero_iff.mp (by have := h.size; omega)
    exact ⟨rfl, hempty ▸ h⟩
  · rw [if_neg hsize]
    simp only [hret, ne_eq, not_true_eq_false, if_false, opened, true_and]
    refine h.step calm ?_ (accountActive_wp _) rfl
    rw [content, (calm_truncateSetsize 0 _).kept.zone.sector, setsize_dev]
    exact hcontent

/-- The request of the kernel for a direct transfer that it waits for. -/
def directIocb (pos : Int) : ZoneKiocb where
  kiPos := pos
  direct := true
  nowait := false
  append := false
  sync := true
  largefile := true
  fsizeLimit := none
  lockBusy := false

/-- What is written of the data, so that it fits into the zone. -/
def fitting (z : ZonefsZone) (pos : Int) (data : List UInt8) : List UInt8 :=
  data.take (min (data.length : Int) (z.zCapacity - pos)).toNat

theorem fitting_all {z : ZonefsZone} {pos : Int} {data : List UInt8}
    (h : pos + data.length ≤ z.zCapacity) : fitting z pos data = data :=
  List.take_of_length_le (by omega)

theorem fitting_ne_nil {z : ZonefsZone} {pos : Int} {data : List UInt8} (hdata : data ≠ [])
    (hpos : pos < z.zCapacity) : fitting z pos data ≠ [] := by
  have hlen := List.length_pos_iff.mpr hdata
  rw [← List.length_pos_iff, fitting, List.length_take]
  omega

theorem dioWrite_eq {c : List UInt8} (h : Holds E written c s) {pos : Int} {data : List UInt8}
    (hdata : data ≠ []) (hpos : pos < s.z.zCapacity) :
    zonefsFileDioWrite D (directIocb pos) data s =
      if unaligned s.sbi pos (fitting s.z pos data).length then (eInval, s)
      else if pos ≠ s.z.zWpoffset then (eInval, s)
      else submitDioWrite D (directIocb pos) (fitting s.z pos data)
        (advanceWp (fitting s.z pos data).length s) := by
  have hlen := List.length_pos_iff.mpr hdata
  have hpart := List.length_pos_iff.mpr (fitting_ne_nil hdata hpos)
  have limits : zonefsWriteCheckLimits (directIocb pos) s.z pos data.length =
      min (data.length : Int) (s.z.zCapacity - pos) :=
    if_neg (not_le.mpr hpos)
  have checks : zonefsWriteChecks (directIocb pos) data s =
      (((fitting s.z pos data).length : Int), directIocb pos, fitting s.z pos data) := by
    rw [zonefsWriteChecks, if_neg (by rw [h.plain]; exact Bool.false_ne_true), if_neg (by omega),
      if_neg (by exact Bool.false_ne_true), if_neg (by exact Bool.false_ne_true)]
    simp only [show (directIocb pos).append = false from rfl,
      show (directIocb pos).kiPos = pos from rfl, Bool.false_eq_true, if_false]
    rw [limits, if_neg (by omega)]
    rfl
  rw [zonefsFileDioWrite, if_neg (by simp [directIocb]), if_neg (by exact Bool.false_ne_true),
    checks]
  simp only [h.seq.seq, Bool.false_eq_true, if_false]
  rw [if_neg (by omega)]
  rfl

/-- What a write comes to that appends its data. -/
structure Extended (E : List Extent) (written : δ → Nat → List UInt8) (c data : List UInt8)
    (s : FileState δ) (r : Int × FileState δ) : Prop where
  ret : r.1 = data.length
  holds : Holds E written (c ++ data) r.2
  elsewhere : Elsewhere E written s.z.zSector s.dev r.2.dev
  refcnt : r.2.inode.iWrRefcnt = s.inode.iWrRefcnt
  wro : r.2.sbi.wroSeqFiles = s.sbi.wroSeqFiles

theorem appended_all {data before after : List UInt8} {result : DioResult}
    (h : Appended data before result after)
    (all : result = .completed data.length 0 data.length) : after = before ++ data := by
  cases h with
  | refused ret hret hend => cases all
  | failed size error ret arrived part herror hend =>
    obtain ⟨_, rfl, _⟩ := DioResult.completed.inj all
    exact absurd herror (lt_irrefl 0)
  | written arrived part some =>
    obtain ⟨hlen, _⟩ := DioResult.completed.inj all
    rw [part.eq_of_length (Int.ofNat_inj.mp hlen)]

/-- The data is behind the rest on the device, and the size is put right. -/
theorem recorded_ok {c data : List UInt8} (h : Holds E written c s) {dev : δ}
    (after : written dev s.z.zSector = c ++ data)
    (elsewhere : Elsewhere E written s.z.zSector s.dev dev) :
    Extended E written c data s (data.length,
      zonefsISizeWrite (c.length + data.length) (zonefsUpdateStats (c.length + data.length)
        { advanceWp data.length s with dev := dev })) := by
  have calm := ((calm_advanceWp data.length s).trans (calm_device _ dev)).trans
    ((calm_updateStats (c.length + data.length) _).trans
      (calm_iSizeWrite (c.length + data.length) _))
  have quiet := ((quiet_advanceWp data.length s).trans (quiet_device dev)).trans
    ((quiet_updateStats (c.length + data.length) _).trans
      (quiet_iSizeWrite (c.length + data.length) _))
  obtain ⟨hdev, hsize, hwp⟩ := recordSize_fields (c.length + data.length)
    { advanceWp data.length s with dev := dev }
  have hall : ((c ++ data).length : Int) = c.length + data.length := by
    rw [List.length_append]
    push_cast
    rfl
  constructor
  · rfl
  · refine h.step calm ?_ ?_ (hsize.trans hall.symm)
    · rw [content, calm.kept.zone.sector, hdev]
      exact after
    · rw [hwp, hall]
      exact (accountActive_wp _).trans (congrArg (· + (data.length : Int)) h.wp)
  · intro e he hne
    rw [hdev]
    exact elsewhere e he hne
  · exact quiet.refcnt
  · exact quiet.wro

/-- Where a write goes to that fits. -/
theorem writeIomapBegin_fits {pos n : Int} (hfits : pos + n ≤ s.z.zCapacity) :
    ∃ iomap, zonefsWriteIomapBegin true pos n (advanceWp n s) = .ok iomap ∧
      iomap.at pos = (extentOf s.z).start + pos := by
  have zone := (calm_advanceWp n s).kept.zone
  have hextent : extentOf (advanceWp n s).z = extentOf s.z := by
    rw [extentOf, extentOf, zone.sector, zone.size, zone.capacity]
  have hcap := zone.capacity
  have begins : ∃ iomap, zonefsWriteIomapBegin true pos n (advanceWp n s) = .ok iomap := by
    rw [zonefsWriteIomapBegin, if_neg (by omega), if_neg (by simp)]
    simp only
    split
    · exact ⟨_, rfl⟩
    · exact ⟨_, rfl⟩
  obtain ⟨iomap, hbegin⟩ := begins
  exact ⟨iomap, hbegin, hextent ▸ (writeIomapBegin_at hbegin).1⟩

theorem iomapDioWrite_ok (sound : ErrorFree D E written) {c : List UInt8}
    (h : Holds E written c s) {data : List UInt8} (hdata : data ≠ [])
    (hfits : c.length + data.length ≤ s.z.zCapacity) :
    Extended E written c data s
      (iomapDioWrite D (directIocb c.length) data (advanceWp data.length s)) := by
  have hlen := List.length_pos_iff.mpr hdata
  obtain ⟨iomap, hbegin, hat⟩ := writeIomapBegin_fits hfits
  have hcontent : written s.dev (extentOf s.z).sector = c := h.content
  have hroom : ((written s.dev (extentOf s.z).sector ++ data).length : Int) ≤
      (extentOf s.z).capacity := by
    rw [hcontent, List.length_append]
    exact_mod_cast hfits
  have appended := sound.appended _ h.seq.mem data s.dev hdata hroom
  obtain ⟨arrives, elsewhere⟩ := sound.write _ h.seq.mem data s.dev hdata hroom
  have after := appended_all arrives appended
  rw [hcontent] at appended after elsewhere
  have requested : iomapDioWrite D (directIocb c.length) data (advanceWp data.length s) =
      dioWriteDone D (directIocb c.length)
        { advanceWp data.length s with
          dev := (D.dioWrite ((extentOf s.z).start + c.length) data s.dev).2 }
        (D.dioWrite ((extentOf s.z).start + c.length) data s.dev).1 := by
    have hkiPos : (directIocb c.length).kiPos = c.length := rfl
    rw [← hat, iomapDioWrite, hkiPos, hbegin]
    rfl
  rw [requested, appended]
  generalize D.dioWrite ((extentOf s.z).start + c.length) data s.dev = result at after elsewhere ⊢
  have behind : (advanceWp data.length s).inode.iSize < (c.length : Int) + data.length := by
    change s.inode.iSize < _
    have := h.size
    omega
  have nonzero : (data.length : Int) ≠ 0 := by omega
  have seq := h.seq.same (calm_advanceWp data.length s).kept.zone
  have hend := endIo_eq (D := D) (g := { advanceWp data.length s with dev := result.2 }) seq.seq
    (directIocb c.length) nonzero behind
  rw [dioWriteDone, dioWriteEnded, hend]
  exact recorded_ok h after elsewhere

theorem submitDioWrite_ok (sound : ErrorFree D E written) {c : List UInt8}
    (h : Holds E written c s) {data : List UInt8} (hdata : data ≠ [])
    (hfits : c.length + data.length ≤ s.z.zCapacity) :
    Extended E written c data s
      (submitDioWrite D (directIocb c.length) data (advanceWp data.length s)) := by
  have extended := iomapDioWrite_ok sound h hdata hfits
  rw [submitDioWrite]
  generalize iomapDioWrite D (directIocb c.length) data (advanceWp data.length s) = r at extended ⊢
  obtain ⟨ret, g⟩ := r
  obtain rfl : ret = data.length := extended.ret
  have hsense : makeSense (data.length : Int) = data.length :=
    if_neg (show (data.length : Int) ≠ -15 by omega)
  have hcount : checkCount data.length (data.length : Int) = data.length :=
    if_neg fun h => h.2 rfl
  have hrecover : recoverWrite D (data.length : Int) g = g := if_neg fun h => by omega
  have hseq : g.z.zoneCnv = false := extended.holds.seq.seq
  simp only [hseq, Bool.false_eq_true, if_false, hsense, hcount, hrecover]
  exact extended

/-- A write to a file with nothing in its way. -/
theorem writeIter_eq {c : List UInt8} (h : Holds E written c s) (pos : Int) (data : List UInt8) :
    zonefsFileWriteIter D (directIocb pos) data s =
      if pos ≥ s.z.zCapacity then (eFBig, s)
      else
        let (ret, s') := zonefsFileDioWrite D (directIocb pos) data s
        if ret ≠ eNotBlk then (ret, s')
        else zonefsFileBufferedWrite D (directIocb pos) data s' := by
  rw [zonefsFileWriteIter, if_neg (by rw [h.mutable]; exact Bool.false_ne_true),
    if_neg (by rw [h.writable]; exact Bool.false_ne_true)]
  rfl

/-- A write at the end that is aligned and fits appends its data. -/
theorem write_ok (sound : ErrorFree D E written) {c : List UInt8} (h : Holds E written c s)
    {data : List UInt8} (hdata : data ≠ []) (hfits : c.length + data.length ≤ s.z.zCapacity)
    (aligned : unaligned s.sbi c.length data.length = false) :
    Extended E written c data s (zonefsFileWriteIter D (directIocb c.length) data s) := by
  have hlen := List.length_pos_iff.mpr hdata
  have hpos : (c.length : Int) < s.z.zCapacity := by omega
  have submitted := submitDioWrite_ok sound h hdata hfits
  have direct : zonefsFileDioWrite D (directIocb c.length) data s =
      submitDioWrite D (directIocb c.length) data (advanceWp data.length s) := by
    rw [dioWrite_eq h hdata hpos, fitting_all hfits, aligned, if_neg nofun,
      if_neg (not_not.mpr h.wp.symm)]
  have hret : (data.length : Int) ≠ eNotBlk := show (data.length : Int) ≠ -15 by omega
  rw [writeIter_eq h, if_neg (not_le.mpr hpos), direct]
  simp only [submitted.ret, hret, ne_eq, not_false_eq_true, if_true]
  exact ⟨rfl, submitted.holds, submitted.elsewhere, submitted.refcnt, submitted.wro⟩

/-- A write that is not aligned, or not at the end, is refused. -/
theorem write_refused {c : List UInt8} (h : Holds E written c s) {pos : Int} {data : List UInt8}
    (hdata : data ≠ []) (hpos : pos < s.z.zCapacity)
    (misplaced : unaligned s.sbi pos (fitting s.z pos data).length = true ∨ pos ≠ c.length) :
    zonefsFileWriteIter D (directIocb pos) data s = (eInval, s) := by
  have direct : zonefsFileDioWrite D (directIocb pos) data s = (eInval, s) := by
    rw [dioWrite_eq h hdata hpos]
    rcases misplaced with hunaligned | hne
    · rw [if_pos hunaligned]
    · have hwp : pos ≠ s.z.zWpoffset := fun heq => hne (heq.trans h.wp)
      rw [if_pos hwp, ite_self]
  rw [writeIter_eq h, if_neg (not_le.mpr hpos), direct]
  exact if_pos (by decide)

theorem readIter_eq {c : List UInt8} (h : Holds E written c s) (pos : Int) (count : Nat) :
    zonefsFileReadIter D (directIocb pos) count s =
      if pos ≥ s.z.zCapacity then ((0, []), s)
      else if pos ≥ c.length then ((0, []), s)
      else if unaligned s.sbi pos (min (count : Int) (c.length - pos)) then ((eInval, []), s)
      else iomapDioRead D pos (min (count : Int) (c.length - pos)) s := by
  have readable : unreadable s.inode = false := by
    rw [unreadable, h.mutable]
    rfl
  rw [zonefsFileReadIter, readable, h.size]
  rfl

/-- A read returns what it asks for, if it is aligned and there is so much. -/
theorem read_ok (sound : ErrorFree D E written) {c : List UInt8} (h : Holds E written c s)
    {pos : Int} {count : Nat} (hpos : 0 ≤ pos) (hcount : 0 < count) (hle : pos + count ≤ c.length)
    (hcap : pos < s.z.zCapacity) (aligned : unaligned s.sbi pos count = false) :
    ∃ dev, Untouched E written s.dev dev ∧
      zonefsFileReadIter D (directIocb pos) count s =
        (((count : Int), (c.drop pos.toNat).take count), { s with dev := dev }) := by
  have hcontent : written s.dev (extentOf s.z).sector = c := h.content
  have hall : min (count : Int) (c.length - pos) = count := by omega
  have hin : pos < s.inode.iSize := by
    rw [h.size]
    omega
  have hread : pos + count ≤ (written s.dev (extentOf s.z).sector).length := by
    rw [hcontent]
    exact hle
  obtain ⟨hmapped, hat⟩ := readIomapBegin_at (s := s) (n := count) hin
  have readOut := sound.readOut _ h.seq.mem pos count s.dev hpos (Int.natCast_pos.mpr hcount) hread
  rw [hcontent] at readOut
  refine ⟨_, sound.readOnly ((extentOf s.z).start + pos) count s.dev, ?_⟩
  rw [readIter_eq h, if_neg (by omega), if_neg (by omega), hall, aligned, if_neg nofun,
    iomapDioRead]
  simp only [if_neg hmapped, hat]
  rw [readOut]
  rfl

end

end ZonefsErrorFree
