import HodoZns.ZonefsHistories

/-!
# Durability

The zones of a device lie one behind the other, the device keeps what is written to the
sequential ones, and what it reports of them for the mount is true. Then every byte of
a write that has been acknowledged stays in the file, and reads return it.
-/

namespace ZonefsDurability

open CallRuns Families ZonefsZones ZonefsFiles ZonefsOptions ZonefsRuns ZonefsSteps ZonefsMounts
  ZonefsCounts ZonefsBadZones ZonedDevices ZonefsContents ZonefsAppends ZonefsHistories

/-- The extent that the file of a sequential zone is to have. -/
def zoneExtent (zone : BlkZone) : Extent :=
  ⟨zone.start, sectorBytes zone.len, min maxLfsFilesize (sectorBytes zone.capacity)⟩

def seqExtents (zones : List BlkZone) : List Extent :=
  (zones.filter fun zone => zonefsZoneType zone = .seq).map zoneExtent

/-- The zones behind the super block, from sector `a` on, when the device is mounted. -/
structure Mountable {δ : Type} (D : BlockDevice δ) (written : δ → Nat → List UInt8) (a : Nat)
    (zones : List BlkZone) (dev : δ) : Prop where
  supported : ∀ zone ∈ zones, zone.type ≠ .other
  contiguous : Contiguous a zones
  fits : endOf a zones * 512 < 2 ^ 63
  capacity : ∀ zone ∈ zones, zone.capacity ≤ zone.len
  keeps : ZonedDevice D (seqExtents zones) written
  tells : ∀ zone ∈ zones, zonefsZoneType zone = .seq →
    Tells zone (zoneExtent zone) (written dev zone.start)

theorem mem_seqExtents {zones : List BlkZone} {zone : BlkZone} (hmem : zone ∈ zones)
    (htype : zonefsZoneType zone = .seq) : zoneExtent zone ∈ seqExtents zones :=
  List.mem_map_of_mem (List.mem_filter.mpr ⟨hmem, decide_eq_true htype⟩)

theorem of_mem_seqExtents {zones : List BlkZone} {e : Extent} (h : e ∈ seqExtents zones) :
    ∃ zone ∈ zones, zonefsZoneType zone = .seq ∧ zoneExtent zone = e := by
  obtain ⟨zone, hmem, rfl⟩ := List.mem_map.mp h
  obtain ⟨hzone, htype⟩ := List.mem_filter.mp hmem
  exact ⟨zone, hzone, of_decide_eq_true htype, rfl⟩

theorem aggregate_capacity (ztype : Ztype) {zone : BlkZone} {rest : List BlkZone}
    (hzone : zone.capacity ≤ zone.len) (hrest : ∀ y ∈ rest, y.capacity ≤ y.len) :
    (aggregate ztype zone rest).1.capacity ≤ (aggregate ztype zone rest).1.len ∧
      ∀ y ∈ (aggregate ztype zone rest).2, y.capacity ≤ y.len := by
  induction rest generalizing zone with
  | nil => exact ⟨hzone, hrest⟩
  | cons next rest ih =>
    rw [aggregate]
    obtain ⟨hnext, hrest'⟩ := List.forall_mem_cons.mp hrest
    split
    · exact ⟨hzone, hrest⟩
    · exact ih (Nat.add_le_add hzone hnext) hrest'

theorem zgroupZones_capacity (aggrcnv : Bool) (ztype : Ztype) {turns : Nat} {zones : List BlkZone}
    (h : ∀ zone ∈ zones, zone.capacity ≤ zone.len) :
    ∀ f ∈ zgroupZones aggrcnv ztype turns zones, f.capacity ≤ f.len := by
  induction turns generalizing zones with
  | zero => exact List.forall_mem_nil _
  | succ turns ih =>
    cases zones with
    | nil => exact List.forall_mem_nil _
    | cons zone rest =>
      obtain ⟨hzone, hrest⟩ := List.forall_mem_cons.mp h
      rw [zgroupZones]
      split
      · exact ih hrest
      split
      · obtain ⟨hfirst, hbehind⟩ := aggregate_capacity ztype hzone hrest
        exact List.forall_mem_cons.mpr ⟨hfirst, ih hbehind⟩
      · exact List.forall_mem_cons.mpr ⟨hzone, ih hrest⟩

section

variable {δ : Type} {D : BlockDevice δ} {F : Format} {written : δ → Nat → List UInt8}
  {a : Nat} {zones : List BlkZone}

/-- A conventional file has no byte of a sequential zone. -/
theorem outside_of_backs {dev : δ} (device : Mountable D written a zones dev) {f : BlkZone}
    (hf : f ∈ groupZones F .cnv zones) {z : ZonefsZone} (backs : Backs .cnv f z) :
    Outside (seqExtents zones) z := by
  have divided := zgroupZones_divided F.aggrcnv .cnv le_rfl device.contiguous
  have hcapacity := zgroupZones_capacity F.aggrcnv .cnv device.capacity f hf
  have hend := divided.end_le device.contiguous hf
  have bytes : ∀ n ≤ endOf a zones, sectorBytes n = n * 512 := by
    intro n hn
    exact sectorBytes_of_lt (lt_of_le_of_lt (Nat.mul_le_mul_right 512 hn) device.fits)
  have hstart : f.start ≤ endOf a zones := by omega
  have hroom : f.capacity ≤ endOf a zones := by omega
  constructor
  · exact backs.cnv
  · intro e he pos hnonneg hlt contains
    obtain ⟨zone, hzone, htype, rfl⟩ := of_mem_seqExtents he
    have hend' := device.contiguous.end_le hzone
    have hpos : pos < f.capacity * 512 := by
      rw [← bytes _ hroom]
      exact lt_of_lt_of_le hlt (backs.capacity ▸ min_le_right _ _)
    obtain ⟨hge, hlt'⟩ := contains
    change sectorBytes zone.start ≤ _ at hge
    change _ < sectorBytes zone.start + sectorBytes zone.len at hlt'
    rw [backs.sector, bytes _ hstart, bytes _ (Nat.le_of_add_right_le hend')] at hge hlt'
    rw [bytes _ (Nat.le_trans (Nat.le_add_left _ _) hend')] at hlt'
    clear hlt
    -- the sector of the byte is in the conventional file and in the sequential zone
    have cf : Covers f (f.start + (pos / 512).toNat) := ⟨by omega, by omega⟩
    have cz : Covers zone (f.start + (pos / 512).toNat) := ⟨by omega, by omega⟩
    obtain ⟨zone', hzone', htype', covers⟩ := (divided.covers _).mp ⟨f, hf, cf⟩
    rw [device.contiguous.covers_unique hzone' hzone covers cz, htype] at htype'
    cases htype'

/-- The file of a sequential zone starts with what has been written, or empty if the zone is
bad. -/
structure Begins (written : δ → Nat → List UInt8) (zone : BlkZone) (dev : δ) (z : ZonefsZone) :
    Prop where
  seq : z.zoneCnv = false
  extent : extentOf z = zoneExtent zone
  nonneg : 0 ≤ z.zWpoffset
  le : z.zWpoffset ≤ (written dev zone.start).length
  whole : z.isBad = false → z.zWpoffset = (written dev zone.start).length

theorem checkedZone_whole {zone : BlkZone} {c : List UInt8} (tells : Tells zone (zoneExtent zone) c)
    (good : (checkedZone F .seq zone).isBad = false) :
    (checkedZone F .seq zone).zWpoffset = c.length := by
  rcases checkCondition_tells (z := newZone F .seq zone) rfl tells with bad | hlen
  · have hbad : (checkedZone F .seq zone).isBad = true := bad
    rw [good] at hbad
    cases hbad
  · exact hlen

theorem checkedZone_wpoffset {zone : BlkZone} {c : List UInt8}
    (tells : Tells zone (zoneExtent zone) c) :
    (checkedZone F .seq zone).zWpoffset = 0 ∧ zone.cond ≠ .impOpen ∧ zone.cond ≠ .expOpen ∨
      (checkedZone F .seq zone).zWpoffset = c.length := by
  have told := checkCondition_tells (z := newZone F .seq zone) rfl tells
  have bad : (zonefsCheckZoneCondition (newZone F .seq zone) zone).2.isBad = true →
      (zonefsCheckZoneCondition (newZone F .seq zone) zone).1 = 0 ∧ zone.cond ≠ .impOpen ∧
        zone.cond ≠ .expOpen := by
    rw [zonefsCheckZoneCondition]
    intro hbad
    cases hcond : zone.cond with
    | offline => exact ⟨rfl, by decide, by decide⟩
    | readonly => exact ⟨rfl, by decide, by decide⟩
    | _ =>
      rw [hcond] at hbad
      cases hbad
  exact told.imp bad id

/-- A close at the mount loses nothing. -/
theorem untouched_closeOpenZone {E : List Extent} {dev : δ} {zone : BlkZone}
    (law : ZonedDevice D E written) (hmem : zoneExtent zone ∈ E)
    (tells : Tells zone (zoneExtent zone) (written dev zone.start)) :
    Untouched E written dev (closeOpenZone D .seq zone (checkedZone F .seq zone) dev).2 := by
  rw [closeOpenZone]
  split
  · rename_i hopen
    have backs := (checkedZone_backs F .seq zone).1
    obtain ⟨managed, elsewhere⟩ := law.mgmt _ hmem
      (if (checkedZone F .seq zone).zWpoffset = 0 then .zoneReset else .zoneClose) dev
    rw [zonefsZoneMgmt, backs.sector, backs.size]
    simp only [true_and]
    refine untouched_of_elsewhere elsewhere ?_
    by_cases hzero : (checkedZone F .seq zone).zWpoffset = 0
    · have hempty : written dev zone.start = [] := by
        rcases checkedZone_wpoffset (F := F) tells with ⟨_, notImp, notExp⟩ | hlen
        · rcases hopen.2 with h | h
          · exact absurd h notImp
          · exact absurd h notExp
        · exact List.length_eq_zero_iff.mp (by omega)
      rw [if_pos hzero] at managed ⊢
      exact reset_nothing managed hempty
    · rw [if_neg hzero] at managed ⊢
      exact Managed.same managed (.inr rfl)
  · exact fun _ _ => rfl

theorem initZone_dev {ztype : Ztype} {zone : BlkZone} {s s' : Setup δ} {z : ZonefsZone}
    (h : initZone D F ztype zone s = .ok (z, s')) :
    s'.dev = (closeOpenZone D ztype zone (checkedZone F ztype zone) s.dev).2 ∧
      z.zWpoffset = (checkedZone F ztype zone).zWpoffset ∧
      z.isBad = (checkedZone F ztype zone).isBad := by
  have hactive := (checkedZone_backs F ztype zone).2.2
  rw [initZone] at h
  simp only [accountActive_first _ hactive] at h
  split at h
  · cases h
  split at h
  · cases h
  · cases h
    exact ⟨rfl, rfl, rfl⟩

/-- The mount of sequential zones. -/
theorem initFiles_begins {E : List Extent} (law : ZonedDevice D E written) {files : List BlkZone}
    {s s' : Setup δ} {zs : List ZonefsZone} (h : initFiles D F .seq files s = .ok (zs, s'))
    (mem : ∀ f ∈ files, zoneExtent f ∈ E)
    (tells : ∀ f ∈ files, Tells f (zoneExtent f) (written s.dev f.start)) :
    Untouched E written s.dev s'.dev ∧
      List.Forall₂ (fun f z => Begins written f s'.dev z) files zs := by
  refine initFiles_induct (P := fun files s zs s' => (∀ f ∈ files, zoneExtent f ∈ E) →
    (∀ f ∈ files, Tells f (zoneExtent f) (written s.dev f.start)) →
    Untouched E written s.dev s'.dev ∧
      List.Forall₂ (fun f z => Begins written f s'.dev z) files zs) ?_ ?_ h mem tells
  · exact fun s _ _ => ⟨fun _ _ => rfl, .nil⟩
  · intro zone rest s z s₁ zs s' hone ih mem tells
    obtain ⟨memZone, memRest⟩ := List.forall_mem_cons.mp mem
    obtain ⟨tellsZone, tellsRest⟩ := List.forall_mem_cons.mp tells
    obtain ⟨hdev, hwp, hbad⟩ := initZone_dev hone
    have closed : Untouched E written s.dev s₁.dev :=
      hdev ▸ untouched_closeOpenZone law memZone tellsZone
    obtain ⟨untouched, begins⟩ := ih memRest fun f hf => by
      have same : written s₁.dev f.start = written s.dev f.start := closed _ (memRest f hf)
      rw [same]
      exact tellsRest f hf
    have all := untouched_trans closed untouched
    refine ⟨all, .cons ?_ begins⟩
    obtain ⟨_, backs, _⟩ := initZone_ok hone
    have same : written s'.dev zone.start = written s.dev zone.start := all _ memZone
    have hlen := checkedZone_wpoffset (F := F) tellsZone
    constructor
    · exact backs.cnv
    · rw [extentOf, backs.sector, backs.size, backs.capacity]
      rfl
    · rw [hwp]
      rcases hlen with ⟨hzero, _⟩ | hlen <;> omega
    · rw [hwp, same]
      rcases hlen with ⟨hzero, _⟩ | hlen <;> omega
    · intro good
      rw [hwp, same]
      exact checkedZone_whole tellsZone (hbad ▸ good)

theorem initFiles_cnv {files : List BlkZone} {s s' : Setup δ} {zs : List ZonefsZone}
    (h : initFiles D F .cnv files s = .ok (zs, s')) : s'.dev = s.dev := by
  refine initFiles_induct (P := fun _ s _ s' => s'.dev = s.dev) ?_ ?_ h
  · exact fun _ => rfl
  · intro zone rest s z s₁ zs s' hone ih
    exact ih.trans (initZone_dev hone).1

/-- A mount that has succeeded. -/
structure MountedOn (D : BlockDevice δ) (written : δ → Nat → List UInt8) (zones : List BlkZone)
    (g : Zgroups) (s : Setup δ) : Prop where
  cnv : ∀ z ∈ g.cnv, Outside (seqExtents zones) z
  seq : ∀ z ∈ g.seq, ∃ zone ∈ zones, zonefsZoneType zone = .seq ∧ Begins written zone s.dev z
  apart : g.seq.Pairwise fun y z => y.zSector ≠ z.zSector

theorem fill_super_mounted {dev : δ} (device : Mountable D written a zones dev)
    {maxOpen maxActive blocksizeBits : Nat} {rdonly : Bool} {data : Option (List UInt8)}
    {super : BlkZone} {g : Zgroups} {s : Setup δ}
    (h : zonefsFillSuper D F maxOpen maxActive blocksizeBits rdonly data (zones.length + 1)
      (.ok (super :: zones)) dev = .ok (g, s)) : MountedOn D written zones g s := by
  rw [zonefsFillSuper] at h
  simp only at h
  split at h
  · cases h
  obtain ⟨s₁, hcnv, hseq⟩ := mount_groups device.supported device.contiguous h
  have hdev : s₁.dev = dev := initFiles_cnv hcnv
  have hfiles : ∀ f, f ∈ groupZones F .seq zones ↔ f ∈ zones ∧ zonefsZoneType f = .seq := by
    intro f
    rw [groupZones, zgroupZones_seq F.aggrcnv le_rfl]
    simp
  have mem : ∀ f ∈ groupZones F .seq zones, zoneExtent f ∈ seqExtents zones := by
    intro f hf
    obtain ⟨hzone, htype⟩ := (hfiles f).mp hf
    exact mem_seqExtents hzone htype
  have tells : ∀ f ∈ groupZones F .seq zones, Tells f (zoneExtent f) (written s₁.dev f.start) := by
    intro f hf
    obtain ⟨hzone, htype⟩ := (hfiles f).mp hf
    exact hdev ▸ device.tells f hzone htype
  obtain ⟨_, begins⟩ := initFiles_begins device.keeps hseq mem tells
  constructor
  · intro z hz
    obtain ⟨f, hf, backs⟩ := forall₂_mem (initFiles_ok hcnv).backs hz
    exact outside_of_backs device hf backs
  · intro z hz
    obtain ⟨zone, hmem, hbegins⟩ := forall₂_mem begins hz
    obtain ⟨hzone, htype⟩ := (hfiles zone).mp hmem
    exact ⟨zone, hzone, htype, hbegins⟩
  · have divided := zgroupZones_divided F.aggrcnv .seq le_rfl device.contiguous
    have starts : (groupZones F .seq zones).map BlkZone.start = g.seq.map ZonefsZone.zSector := by
      rw [← List.forall₂_eq_eq_eq, List.forall₂_map_left_iff, List.forall₂_map_right_iff]
      exact begins.imp fun _ _ h => (congrArg Extent.sector h.extent).symm
    rw [← List.pairwise_map, ← starts, List.pairwise_map]
    refine divided.ordered.imp_of_mem fun {f _} hf _ hle => ?_
    have hpos := divided.positive f hf
    omega

theorem laid_mounted {g : Zgroups} {s : Setup δ} (h : MountedOn D written zones g s) :
    Laid (seqExtents zones) (mountedFs g s) := by
  have placed : ∀ z ∈ g.zones, Sequential (seqExtents zones) z ∨ Outside (seqExtents zones) z := by
    intro z hz
    rcases List.mem_append.mp hz with hz | hz
    · exact .inr (h.cnv z hz)
    · obtain ⟨zone, hzone, htype, begins⟩ := h.seq z hz
      exact .inl ⟨begins.seq, begins.extent ▸ mem_seqExtents hzone htype⟩
  have apart : g.zones.Pairwise fun y z => y.zoneCnv = false → z.zoneCnv = false →
      y.zSector ≠ z.zSector := by
    refine List.pairwise_append.mpr ⟨?_, h.apart.imp fun hne _ _ => hne, ?_⟩
    · refine List.pairwise_of_forall_mem_list fun y hy _ _ hseq => ?_
      rw [(h.cnv y hy).cnv] at hseq
      cases hseq
    · intro y hy _ _ hseq
      rw [(h.cnv y hy).cnv] at hseq
      cases hseq
  constructor
  · exact fun i => placed _ (List.getElem_mem i.isLt)
  · intro i j hij hi hj
    have pairs := List.pairwise_iff_getElem.mp apart
    rcases lt_or_gt_of_ne (Fin.val_ne_of_ne hij) with hlt | hlt
    · exact pairs i j i.isLt j.isLt hlt hi hj
    · exact (pairs j i j.isLt i.isLt hlt hj hi).symm

/-- A mount leaves the files in order. -/
theorem tidy_mounted {g : Zgroups} {s : Setup δ} (h : MountedOn D written zones g s) :
    Tidy D (seqExtents zones) written (mountedFs g s) := by
  have begins : ∀ z ∈ g.zones, z.zoneCnv = false →
      0 ≤ z.zWpoffset ∧ z.zWpoffset ≤ (written s.dev z.zSector).length := by
    intro z hz hseq
    rcases List.mem_append.mp hz with hz | hz
    · rw [(h.cnv z hz).cnv] at hseq
      cases hseq
    · obtain ⟨zone, _, _, hbegins⟩ := h.seq z hz
      have hsector : z.zSector = zone.start := congrArg Extent.sector hbegins.extent
      rw [hsector]
      exact ⟨hbegins.nonneg, hbegins.le⟩
  constructor
  · exact laid_mounted h
  · exact fun i hi => (begins _ (List.getElem_mem i.isLt) hi).1
  · exact fun _ _ => le_rfl
  · exact fun _ _ _ => rfl
  · exact fun _ i hi => (begins _ (List.getElem_mem i.isLt) hi).2

end

section

variable {ι δ : Type} [DecidableEq ι] {D : BlockDevice δ} {E : List Extent}
  {written : δ → Nat → List UInt8} {s s' : Fs ι δ}

/-- What a write to a sequential file comes to. -/
structure WriteDone (D : BlockDevice δ) (E : List Extent) (written : δ → Nat → List UInt8)
    (s : Fs ι δ) (i : ι) (iocb : ZoneKiocb) (bytes : List UInt8) (n : Int) (s' : Fs ι δ)
    (f : FileState δ) : Prop where
  at? : ZonefsRuns.at? s i = some f
  next : s' = s.set i (parts (zonefsFileWriteIter D iocb bytes f).2)
  answer : n = (zonefsFileWriteIter D iocb bytes f).1
  wrote : Wrote D E written f bytes (zonefsFileWriteIter D iocb bytes f)
  went : WentTo f iocb (zonefsFileWriteIter D iocb bytes f)

theorem write_done (law : ZonedDevice D E written) (tidy : Tidy D E written s) {i : ι}
    (hseq : (s.member i).z.zoneCnv = false) {iocb : ZoneKiocb} {bytes : List UInt8} {n : Int}
    (hstep : serialStep D s (.call i (.writeIter iocb bytes)) = some (n, s')) :
    ∃ f, WriteDone D E written s i iocb bytes n s' f := by
  have done := serial_done hstep
  generalize hc : Serial.call i (.writeIter iocb bytes) = c at done
  cases done with
  | call j f c hat possible =>
    cases hc
    have seq := tidy.laid.sequential hseq
    rw [member_of_at? hat] at seq
    obtain ⟨wrote, went⟩ := wrote_writeIter law seq (tidy.ordered hat seq.seq) iocb bytes
    exact ⟨f, hat, rfl, rfl, wrote, went⟩
  | other c ret s' hcall h => exact absurd hc.symm (hcall i _)

theorem WriteDone.next_at {i : ι} {iocb : ZoneKiocb} {bytes : List UInt8} {n : Int}
    {f : FileState δ} (h : WriteDone D E written s i iocb bytes n s' f) :
    ZonefsRuns.at? s' i = some (zonefsFileWriteIter D iocb bytes f).2 := by
  rw [h.next]
  exact at?_set s i _

/-- The bytes of an acknowledged write are behind all that was in the zone. -/
theorem WriteDone.acknowledged {i : ι} {iocb : ZoneKiocb} {bytes : List UInt8} {n : Int}
    {f : FileState δ} (h : WriteDone D E written s i iocb bytes n s' f) (hack : 0 < n) :
    n ≤ bytes.length ∧
      shown written s' i = contentOf written s i ++ bytes.take n.toNat ∧
      (iocb.append = false → iocb.kiPos = (contentOf written s i).length) ∧
      f.z.zWpoffset = (contentOf written s i).length := by
  have hat' := h.next_at
  have wrote := h.wrote
  have went := h.went
  rw [contentOf_at h.at?]
  rw [h.answer] at hack ⊢
  generalize zonefsFileWriteIter D iocb bytes f = r at wrote went hack hat' ⊢
  cases wrote with
  | failed ret g hret safe arrives => exact absurd hret (not_le.mpr hack)
  | done m g hpos hle safe atEnd all size =>
    refine ⟨Int.ofNat_le.mpr hle, ?_, fun happend => (went hack happend).trans atEnd, atEnd⟩
    rw [shown_at hat', view, size, Int.toNat_natCast, List.take_length, all]
    rfl

/-- If reports are answered, all that was in the zone was shown. -/
theorem WriteDone.shown_all {i : ι} {iocb : ZoneKiocb} {bytes : List UInt8} {n : Int}
    {f : FileState δ} (h : WriteDone D E written s i iocb bytes n s' f)
    (tidy : Tidy D E written s) (reports : Reports D E) (hseq : (s.member i).z.zoneCnv = false)
    (hack : 0 < n) : shown written s i = contentOf written s i := by
  obtain ⟨_, _, _, hwp⟩ := h.acknowledged hack
  have size := tidy.wp reports i hseq
  have hsize : fileSize (s.member i) = (contentOf written s i).length := by
    rw [← size, member_of_at? h.at?, hwp]
  rw [shown, hsize, Int.toNat_natCast, List.take_length]

/-- What is read and a piece that is there. -/
theorem take_prefix_piece {read piece whole : List UInt8} (hread : read <+: whole)
    (hpiece : piece <+: whole) : read.take piece.length <+: piece := by
  refine List.prefix_of_prefix_length_le ((List.take_prefix _ _).trans hread) hpiece ?_
  rw [List.length_take]
  exact min_le_left _ _

end

section

variable {δ : Type} {D : BlockDevice δ} {F : Format} {written : δ → Nat → List UInt8}
  {a : Nat} {zones : List BlkZone} {dev : δ} {maxOpen maxActive blocksizeBits : Nat}
  {rdonly : Bool} {data : Option (List UInt8)} {super : BlkZone} {g : Zgroups} {s : Setup δ}

/-- On a device that answers its reports a write that is acknowledged has put its bytes at the end
of what the file shows, one that fails has put a part of them into the zone at most, and no other
file shows anything else than before. -/
theorem write_appends (device : Mountable D written a zones dev)
    (reports : Reports D (seqExtents zones))
    (h : zonefsFillSuper D F maxOpen maxActive blocksizeBits rdonly data (zones.length + 1)
      (.ok (super :: zones)) dev = .ok (g, s))
    {cs : List (Serial (Fin g.zones.length))} (hend : ∀ c ∈ cs, c.isEnd = false)
    {answers : List Int} {s₁ s₂ : Fs _ δ}
    (hrun : run (serialStep D) cs (mountedFs g s) = some (answers, s₁))
    {i : Fin g.zones.length} (hseq : (s₁.member i).z.zoneCnv = false) {iocb : ZoneKiocb}
    {bytes : List UInt8} {n : Int}
    (hstep : serialStep D s₁ (.call i (.writeIter iocb bytes)) = some (n, s₂)) :
    (0 < n → n ≤ bytes.length ∧
      shown written s₂ i = shown written s₁ i ++ bytes.take n.toNat ∧
      (iocb.append = false → iocb.kiPos = (shown written s₁ i).length)) ∧
    (n ≤ 0 → ((s₂.member i).z.zoneOffline = true ∨ shown written s₁ i <+: shown written s₂ i) ∧
      ∃ arrived, arrived <+: bytes ∧
        contentOf written s₂ i = contentOf written s₁ i ++ arrived) ∧
    ∀ j, j ≠ i → (s₁.member j).z.zoneCnv = false → shown written s₂ j = shown written s₁ j := by
  have tidy := tidy_run device.keeps (tidy_mounted (fill_super_mounted device h)) hend hrun
  obtain ⟨f, done⟩ := write_done device.keeps tidy hseq hstep
  refine ⟨?_, ?_, ?_⟩
  · intro hack
    obtain ⟨hle, hshown, hpos, _⟩ := done.acknowledged hack
    rw [done.shown_all tidy reports hseq hack]
    exact ⟨hle, hshown, hpos⟩
  · intro _
    obtain ⟨safe, arrived, part, all⟩ := done.wrote.safe
    have leaves : Serial.leaves i (.call i (.writeIter iocb bytes)) = true := by
      simp [Serial.leaves, FileCall.truncates]
    constructor
    · exact shown_grows device.keeps tidy rfl hseq leaves (serial_done hstep)
    · refine ⟨arrived, part, ?_⟩
      rw [contentOf_at done.next_at, contentOf_at done.at?]
      exact all
  · intro j hij hj
    exact shown_other device.keeps tidy rfl hj hij (serial_done hstep)

theorem mixed_mountable : Mountable mixedDrive Drive.written 8 mixedZones mixedSetup.dev where
  supported := by decide
  contiguous := by simp [Contiguous, mixedZones]
  fits := by decide
  capacity := by decide
  keeps := drive_lawful (e := ⟨16, 4096, 4096⟩) (by decide) (by decide)
  tells := by
    intro zone hzone htype
    rcases List.mem_cons.mp hzone with rfl | hzone
    · cases htype
    · obtain rfl := List.mem_singleton.mp hzone
      rfl

theorem mixed_reports : Reports mixedDrive (seqExtents mixedZones) :=
  drive_reports ⟨16, 4096, 4096⟩

/-- The file has been opened for writing. -/
def opened : List (Serial (Fin mixedGroups.zones.length)) :=
  [.lookup seqFile, .call seqFile (.open true 0)]

def firstWrite : Serial (Fin mixedGroups.zones.length) :=
  .call seqFile (.writeIter (directWrite 0) (List.replicate 512 7))

def nextWrite : Serial (Fin mixedGroups.zones.length) :=
  .call seqFile (.writeIter (directWrite 512) (List.replicate 1024 8))

def writtenFs : Fs (Fin mixedGroups.zones.length) Drive :=
  runState (serialStep mixedDrive) [firstWrite]
    (runState (serialStep mixedDrive) opened (mountedFs mixedGroups mixedSetup))

theorem opened_runs : run (serialStep mixedDrive) opened (mountedFs mixedGroups mixedSetup) =
    some (runAnswers (serialStep mixedDrive) opened (mountedFs mixedGroups mixedSetup),
      runState (serialStep mixedDrive) opened (mountedFs mixedGroups mixedSetup)) :=
  run_ends _ _ _ (by decide +kernel)

theorem firstWrite_done :
    serialStep mixedDrive
      (runState (serialStep mixedDrive) opened (mountedFs mixedGroups mixedSetup)) firstWrite =
      some (512, writtenFs) :=
  step_ends _ _ _ _ (by decide +kernel)

/-- The first write is acknowledged; the next one fails, and half of it has arrived. -/
theorem writes_arrive : ∃ answers s₁ s₃,
    run (serialStep mixedDrive) opened (mountedFs mixedGroups mixedSetup) = some (answers, s₁) ∧
      serialStep mixedDrive s₁ firstWrite = some (512, writtenFs) ∧
      shown Drive.written writtenFs seqFile =
        shown Drive.written s₁ seqFile ++ (List.replicate 512 7).take 512 ∧
      serialStep mixedDrive writtenFs nextWrite = some (-5, s₃) ∧
      ((s₃.member seqFile).z.zoneOffline = true ∨
        shown Drive.written writtenFs seqFile <+: shown Drive.written s₃ seqFile) ∧
      ∃ arrived, arrived <+: List.replicate 1024 8 ∧
        contentOf Drive.written s₃ seqFile =
          contentOf Drive.written writtenFs seqFile ++ arrived := by
  have hstep := step_ends (serialStep mixedDrive) nextWrite writtenFs (-5) (by decide +kernel)
  have first := write_appends mixed_mountable mixed_reports mixed_mounted (by decide) opened_runs
    (by decide +kernel) firstWrite_done
  have next := write_appends mixed_mountable mixed_reports mixed_mounted (by decide)
    (run_concat opened_runs firstWrite_done) (by decide +kernel) hstep
  exact ⟨_, _, _, opened_runs, firstWrite_done, (first.1 (by decide)).2.1, hstep,
    next.2.1 (by decide)⟩

/-- What has been acknowledged stays where it is in the file, as long as the file is not truncated
and the zone is not lost, whatever errors the device comes up with. -/
theorem acknowledged_write_lasts (device : Mountable D written a zones dev)
    (h : zonefsFillSuper D F maxOpen maxActive blocksizeBits rdonly data (zones.length + 1)
      (.ok (super :: zones)) dev = .ok (g, s))
    {cs cs' : List (Serial (Fin g.zones.length))} (hend : ∀ c ∈ cs, c.isEnd = false)
    (hend' : ∀ c ∈ cs', c.isEnd = false) {answers answers' : List Int} {s₁ s₂ s₃ : Fs _ δ}
    (hrun : run (serialStep D) cs (mountedFs g s) = some (answers, s₁))
    {i : Fin g.zones.length} (hseq : (s₁.member i).z.zoneCnv = false) {iocb : ZoneKiocb}
    {bytes : List UInt8} {n : Int}
    (hstep : serialStep D s₁ (.call i (.writeIter iocb bytes)) = some (n, s₂)) (hack : 0 < n)
    (leaves : ∀ c ∈ cs', Serial.leaves i c = true)
    (hrun' : run (serialStep D) cs' s₂ = some (answers', s₃)) :
    (s₃.member i).z.zoneOffline = true ∨
      ∃ before, shown written s₁ i <+: before ∧
        (iocb.append = false → iocb.kiPos = before.length) ∧
        before ++ bytes.take n.toNat <+: shown written s₃ i := by
  have tidy := tidy_run device.keeps (tidy_mounted (fill_super_mounted device h)) hend hrun
  obtain ⟨f, done⟩ := write_done device.keeps tidy hseq hstep
  obtain ⟨_, hshown, hpos, _⟩ := done.acknowledged hack
  have tidy' := tidy_kept device.keeps tidy rfl (serial_done hstep)
  have hseq' := (done_same (serial_done hstep) i).cnv.trans hseq
  refine (shown_lasts device.keeps tidy' hend' hseq' leaves hrun').imp id fun lasts => ?_
  exact ⟨contentOf written s₁ i, List.take_prefix _ _, hpos, hshown ▸ lasts⟩

theorem nextWrite_runs : run (serialStep mixedDrive) [nextWrite] writtenFs =
    some (runAnswers (serialStep mixedDrive) [nextWrite] writtenFs,
      runState (serialStep mixedDrive) [nextWrite] writtenFs) :=
  run_ends _ _ _ (by decide +kernel)

/-- The first write stays in the file when the next one fails. -/
theorem firstWrite_lasts : ∃ answers s₁ answers' s₃,
    run (serialStep mixedDrive) opened (mountedFs mixedGroups mixedSetup) = some (answers, s₁) ∧
      serialStep mixedDrive s₁ firstWrite = some (512, writtenFs) ∧
      run (serialStep mixedDrive) [nextWrite] writtenFs = some (answers', s₃) ∧
      ((s₃.member seqFile).z.zoneOffline = true ∨
        ∃ before, shown Drive.written s₁ seqFile <+: before ∧
          ((directWrite 0).append = false → (directWrite 0).kiPos = before.length) ∧
          before ++ (List.replicate 512 7).take 512 <+: shown Drive.written s₃ seqFile) := by
  exact ⟨_, _, _, _, opened_runs, firstWrite_done, nextWrite_runs,
    acknowledged_write_lasts mixed_mountable mixed_mounted (by decide) (by decide) opened_runs
      (by decide +kernel) firstWrite_done (by decide) (by decide) nextWrite_runs⟩

/-- On a device that answers its reports, a direct read where an acknowledged write has begun
returns the bytes of the write, if it returns anything, as long as the file has not been
truncated. -/
theorem acknowledged_write_read (device : Mountable D written a zones dev)
    (reports : Reports D (seqExtents zones))
    (h : zonefsFillSuper D F maxOpen maxActive blocksizeBits rdonly data (zones.length + 1)
      (.ok (super :: zones)) dev = .ok (g, s))
    {cs cs' : List (Serial (Fin g.zones.length))} (hend : ∀ c ∈ cs, c.isEnd = false)
    (hend' : ∀ c ∈ cs', c.isEnd = false) {answers answers' : List Int} {s₁ s₂ s₃ : Fs _ δ}
    (hrun : run (serialStep D) cs (mountedFs g s) = some (answers, s₁))
    {i : Fin g.zones.length} (hseq : (s₁.member i).z.zoneCnv = false) {iocb : ZoneKiocb}
    {bytes : List UInt8} {n : Int}
    (hstep : serialStep D s₁ (.call i (.writeIter iocb bytes)) = some (n, s₂)) (hack : 0 < n)
    (leaves : ∀ c ∈ cs', Serial.leaves i c = true)
    (hrun' : run (serialStep D) cs' s₂ = some (answers', s₃)) {f : FileState δ}
    (hat : at? s₃ i = some f) {riocb : ZoneKiocb} (direct : riocb.direct = true)
    (hpos : riocb.kiPos = (shown written s₁ i).length) (count : Nat)
    (hret : 0 ≤ (zonefsFileReadIter D riocb count f).1.1) :
    (zonefsFileReadIter D riocb count f).1.1 = (zonefsFileReadIter D riocb count f).1.2.length ∧
      (zonefsFileReadIter D riocb count f).1.2.take n.toNat <+: bytes := by
  have tidy := tidy_run device.keeps (tidy_mounted (fill_super_mounted device h)) hend hrun
  obtain ⟨f₁, done⟩ := write_done device.keeps tidy hseq hstep
  obtain ⟨hle, hshown, _, _⟩ := done.acknowledged hack
  have step := serial_done hstep
  have tidy₂ := tidy_kept device.keeps tidy rfl step
  have hseq₂ := (done_same step i).cnv.trans hseq
  have tidy₃ := tidy_run device.keeps tidy₂ hend' hrun'
  have hseq₃ := (run_same hrun' i).cnv.trans hseq₂
  have seq := tidy₃.laid.sequential hseq₃
  rw [member_of_at? hat] at seq
  have backed := (tidy₃.settled reports hat seq.seq).toBacked
  obtain ⟨hread, hlen⟩ := read_shows device.keeps seq backed direct (hpos ▸ Int.natCast_nonneg _)
    count hret
  refine ⟨hlen, ?_⟩
  rcases shown_lasts device.keeps tidy₂ hend' hseq₂ leaves hrun' with offline | lasts
  · -- a file that is offline cannot be read
    have fenced := fencedFile_run (fencedFile_kept _ _ _ _
      (fencedFile_run (fencedFile_mounted g s) hrun) step) hrun'
    rw [(refusesReads_of_fenced fenced offline hat).read riocb count] at hret
    exact absurd hret (show ¬ 0 ≤ ePerm by decide)
  · have piece : bytes.take n.toNat <+: (view written f).drop riocb.kiPos.toNat := by
      rw [hpos, Int.toNat_natCast, done.shown_all tidy reports hseq hack, ← shown_at hat]
      rw [hshown] at lasts
      have dropped := lasts.drop (contentOf written s₁ i).length
      rwa [List.drop_left] at dropped
    have prefixed := take_prefix_piece hread piece
    rw [List.length_take, min_eq_left (by omega)] at prefixed
    exact prefixed.trans (List.take_prefix _ _)

/-- The first write is read when the next one has failed. -/
theorem firstWrite_read : ∃ answers' s₃ f,
    run (serialStep mixedDrive) [nextWrite] writtenFs = some (answers', s₃) ∧
      at? s₃ seqFile = some f ∧
      (zonefsFileReadIter mixedDrive (directWrite 0) 512 f).1.1 =
        (zonefsFileReadIter mixedDrive (directWrite 0) 512 f).1.2.length ∧
      (zonefsFileReadIter mixedDrive (directWrite 0) 512 f).1.2.take 512 <+:
        List.replicate 512 7 := by
  have hread : (at? (runState (serialStep mixedDrive) [nextWrite] writtenFs) seqFile).map
      (fun f => decide (0 ≤ (zonefsFileReadIter mixedDrive (directWrite 0) 512 f).1.1)) =
      some true := by
    decide +kernel
  obtain ⟨f, hat, hret⟩ := Option.map_eq_some_iff.mp hread
  exact ⟨_, _, f, nextWrite_runs, hat,
    acknowledged_write_read mixed_mountable mixed_reports mixed_mounted (by decide) (by decide)
      opened_runs (by decide +kernel) firstWrite_done (by decide) (by decide) nextWrite_runs hat rfl
      (by decide +kernel) 512 (of_decide_eq_true hret)⟩

end

end ZonefsDurability
