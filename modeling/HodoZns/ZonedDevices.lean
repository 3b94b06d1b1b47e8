import HodoZns.ZonefsFiles

/-!
# Zoned devices

What zonefs relies on. A sequential zone keeps what is written to it at its write
pointer, one write behind the other, until it is reset. A command that fails has no
effect, but a write that fails may have arrived in part. A report tells the write
pointer, unless it tells that the zone is offline or read-only.
-/

namespace ZonedDevices

open ZonefsZones ZonefsFiles

/-- Where a zone is, and the capacity of it, in bytes. -/
structure Extent where
  sector : Nat
  size : Int
  capacity : Int
  deriving DecidableEq

def extentOf (z : ZonefsZone) : Extent := ⟨z.zSector, z.zSize, z.zCapacity⟩

def Extent.start (e : Extent) : Int := sectorBytes e.sector

def Extent.Contains (e : Extent) (offset : Int) : Prop :=
  e.start ≤ offset ∧ offset < e.start + e.size

instance (e : Extent) (offset : Int) : Decidable (e.Contains offset) :=
  inferInstanceAs (Decidable (_ ∧ _))

/-- What has been written to the zone, before and after a zone management command. -/
inductive Managed (e : Extent) (before : List UInt8) : ReqOp → Int → List UInt8 → Prop where
  | failed (op : ReqOp) (ret : Int) (h : ret ≠ 0) : Managed e before op ret before
  | opened : Managed e before .zoneOpen 0 before
  | closed : Managed e before .zoneClose 0 before
  | reset : Managed e before .zoneReset 0 []
  | finished (padding : List UInt8) (h : ((before ++ padding).length : Int) = e.capacity) :
      Managed e before .zoneFinish 0 (before ++ padding)

/-- The report is true of a zone to which this has been written. -/
def Tells (zone : BlkZone) (e : Extent) (written : List UInt8) : Prop :=
  match zone.cond with
  | .offline | .readonly => True
  | .full => (written.length : Int) = e.capacity
  | _ => sectorBytes (sectorSub zone.wp zone.start) = written.length

/-- A write at the write pointer. -/
inductive Appended (data before : List UInt8) : DioResult → List UInt8 → Prop where
  | refused (ret : Int) (h : ret < 0) (hend : ret ≠ eIocbQueued) :
      Appended data before (.refused ret) before
  | failed (size error ret : Int) (arrived : List UInt8) (part : arrived <+: data) (h : error < 0)
      (hend : error ≠ eIocbQueued) :
      Appended data before (.completed size error ret) (before ++ arrived)
  | written (arrived : List UInt8) (part : arrived <+: data) (some : arrived ≠ []) :
      Appended data before (.completed arrived.length 0 arrived.length) (before ++ arrived)

/-- A write that is not at the write pointer. -/
inductive Misplaced : DioResult → Prop where
  | refused (ret : Int) (h : ret < 0) (hend : ret ≠ eIocbQueued) : Misplaced (.refused ret)
  | failed (size error ret : Int) (h : error < 0) (hend : error ≠ eIocbQueued) :
      Misplaced (.completed size error ret)

/-- A read of what has been written. -/
inductive ReadBack (requested : List UInt8) : DioResult × List UInt8 → Prop where
  | refused (ret : Int) (data : List UInt8) (h : ret < 0) : ReadBack requested (.refused ret, data)
  | failed (size error ret : Int) (data : List UInt8) (h : error < 0) :
      ReadBack requested (.completed size error ret, data)
  | read (size : Int) (data : List UInt8) (part : data <+: requested) :
      ReadBack requested (.completed size 0 data.length, data)

section

variable {δ : Type}

/-- Nothing is changed in the zones but for the one at the sector. -/
def Elsewhere (E : List Extent) (written : δ → Nat → List UInt8) (sector : Nat) (d d' : δ) : Prop :=
  ∀ e ∈ E, e.sector ≠ sector → written d' e.sector = written d e.sector

def Untouched (E : List Extent) (written : δ → Nat → List UInt8) (d d' : δ) : Prop :=
  ∀ e ∈ E, written d' e.sector = written d e.sector

/-- The device keeps what is written to the sequential zones `E`. -/
structure ZonedDevice (D : BlockDevice δ) (E : List Extent) (written : δ → Nat → List UInt8) :
    Prop where
  fits : ∀ e ∈ E, e.capacity ≤ e.size
  mgmt : ∀ e ∈ E, ∀ op d,
    Managed e (written d e.sector) op (D.zoneMgmt op e.sector (e.size / 512).toNat d).1
        (written (D.zoneMgmt op e.sector (e.size / 512).toNat d).2 e.sector) ∧
      Elsewhere E written e.sector d (D.zoneMgmt op e.sector (e.size / 512).toNat d).2
  report : ∀ e ∈ E, ∀ d, Untouched E written d (D.reportZone e.sector d).2 ∧
    ∀ zone, (D.reportZone e.sector d).1 = some zone → Tells zone e (written d e.sector)
  write : ∀ e ∈ E, ∀ data d, data ≠ [] →
    ((written d e.sector ++ data).length : Int) ≤ e.capacity →
    let r := D.dioWrite (e.start + (written d e.sector).length) data d
    Appended data (written d e.sector) r.1 (written r.2 e.sector) ∧
      Elsewhere E written e.sector d r.2
  misplaced : ∀ e ∈ E, ∀ offset data d, e.Contains offset →
    offset ≠ e.start + (written d e.sector).length →
    Misplaced (D.dioWrite offset data d).1 ∧ Untouched E written d (D.dioWrite offset data d).2
  outside : ∀ offset data d, (∀ e ∈ E, ¬ e.Contains offset) →
    Untouched E written d (D.dioWrite offset data d).2
  readOnly : ∀ offset count d, Untouched E written d (D.dioRead offset count d).2
  read : ∀ e ∈ E, ∀ (pos count : Int) d, 0 ≤ pos → pos + count ≤ (written d e.sector).length →
    ReadBack (((written d e.sector).drop pos.toNat).take count.toNat)
      (D.dioRead (e.start + pos) count d).1
  request : ∀ r d, Untouched E written d (D.request r d).2

/-- Every report is answered. -/
def Reports (D : BlockDevice δ) (E : List Extent) : Prop :=
  ∀ e ∈ E, ∀ d, ((D.reportZone e.sector d).1).isSome

/-- The device fails no command that it can carry out. -/
structure ErrorFree (D : BlockDevice δ) (E : List Extent) (written : δ → Nat → List UInt8) :
    Prop extends ZonedDevice D E written where
  managed : ∀ e ∈ E, ∀ op d, op ≠ .zoneFinish →
    (D.zoneMgmt op e.sector (e.size / 512).toNat d).1 = 0
  appended : ∀ e ∈ E, ∀ data d, data ≠ [] →
    ((written d e.sector ++ data).length : Int) ≤ e.capacity →
    (D.dioWrite (e.start + (written d e.sector).length) data d).1 =
      .completed data.length 0 data.length
  readOut : ∀ e ∈ E, ∀ (pos count : Int) d, 0 ≤ pos → 0 < count →
    pos + count ≤ (written d e.sector).length →
    (D.dioRead (e.start + pos) count d).1 =
      (.completed count 0 count, ((written d e.sector).drop pos.toNat).take count.toNat)

end

/-- What has been written to the zone, and what the next writes and management commands come to:
`none` is success, `some n` a failure after which `n` bytes have arrived. -/
structure Drive where
  content : List UInt8
  faults : List (Option Nat)
  deriving DecidableEq

def Drive.tail (d : Drive) : Drive := { d with faults := d.faults.tail }

def Drive.fault (d : Drive) : Option Nat := d.faults.head?.join

def Drive.manage (e : Extent) (d : Drive) : ReqOp → Drive
  | .zoneReset => { d with content := [] }
  | .zoneFinish =>
    { d with content := d.content ++ List.replicate (e.capacity.toNat - d.content.length) 0 }
  | .zoneOpen | .zoneClose => d

/-- A zone with a write pointer that is not on a sector is offline. -/
def Drive.zone (e : Extent) (d : Drive) : BlkZone where
  start := e.sector
  len := (e.size / 512).toNat
  wp := e.sector + d.content.length / 512
  type := .seqwriteReq
  cond :=
    if d.content.length = e.capacity then .full
    else if d.content.length % 512 = 0 ∧ e.sector + d.content.length / 512 < 2 ^ 54 then
      (if d.content = [] then .empty else .closed)
    else .offline
  capacity := (e.capacity / 512).toNat

def Drive.write (e : Extent) (offset : Int) (data : List UInt8) (d : Drive) : DioResult × Drive :=
  if ¬ e.Contains offset then (.completed data.length 0 data.length, d)
  else if offset ≠ e.start + d.content.length then (.completed 0 eIo 0, d)
  else
    match d.fault with
    | some n => (.completed 0 eIo 0, { d.tail with content := d.content ++ data.take n })
    | none => (.completed data.length 0 data.length, { d.tail with content := d.content ++ data })

/-- The command fails; a zone that holds too much is not finished. -/
def Drive.refuses (e : Extent) (op : ReqOp) (d : Drive) : Bool :=
  d.fault.isSome || (op = .zoneFinish && e.capacity < d.content.length)

def drive (e : Extent) : BlockDevice Drive where
  zoneMgmt op _ _ d := if d.refuses e op then (eIo, d.tail) else (0, d.tail.manage e op)
  reportZone _ d := (some (d.zone e), d)
  dioWrite offset data d := d.write e offset data
  dioRead offset count d :=
    let data := (d.content.drop (offset - e.start).toNat).take count.toNat
    ((.completed data.length 0 data.length, data), d)
  request _ d := (0, d)

def Drive.written (d : Drive) (_ : Nat) : List UInt8 := d.content

theorem drive_reports (e : Extent) : Reports (drive e) [e] := fun _ _ _ => rfl

theorem drive_managed {e : Extent} (h : 0 ≤ e.capacity) (op : ReqOp) (d : Drive) :
    Managed e d.content op (if d.refuses e op then (eIo, d.tail) else (0, d.tail.manage e op)).1
      (if d.refuses e op then (eIo, d.tail) else (0, d.tail.manage e op)).2.content := by
  by_cases hrefuses : d.refuses e op = true
  · rw [if_pos hrefuses]
    exact .failed op eIo (by decide)
  · rw [if_neg hrefuses]
    cases op with
    | zoneOpen => exact .opened
    | zoneClose => exact .closed
    | zoneReset => exact .reset
    | zoneFinish =>
      have hfits : ¬ e.capacity < d.content.length := by
        intro hlt
        simp [Drive.refuses, hlt] at hrefuses
      refine .finished (List.replicate (e.capacity.toNat - d.content.length) 0) ?_
      rw [List.length_append, List.length_replicate]
      omega

theorem drive_tells (e : Extent) (d : Drive) : Tells (d.zone e) e d.content := by
  rw [Tells, Drive.zone]
  by_cases hfull : (d.content.length : Int) = e.capacity
  · simp only [if_pos hfull]
    exact hfull
  · simp only [if_neg hfull]
    by_cases hsector : d.content.length % 512 = 0 ∧ e.sector + d.content.length / 512 < 2 ^ 54
    · have hwp : sectorBytes (sectorSub (e.sector + d.content.length / 512) e.sector) =
          d.content.length := by
        rw [sectorSub_of_le (Nat.le_add_right _ _) (by omega), sectorBytes_of_lt (by omega)]
        omega
      simp only [if_pos hsector]
      split
      · rename_i hcond
        split at hcond
        · cases hcond
        · cases hcond
      · rename_i hcond
        split at hcond
        · cases hcond
        · cases hcond
      · rename_i hcond
        split at hcond
        · cases hcond
        · cases hcond
      · exact hwp
    · simp only [if_neg hsector]

theorem drive_appended {e : Extent} (hfits : e.capacity ≤ e.size) {data : List UInt8} {d : Drive}
    (hdata : data ≠ []) (h : ((d.content ++ data).length : Int) ≤ e.capacity) :
    Appended data d.content (d.write e (e.start + d.content.length) data).1
      (d.write e (e.start + d.content.length) data).2.content := by
  have hpos := List.length_pos_iff.mpr hdata
  have hcontains : e.Contains (e.start + d.content.length) := by
    rw [List.length_append] at h
    constructor
    · omega
    · omega
  rw [Drive.write, if_neg (not_not.mpr hcontains), if_neg (not_not.mpr rfl)]
  cases d.fault with
  | some n => exact .failed 0 eIo 0 _ (List.take_prefix n data) (by decide) (by decide)
  | none => exact .written data List.prefix_rfl hdata

theorem drive_lawful {e : Extent} (hcap : 0 ≤ e.capacity) (hfits : e.capacity ≤ e.size) :
    ZonedDevice (drive e) [e] Drive.written where
  fits := by
    intro e' he'
    rw [List.mem_singleton.mp he']
    exact hfits
  mgmt := by
    intro e' he' op d
    obtain rfl := List.mem_singleton.mp he'
    refine ⟨drive_managed hcap op d, ?_⟩
    intro e'' he'' hne
    exact absurd (congrArg Extent.sector (List.mem_singleton.mp he'')) hne
  report := by
    intro e' he' d
    obtain rfl := List.mem_singleton.mp he'
    refine ⟨fun _ _ => rfl, ?_⟩
    rintro zone ⟨⟩
    exact drive_tells e' d
  write := by
    intro e' he' data d hdata h
    obtain rfl := List.mem_singleton.mp he'
    refine ⟨drive_appended hfits hdata h, ?_⟩
    intro e'' he'' hne
    exact absurd (congrArg Extent.sector (List.mem_singleton.mp he'')) hne
  misplaced := by
    intro e' he' offset data d hcontains hne
    obtain rfl := List.mem_singleton.mp he'
    have hwrite : d.write e' offset data = (.completed 0 eIo 0, d) := by
      rw [Drive.write, if_neg (not_not.mpr hcontains)]
      exact if_pos hne
    change Misplaced (d.write e' offset data).1 ∧
      Untouched [e'] Drive.written d (d.write e' offset data).2
    rw [hwrite]
    exact ⟨.failed 0 eIo 0 (by decide) (by decide), fun _ _ => rfl⟩
  outside := by
    intro offset data d houtside
    have hwrite : d.write e offset data = (.completed data.length 0 data.length, d) :=
      if_pos (houtside e List.mem_cons_self)
    change Untouched [e] Drive.written d (d.write e offset data).2
    rw [hwrite]
    exact fun _ _ => rfl
  readOnly := fun _ _ _ _ _ => rfl
  read := by
    intro e' he' pos count d hpos hle
    obtain rfl := List.mem_singleton.mp he'
    have hat : e'.start + pos - e'.start = pos := by omega
    change ReadBack _ ((.completed _ 0 _, _) : DioResult × List UInt8)
    rw [hat]
    exact .read _ _ List.prefix_rfl
  request := fun _ _ _ _ => rfl

/-- A drive with no faults to come, of which only the content is kept. -/
def steadyDrive (e : Extent) : BlockDevice (List UInt8) where
  zoneMgmt op sector nrSectors c :=
    let (ret, d) := (drive e).zoneMgmt op sector nrSectors ⟨c, []⟩
    (ret, d.content)
  reportZone sector c := (((drive e).reportZone sector ⟨c, []⟩).1, c)
  dioWrite offset data c :=
    let (result, d) := (drive e).dioWrite offset data ⟨c, []⟩
    (result, d.content)
  dioRead offset count c := (((drive e).dioRead offset count ⟨c, []⟩).1, c)
  request r c := (((drive e).request r ⟨c, []⟩).1, c)

theorem steadyDrive_lawful {e : Extent} (hcap : 0 ≤ e.capacity) (hfits : e.capacity ≤ e.size) :
    ZonedDevice (steadyDrive e) [e] fun c _ => c := by
  have law := drive_lawful hcap hfits
  constructor
  · exact law.fits
  · intro e' he' op c
    exact law.mgmt e' he' op ⟨c, []⟩
  · intro e' he' c
    exact ⟨fun _ _ => rfl, (law.report e' he' ⟨c, []⟩).2⟩
  · intro e' he' data c hdata h
    exact law.write e' he' data ⟨c, []⟩ hdata h
  · intro e' he' offset data c hcontains hne
    exact law.misplaced e' he' offset data ⟨c, []⟩ hcontains hne
  · intro offset data c houtside
    exact law.outside offset data ⟨c, []⟩ houtside
  · exact fun _ _ _ _ _ => rfl
  · intro e' he' pos count c hpos hle
    exact law.read e' he' pos count ⟨c, []⟩ hpos hle
  · exact fun _ _ _ _ => rfl

theorem steadyDrive_errorFree {e : Extent} (hcap : 0 ≤ e.capacity) (hfits : e.capacity ≤ e.size) :
    ErrorFree (steadyDrive e) [e] fun c _ => c where
  toZonedDevice := steadyDrive_lawful hcap hfits
  managed := by
    intro e' he' op c hop
    obtain rfl := List.mem_singleton.mp he'
    have accepts : (⟨c, []⟩ : Drive).refuses e' op = false := by
      simp [Drive.refuses, Drive.fault, hop]
    change (if (⟨c, []⟩ : Drive).refuses e' op then _ else _ : Int × Drive).1 = 0
    rw [accepts]
    rfl
  appended := by
    intro e' he' data c hdata h
    obtain rfl := List.mem_singleton.mp he'
    have hpos := List.length_pos_iff.mpr hdata
    have hcontains : e'.Contains (e'.start + c.length) := by
      rw [List.length_append] at h
      constructor
      · omega
      · omega
    change ((⟨c, []⟩ : Drive).write e' (e'.start + c.length) data).1 = _
    rw [Drive.write, if_neg (not_not.mpr hcontains)]
    exact congrArg Prod.fst (if_neg (not_not.mpr rfl))
  readOut := by
    intro e' he' pos count c hpos hcount hle
    obtain rfl := List.mem_singleton.mp he'
    have hat : e'.start + pos - e'.start = pos := by omega
    have hlen : (((c.drop pos.toNat).take count.toNat).length : Int) = count := by
      rw [List.length_take, List.length_drop]
      omega
    change ((.completed _ 0 _, _) : DioResult × List UInt8) = _
    rw [hat, hlen]

end ZonedDevices
