import HodoZns.ZonefsSteps
import HodoZns.ZonedDevices

/-!
# Mounting zonefs

The zones that the device reports are counted first, and then each of the two zone
groups is filled. Conventional zones that follow one another may be put together
in one file. The first zone has the super block and is no file.
-/

namespace ZonefsMounts

open ZonefsZones ZonefsFiles ZonefsOptions ZonefsSteps ZonedDevices

/-- `MAX_LFS_FILESIZE`. -/
def maxLfsFilesize : Int := 2 ^ 63 - 1

def sIfreg : BitVec 16 := 0o100000#16

inductive Ztype where
  | cnv
  | seq
  deriving DecidableEq

def zonefsZoneType (zone : BlkZone) : Ztype :=
  if zone.type = .conventional then .cnv else .seq

/-- What hodo is told of the device, in two `int`s. -/
structure HodoSizes where
  nrZones : Int
  zoneSize : Int
  deriving DecidableEq

/-- `struct zonefs_zone_data`, with the numbers of files of the two groups and what hodo is told;
the first entry of the table `zones` is not filled and left out. -/
structure ZoneData where
  nrCnv : Nat
  nrSeq : Nat
  cnvZoneStart : Nat
  zones : List BlkZone
  hodo : HodoSizes
  deriving DecidableEq

/-- `n` as an `int`. -/
def asInt (n : Nat) : Int := (BitVec.ofNat 32 n).toInt

def noZones (hodo : HodoSizes) : ZoneData := ⟨0, 0, 0, [], hodo⟩

def ZoneData.count (aggrcnv : Bool) (zd : ZoneData) (zone : BlkZone) : Except Int ZoneData :=
  match zone.type with
  | .conventional =>
    if aggrcnv then
      .ok
        { zd with
          nrCnv := if zd.nrCnv = 0 ∨ zone.start ≠ zd.cnvZoneStart then zd.nrCnv + 1 else zd.nrCnv
          cnvZoneStart := zone.start + zone.len }
    else .ok { zd with nrCnv := zd.nrCnv + 1 }
  | .seqwriteReq | .seqwritePref => .ok { zd with nrSeq := zd.nrSeq + 1 }
  | .other => .error eIo

def zonefsGetZoneInfoCb (aggrcnv : Bool) (zd : ZoneData) (idx : Nat) (zone : BlkZone) :
    Except Int ZoneData :=
  if idx = 0 then .ok zd
  else
    (zd.count aggrcnv zone).map fun zd =>
      { zd with
        zones := zd.zones ++ [zone]
        hodo := { zd.hodo with zoneSize := asInt (zone.len * 512) } }

/-- `blkdev_report_zones` of all zones, with this callback. -/
def reportAll (aggrcnv : Bool) : (idx : Nat) → List BlkZone → ZoneData → Except Int ZoneData
  | _, [], zd => .ok zd
  | idx, zone :: rest, zd => do
    let zd ← zonefsGetZoneInfoCb aggrcnv zd idx zone
    reportAll aggrcnv (idx + 1) rest zd

/-- `nrZones` is `bdev_nr_zones`. -/
def zonefsGetZoneInfo (aggrcnv : Bool) (nrZones : Nat) (reported : Except Int (List BlkZone))
    (hodo : HodoSizes) : Except Int ZoneData := do
  let zones ← reported
  let zd ← reportAll aggrcnv 0 zones (noZones hodo)
  if zones.length ≠ nrZones then .error eIo
  else .ok { zd with hodo := { zd.hodo with nrZones := asInt nrZones } }

def absorb (zone next : BlkZone) : BlkZone :=
  { zone with
    len := zone.len + next.len
    capacity := zone.capacity + next.capacity
    cond :=
      if next.cond = .readonly ∧ zone.cond ≠ .offline then .readonly
      else if next.cond = .offline then .offline
      else zone.cond }

/-- The inner loop: the zone with those of its type that follow, and what is behind. -/
def aggregate (ztype : Ztype) (zone : BlkZone) : List BlkZone → BlkZone × List BlkZone
  | [] => (zone, [])
  | next :: rest =>
    if zonefsZoneType next ≠ ztype then (zone, next :: rest)
    else aggregate ztype (absorb zone next) rest

/-- The zones that the loop of `zonefs_init_zgroup` comes to; each turn takes one zone of the
table at least. -/
def zgroupZones (aggrcnv : Bool) (ztype : Ztype) : (turns : Nat) → List BlkZone → List BlkZone
  | 0, _ => []
  | _, [] => []
  | turns + 1, zone :: rest =>
    if zonefsZoneType zone ≠ ztype then zgroupZones aggrcnv ztype turns rest
    else if ztype = .cnv ∧ aggrcnv = true then
      let (zone, rest) := aggregate ztype zone rest
      zone :: zgroupZones aggrcnv ztype turns rest
    else zone :: zgroupZones aggrcnv ztype turns rest

/-- What the super block on the device and the device itself say; `zoneSectors` is
`bdev_zone_sectors`. -/
structure Format where
  aggrcnv : Bool
  uid : Nat
  gid : Nat
  perm : BitVec 16
  zoneSectors : Nat
  deriving DecidableEq

/-- The zone as it is put down, before its condition is looked at. -/
def newZone (F : Format) (ztype : Ztype) (zone : BlkZone) : ZonefsZone where
  zoneInitMode := false
  zoneOpen := false
  zoneActive := false
  zoneOffline := false
  zoneReadonly := false
  zoneCnv := decide (ztype = .cnv)
  zSector := zone.start
  zSize := sectorBytes zone.len
  zCapacity := min maxLfsFilesize (sectorBytes zone.capacity)
  zWpoffset := 0
  zMode := sIfreg ||| F.perm
  zUid := F.uid
  zGid := F.gid

/-- What has been set up so far. -/
structure Setup (δ : Type) where
  sbi : SbInfo
  maxbytes : Int
  dev : δ
  hodo : HodoSizes
deriving DecidableEq

section

variable {δ : Type}

/-- The zone with what its condition says; its mode is still to be initialised. -/
def checkedZone (F : Format) (ztype : Ztype) (zone : BlkZone) : ZonefsZone :=
  let (wpoffset, z) := zonefsCheckZoneCondition (newZone F ztype zone) zone
  { z with zWpoffset := wpoffset, zoneInitMode := true }

def addBlocks (sbi : SbInfo) (z : ZonefsZone) : SbInfo :=
  { sbi with
    sBlocks := sbi.sBlocks + z.zCapacity / 2 ^ sbi.blocksizeBits
    sUsedBlocks := sbi.sUsedBlocks + z.zWpoffset / 2 ^ sbi.blocksizeBits }

/-- A sequential zone that is open is closed. -/
def closeOpenZone (D : BlockDevice δ) (ztype : Ztype) (zone : BlkZone) (z : ZonefsZone) (dev : δ) :
    Int × δ :=
  if ztype = .seq ∧ (zone.cond = .impOpen ∨ zone.cond = .expOpen) then
    zonefsZoneMgmt D z .zoneClose dev
  else (0, dev)

/-- The body of the loop, for one file. -/
def initZone (D : BlockDevice δ) (F : Format) (ztype : Ztype) (zone : BlkZone) (s : Setup δ) :
    Except Int (ZonefsZone × Setup δ) :=
  let z := checkedZone F ztype zone
  if z.zSize > sectorBytes F.zoneSectors ∧ F.aggrcnv = false then .error eInval
  else
    let (ret, dev) := closeOpenZone D ztype zone z s.dev
    if ret ≠ 0 then .error ret
    else
      let (sbi, z) := zonefsAccountActive (addBlocks s.sbi z) z
      .ok (z, ⟨sbi, max z.zCapacity s.maxbytes, dev, s.hodo⟩)

/-- The loop over the files, of which there are to be `nrZones`; `n` are done. -/
def initLoop (D : BlockDevice δ) (F : Format) (ztype : Ztype) (nrZones : Nat) :
    (n : Nat) → List BlkZone → Setup δ → Except Int (List ZonefsZone × Setup δ)
  | n, [], s => if n ≠ nrZones then .error eInval else .ok ([], s)
  | n, zone :: rest, s =>
    if n ≥ nrZones then .error eInval
    else do
      let (z, s) ← initZone D F ztype zone s
      let (zs, s) ← initLoop D F ztype nrZones (n + 1) rest s
      return (z :: zs, s)

def zonefsInitZgroup (D : BlockDevice δ) (F : Format) (ztype : Ztype) (nrZones : Nat)
    (zones : List BlkZone) (s : Setup δ) : Except Int (List ZonefsZone × Setup δ) :=
  if nrZones = 0 then .ok ([], s)
  else initLoop D F ztype nrZones 0 (zgroupZones F.aggrcnv ztype zones.length zones) s

/-- The two zone groups, one behind the other. -/
structure Zgroups where
  cnv : List ZonefsZone
  seq : List ZonefsZone
deriving DecidableEq

def Zgroups.zones (g : Zgroups) : List ZonefsZone := g.cnv ++ g.seq

def zonefsInitZgroups (D : BlockDevice δ) (F : Format) (nrZones : Nat)
    (reported : Except Int (List BlkZone)) (s : Setup δ) : Except Int (Zgroups × Setup δ) := do
  let zd ← zonefsGetZoneInfo F.aggrcnv nrZones reported s.hodo
  let (cnv, s) ← zonefsInitZgroup D F .cnv zd.nrCnv zd.zones { s with hodo := zd.hodo }
  let (seq, s) ← zonefsInitZgroup D F .seq zd.nrSeq zd.zones s
  return (⟨cnv, seq⟩, s)

/-- The super block as `zonefs_fill_super` sets it up. -/
def newSuper (maxOpen maxActive blocksizeBits : Nat) : SbInfo where
  errorsRo := true
  errorsZro := false
  errorsZol := false
  errorsRepair := false
  explicitOpen := false
  sBlocks := 0
  sUsedBlocks := 0
  maxWroSeqFiles := maxOpen
  wroSeqFiles := 0
  maxActiveSeqFiles := maxActive
  activeSeqFiles := 0
  blocksizeBits := blocksizeBits
  rdonly := false

/-- Explicit open is of no use on a device without limits. -/
def ignoreExplicitOpen (sbi : SbInfo) : SbInfo :=
  if sbi.maxWroSeqFiles = 0 ∧ sbi.maxActiveSeqFiles = 0 then { sbi with explicitOpen := false }
  else sbi

/-- `zonefs_fill_super` up to the inodes of the directories; `rdonly` is what the VFS has in
`s_flags` for this mount, the first of the module. -/
def zonefsFillSuper (D : BlockDevice δ) (F : Format) (maxOpen maxActive blocksizeBits : Nat)
    (rdonly : Bool) (data : Option (List UInt8)) (nrZones : Nat)
    (reported : Except Int (List BlkZone)) (dev : δ) : Except Int (Zgroups × Setup δ) :=
  let (ret, sbi) :=
    zonefsParseOptions data { newSuper maxOpen maxActive blocksizeBits with rdonly := rdonly }
  if ret ≠ 0 then .error ret
  else zonefsInitZgroups D F nrZones reported ⟨ignoreExplicitOpen sbi, 0, dev, ⟨0, 0⟩⟩

end

def Covers (zone : BlkZone) (sector : Nat) : Prop :=
  zone.start ≤ sector ∧ sector < zone.start + zone.len

/-- The zones follow one another from sector `a` on, and none is empty. -/
def Contiguous : (a : Nat) → List BlkZone → Prop
  | _, [] => True
  | a, zone :: rest => zone.start = a ∧ 0 < zone.len ∧ Contiguous (a + zone.len) rest

theorem Contiguous.le_of_covers {a : Nat} {zones : List BlkZone} (h : Contiguous a zones)
    {zone : BlkZone} (hmem : zone ∈ zones) {sector : Nat} (covers : Covers zone sector) :
    a ≤ sector := by
  induction zones generalizing a with
  | nil => cases hmem
  | cons z zones ih =>
    obtain ⟨hstart, _, hrest⟩ := h
    rcases List.mem_cons.mp hmem with rfl | hmem
    · exact hstart ▸ covers.1
    · exact Nat.le_trans (Nat.le_add_right a z.len) (ih hrest hmem)

/-- What the inner loop comes to: it takes `taken`, which are of the type, and covers what they
and the zone itself cover. -/
structure Aggregated (ztype : Ztype) (zone : BlkZone) (rest : List BlkZone)
    (r : BlkZone × List BlkZone) (taken : List BlkZone) : Prop where
  split : rest = taken ++ r.2
  types : ∀ y ∈ taken, zonefsZoneType y = ztype
  start : r.1.start = zone.start
  type : r.1.type = zone.type
  len : zone.len ≤ r.1.len
  stops : ∀ y ∈ r.2.head?, zonefsZoneType y ≠ ztype
  behind : Contiguous (zone.start + r.1.len) r.2
  covers : ∀ sector, Covers r.1 sector ↔ ∃ y ∈ zone :: taken, Covers y sector

theorem covers_absorb {zone next : BlkZone} (h : next.start = zone.start + zone.len)
    (sector : Nat) :
    Covers (absorb zone next) sector ↔ Covers zone sector ∨ Covers next sector := by
  simp only [Covers, absorb]
  omega

theorem aggregate_taken (ztype : Ztype) (zone : BlkZone) {rest : List BlkZone}
    (contiguous : Contiguous (zone.start + zone.len) rest) :
    ∃ taken, Aggregated ztype zone rest (aggregate ztype zone rest) taken := by
  induction rest generalizing zone with
  | nil => exact ⟨[], rfl, nofun, rfl, rfl, le_rfl, nofun, trivial, by simp [aggregate]⟩
  | cons next rest ih =>
    rw [aggregate]
    by_cases htype : zonefsZoneType next = ztype
    · rw [if_neg (not_not.mpr htype)]
      obtain ⟨hstart, _, hrest⟩ := contiguous
      have hend : zone.start + zone.len + next.len = zone.start + (zone.len + next.len) :=
        Nat.add_assoc _ _ _
      obtain ⟨taken, h⟩ := ih (absorb zone next) (hend ▸ hrest)
      refine ⟨next :: taken, ?_, ?_, h.start, h.type, ?_, h.stops, h.behind, ?_⟩
      · rw [List.cons_append, ← h.split]
      · intro y hy
        rcases List.mem_cons.mp hy with rfl | hy
        · exact htype
        · exact h.types y hy
      · exact Nat.le_trans (Nat.le_add_right _ _) h.len
      · intro sector
        rw [h.covers sector]
        simp only [List.exists_mem_cons_iff, covers_absorb hstart, or_assoc]
    · rw [if_pos htype]
      refine ⟨[], rfl, nofun, rfl, rfl, le_rfl, ?_, contiguous, by simp⟩
      rintro y ⟨⟩
      exact htype

/-- The files lie one behind the other from sector `a` on, are of the type, and cover the zones
of the type. -/
structure Divided (ztype : Ztype) (a : Nat) (zones files : List BlkZone) : Prop where
  behind : ∀ f ∈ files, a ≤ f.start
  ordered : files.Pairwise fun f g => f.start + f.len ≤ g.start
  types : ∀ f ∈ files, zonefsZoneType f = ztype
  positive : ∀ f ∈ files, 0 < f.len
  covers : ∀ sector, (∃ f ∈ files, Covers f sector) ↔
    ∃ z ∈ zones, zonefsZoneType z = ztype ∧ Covers z sector

theorem Divided.skip {ztype : Ztype} {a : Nat} {zone : BlkZone} {zones files : List BlkZone}
    (htype : zonefsZoneType zone ≠ ztype) (h : Divided ztype (a + zone.len) zones files) :
    Divided ztype a (zone :: zones) files where
  behind := fun f hf => Nat.le_trans (Nat.le_add_right a zone.len) (h.behind f hf)
  ordered := h.ordered
  types := h.types
  positive := h.positive
  covers := by
    intro sector
    rw [h.covers sector]
    simp [htype]

/-- A file in front, which covers `taken`. -/
theorem Divided.cons {ztype : Ztype} {f : BlkZone} {zones files : List BlkZone}
    (taken : List BlkZone) (htype : zonefsZoneType f = ztype) (hpos : 0 < f.len)
    (types : ∀ z ∈ taken, zonefsZoneType z = ztype)
    (covers : ∀ sector, Covers f sector ↔ ∃ z ∈ taken, Covers z sector)
    (h : Divided ztype (f.start + f.len) zones files) :
    Divided ztype f.start (taken ++ zones) (f :: files) where
  behind := by
    intro g hg
    rcases List.mem_cons.mp hg with rfl | hg
    · exact le_rfl
    · exact Nat.le_trans (Nat.le_add_right _ _) (h.behind g hg)
  ordered := List.pairwise_cons.mpr ⟨h.behind, h.ordered⟩
  types := by
    intro g hg
    rcases List.mem_cons.mp hg with rfl | hg
    · exact htype
    · exact h.types g hg
  positive := by
    intro g hg
    rcases List.mem_cons.mp hg with rfl | hg
    · exact hpos
    · exact h.positive g hg
  covers := by
    intro sector
    rw [List.exists_mem_cons_iff, covers sector, h.covers sector]
    constructor
    · rintro (⟨z, hz, hc⟩ | ⟨z, hz, hc⟩)
      · exact ⟨z, List.mem_append_left _ hz, types z hz, hc⟩
      · exact ⟨z, List.mem_append_right _ hz, hc⟩
    · rintro ⟨z, hz, htype, hc⟩
      rcases List.mem_append.mp hz with hz | hz
      · exact .inl ⟨z, hz, hc⟩
      · exact .inr ⟨z, hz, htype, hc⟩

theorem zonefsZoneType_congr {zone zone' : BlkZone} (h : zone'.type = zone.type) :
    zonefsZoneType zone' = zonefsZoneType zone := by
  rw [zonefsZoneType, zonefsZoneType, h]

theorem zgroupZones_divided (aggrcnv : Bool) (ztype : Ztype) {turns a : Nat}
    {zones : List BlkZone} (enough : zones.length ≤ turns) (contiguous : Contiguous a zones) :
    Divided ztype a zones (zgroupZones aggrcnv ztype turns zones) := by
  induction turns generalizing a zones with
  | zero =>
    obtain rfl := List.length_eq_zero_iff.mp (Nat.le_zero.mp enough)
    exact ⟨nofun, .nil, nofun, nofun, by simp [zgroupZones]⟩
  | succ turns ih =>
    cases zones with
    | nil => exact ⟨nofun, .nil, nofun, nofun, by simp [zgroupZones]⟩
    | cons zone rest =>
      obtain ⟨rfl, hpos, hrest⟩ := contiguous
      have hlen : rest.length ≤ turns := Nat.le_of_succ_le_succ enough
      rw [zgroupZones]
      split
      · rename_i htype
        exact (ih hlen hrest).skip htype
      split
      · rename_i htype _
        obtain ⟨taken, h⟩ := aggregate_taken ztype zone hrest
        have hshort : (aggregate ztype zone rest).2.length ≤ turns := by
          have := congrArg List.length h.split
          rw [List.length_append] at this
          omega
        have next := ih hshort h.behind
        rw [← h.start] at next
        have divided := next.cons (zone :: taken)
          ((zonefsZoneType_congr h.type).trans (not_not.mp htype))
          (Nat.lt_of_lt_of_le hpos h.len) ?_ h.covers
        · rw [h.start, List.cons_append, ← h.split] at divided
          exact divided
        · intro z hz
          rcases List.mem_cons.mp hz with rfl | hz
          · exact not_not.mp htype
          · exact h.types z hz
      · rename_i htype _
        have alone := (ih hlen hrest).cons [zone] (not_not.mp htype) hpos ?_ ?_
        · exact alone
        · intro z hz
          rw [List.mem_singleton.mp hz]
          exact not_not.mp htype
        · intro sector
          simp

/-- How many files the conventional zones make; the first one goes on with a file if it is
`joined` to it. -/
def cnvFiles (aggrcnv : Bool) : (joined : Bool) → List BlkZone → Nat
  | _, [] => 0
  | joined, zone :: rest =>
    if zonefsZoneType zone = .cnv then
      (if aggrcnv && joined then 0 else 1) + cnvFiles aggrcnv true rest
    else cnvFiles aggrcnv false rest

def seqFiles (zones : List BlkZone) : Nat := zones.countP fun zone => zonefsZoneType zone = .seq

theorem cnvFiles_aggregate (zone : BlkZone) (rest : List BlkZone) :
    cnvFiles true true rest = cnvFiles true false (aggregate .cnv zone rest).2 := by
  induction rest generalizing zone with
  | nil => rfl
  | cons next rest ih =>
    rw [aggregate]
    by_cases htype : zonefsZoneType next = .cnv
    · rw [if_neg (not_not.mpr htype), ← ih (absorb zone next)]
      simp [cnvFiles, htype]
    · rw [if_pos htype]
      simp [cnvFiles, htype]

theorem aggregate_length (ztype : Ztype) (zone : BlkZone) (rest : List BlkZone) :
    (aggregate ztype zone rest).2.length ≤ rest.length := by
  induction rest generalizing zone with
  | nil => exact le_rfl
  | cons next rest ih =>
    rw [aggregate]
    split
    · exact le_rfl
    · exact Nat.le_succ_of_le (ih _)

theorem cnv_length (aggrcnv : Bool) {turns : Nat} {zones : List BlkZone}
    (enough : zones.length ≤ turns) :
    (zgroupZones aggrcnv .cnv turns zones).length = cnvFiles aggrcnv false zones := by
  induction turns generalizing zones with
  | zero =>
    obtain rfl := List.length_eq_zero_iff.mp (Nat.le_zero.mp enough)
    rfl
  | succ turns ih =>
    cases zones with
    | nil => rfl
    | cons zone rest =>
      have hlen : rest.length ≤ turns := Nat.le_of_succ_le_succ enough
      rw [zgroupZones, cnvFiles]
      by_cases htype : zonefsZoneType zone = .cnv
      · rw [if_neg (not_not.mpr htype), if_pos htype]
        cases aggrcnv with
        | true =>
          rw [if_pos ⟨rfl, rfl⟩, List.length_cons,
            ih (Nat.le_trans (aggregate_length .cnv zone rest) hlen), cnvFiles_aggregate zone rest]
          simp [Nat.add_comm]
        | false =>
          have plain : cnvFiles false true rest = cnvFiles false false rest := by
            cases rest <;> rfl
          rw [if_neg (by simp), List.length_cons, ih hlen, plain]
          simp [Nat.add_comm]
      · rw [if_pos htype, if_neg htype, ih hlen]

theorem zgroupZones_seq (aggrcnv : Bool) {turns : Nat} {zones : List BlkZone}
    (enough : zones.length ≤ turns) :
    zgroupZones aggrcnv .seq turns zones = zones.filter fun zone => zonefsZoneType zone = .seq := by
  induction turns generalizing zones with
  | zero =>
    obtain rfl := List.length_eq_zero_iff.mp (Nat.le_zero.mp enough)
    rfl
  | succ turns ih =>
    cases zones with
    | nil => rfl
    | cons zone rest =>
      have hlen : rest.length ≤ turns := Nat.le_of_succ_le_succ enough
      rw [zgroupZones]
      by_cases htype : zonefsZoneType zone = .seq
      · rw [if_neg (not_not.mpr htype), if_neg (by simp), ih hlen]
        simp [htype]
      · rw [if_pos htype, ih hlen]
        simp [htype]

theorem seq_length (aggrcnv : Bool) {turns : Nat} {zones : List BlkZone}
    (enough : zones.length ≤ turns) :
    (zgroupZones aggrcnv .seq turns zones).length = seqFiles zones := by
  rw [zgroupZones_seq aggrcnv enough, seqFiles, List.countP_eq_length_filter]

/-- The next zone goes on with a file if conventional zones end where it starts. -/
structure Joined (a : Nat) (zd : ZoneData) (joined : Bool) : Prop where
  ends : zd.nrCnv ≠ 0 → zd.cnvZoneStart ≤ a
  iff : joined = true ↔ zd.nrCnv ≠ 0 ∧ zd.cnvZoneStart = a

/-- One turn of the callback, behind the first zone. -/
structure CountedOne (aggrcnv joined : Bool) (zone : BlkZone) (a : Nat) (zd zd' : ZoneData) :
    Prop where
  cnv : zd'.nrCnv = zd.nrCnv +
    if zonefsZoneType zone = .cnv then (if aggrcnv && joined then 0 else 1) else 0
  seq : zd'.nrSeq = zd.nrSeq + if zonefsZoneType zone = .seq then 1 else 0
  zones : zd'.zones = zd.zones ++ [zone]
  hodo : zd'.hodo = { zd.hodo with zoneSize := asInt (zone.len * 512) }
  joined : aggrcnv = true → Joined (a + zone.len) zd' (decide (zonefsZoneType zone = .cnv))

theorem cb_counts {aggrcnv joined : Bool} {zone : BlkZone} (supported : zone.type ≠ .other)
    {idx : Nat} (hidx : idx ≠ 0) (hpos : 0 < zone.len) {zd : ZoneData}
    (h : aggrcnv = true → Joined zone.start zd joined) :
    ∃ zd', zonefsGetZoneInfoCb aggrcnv zd idx zone = .ok zd' ∧
      CountedOne aggrcnv joined zone zone.start zd zd' := by
  have sequential : zonefsZoneType zone = .seq → aggrcnv = true →
      ∀ zd' : ZoneData, zd'.nrCnv = zd.nrCnv → zd'.cnvZoneStart = zd.cnvZoneStart →
      Joined (zone.start + zone.len) zd' (decide (zonefsZoneType zone = .cnv)) := by
    intro htype ha zd' hnr hends
    constructor
    · intro hne
      rw [hends]
      exact Nat.le_trans ((h ha).ends (hnr ▸ hne)) (Nat.le_add_right _ _)
    · rw [htype, hnr, hends]
      constructor
      · exact nofun
      · rintro ⟨hne, heq⟩
        have := (h ha).ends hne
        omega
  rw [zonefsGetZoneInfoCb, if_neg hidx, ZoneData.count]
  cases htype : zone.type with
  | conventional =>
    have hcnv : zonefsZoneType zone = .cnv := if_pos htype
    cases aggrcnv with
    | false =>
      refine ⟨_, rfl, ?_, ?_, rfl, rfl, nofun⟩
      · simp [hcnv]
      · simp [hcnv]
    | true =>
      refine ⟨_, rfl, ?_, ?_, rfl, rfl, ?_⟩
      · have hiff : zd.nrCnv = 0 ∨ zone.start ≠ zd.cnvZoneStart ↔ joined = false := by
          rw [← Bool.not_eq_true, (h rfl).iff, not_and_or, not_not, ne_comm]
        cases hjoined : joined with
        | true =>
          have hnot : ¬ (zd.nrCnv = 0 ∨ zone.start ≠ zd.cnvZoneStart) := by simp [hiff, hjoined]
          simp [hcnv, hnot]
        | false =>
          have hyes := hiff.mpr hjoined
          simp [hcnv, hyes]
      · simp [hcnv]
      · intro _
        constructor
        · exact fun _ => le_rfl
        · simp only [hcnv, decide_true, true_iff, and_true]
          split
          · exact Nat.succ_ne_zero _
          · rename_i hnot
            exact (not_or.mp hnot).1
  | seqwriteReq =>
    have hseq : zonefsZoneType zone = .seq := if_neg (by simp [htype])
    refine ⟨_, rfl, ?_, ?_, rfl, rfl, fun ha => sequential hseq ha _ rfl rfl⟩
    · simp [hseq]
    · simp [hseq]
  | seqwritePref =>
    have hseq : zonefsZoneType zone = .seq := if_neg (by simp [htype])
    refine ⟨_, rfl, ?_, ?_, rfl, rfl, fun ha => sequential hseq ha _ rfl rfl⟩
    · simp [hseq]
    · simp [hseq]
  | other => exact absurd htype supported

/-- What the callback counts behind the first zone. -/
theorem reportAll_counts {aggrcnv : Bool} {zones : List BlkZone}
    (supported : ∀ zone ∈ zones, zone.type ≠ .other) {a idx : Nat} (hidx : idx ≠ 0)
    (contiguous : Contiguous a zones) {zd : ZoneData} {joined : Bool}
    (h : aggrcnv = true → Joined a zd joined) :
    ∃ zd', reportAll aggrcnv idx zones zd = .ok zd' ∧
      zd'.nrCnv = zd.nrCnv + cnvFiles aggrcnv joined zones ∧
      zd'.nrSeq = zd.nrSeq + seqFiles zones ∧ zd'.zones = zd.zones ++ zones ∧
      zd'.hodo = zones.foldl (fun hodo zone => { hodo with zoneSize := asInt (zone.len * 512) })
        zd.hodo := by
  induction zones generalizing a idx zd joined with
  | nil => exact ⟨zd, rfl, rfl, rfl, (List.append_nil _).symm, rfl⟩
  | cons zone rest ih =>
    obtain ⟨rfl, hpos, hrest⟩ := contiguous
    obtain ⟨zd₁, hcb, one⟩ :=
      cb_counts (supported zone List.mem_cons_self) hidx hpos h
    obtain ⟨zd', hrest', hcnv, hseq, hzones, hhodo⟩ :=
      ih (fun z hz => supported z (List.mem_cons_of_mem _ hz)) (Nat.succ_ne_zero idx) hrest
        one.joined
    refine ⟨zd', ?_, ?_, ?_, ?_, ?_⟩
    · rw [reportAll, hcb]
      exact hrest'
    · rw [hcnv, one.cnv, cnvFiles, Nat.add_assoc]
      cases htype : zonefsZoneType zone with
      | cnv => simp
      | seq => simp
    · rw [hseq, one.seq, seqFiles, seqFiles, List.countP_cons]
      simp only [decide_eq_true_eq]
      omega
    · rw [hzones, one.zones, List.append_assoc]
      rfl
    · rw [hhodo, one.hodo]
      rfl

section

variable {δ : Type} {D : BlockDevice δ} {F : Format}

/-- The files one after the other, with no count to compare with. -/
def initFiles (D : BlockDevice δ) (F : Format) (ztype : Ztype) :
    List BlkZone → Setup δ → Except Int (List ZonefsZone × Setup δ)
  | [], s => .ok ([], s)
  | zone :: rest, s => do
    let (z, s) ← initZone D F ztype zone s
    let (zs, s) ← initFiles D F ztype rest s
    return (z :: zs, s)

theorem initLoop_eq {ztype : Ztype} {nrZones n : Nat} {files : List BlkZone}
    (h : n + files.length = nrZones) (s : Setup δ) :
    initLoop D F ztype nrZones n files s = initFiles D F ztype files s := by
  induction files generalizing n s with
  | nil => exact if_neg (not_not.mpr h)
  | cons zone rest ih =>
    rw [List.length_cons] at h
    rw [initLoop, if_neg (by omega), initFiles]
    apply bind_congr
    rintro ⟨z, s₁⟩
    exact congrArg (· >>= _) (ih (by omega) s₁)

/-- The files of a group. -/
def groupZones (F : Format) (ztype : Ztype) (zones : List BlkZone) : List BlkZone :=
  zgroupZones F.aggrcnv ztype zones.length zones

theorem zonefsInitZgroup_eq {ztype : Ztype} {nrZones : Nat} {zones : List BlkZone}
    (h : nrZones = (groupZones F ztype zones).length) (s : Setup δ) :
    zonefsInitZgroup D F ztype nrZones zones s =
      initFiles D F ztype (groupZones F ztype zones) s := by
  rw [zonefsInitZgroup]
  by_cases hzero : nrZones = 0
  · rw [if_pos hzero, List.length_eq_zero_iff.mp (h.symm.trans hzero)]
    rfl
  · rw [if_neg hzero]
    exact initLoop_eq (by rw [← groupZones, Nat.zero_add, h]) s

/-- What hodo is told of a device with these zones behind the first one. -/
def Setup.tell (s : Setup δ) (zones : List BlkZone) : Setup δ :=
  { s with
    hodo :=
      { zones.foldl (fun hodo zone => { hodo with zoneSize := asInt (zone.len * 512) }) s.hodo with
        nrZones := asInt (zones.length + 1) } }

/-- The loop never comes to more files or to fewer than the callback has counted. -/
theorem init_zgroups_counted (D : BlockDevice δ) (F : Format) {super : BlkZone}
    {zones : List BlkZone} {a : Nat} (supported : ∀ zone ∈ zones, zone.type ≠ .other)
    (contiguous : Contiguous a zones) (s : Setup δ) :
    zonefsInitZgroups D F (zones.length + 1) (.ok (super :: zones)) s = (do
      let (cnv, s) ← initFiles D F .cnv (groupZones F .cnv zones) (s.tell zones)
      let (seq, s) ← initFiles D F .seq (groupZones F .seq zones) s
      return (⟨cnv, seq⟩, s)) := by
  have start : F.aggrcnv = true → Joined a (noZones s.hodo) false := fun _ =>
    ⟨fun h => absurd rfl h, ⟨nofun, fun h => absurd rfl h.1⟩⟩
  obtain ⟨zd, hreport, hcnv, hseq, hzones, hhodo⟩ :=
    reportAll_counts supported one_ne_zero contiguous start
  have hinfo : zonefsGetZoneInfo F.aggrcnv (zones.length + 1) (.ok (super :: zones)) s.hodo =
      .ok { zd with hodo := { zd.hodo with nrZones := asInt (zones.length + 1) } } := by
    have hall : reportAll F.aggrcnv 0 (super :: zones) (noZones s.hodo) = .ok zd := hreport
    simp only [zonefsGetZoneInfo, bind, Except.bind, hall, List.length_cons]
    exact if_neg (not_not.mpr rfl)
  rw [zonefsInitZgroups, hinfo]
  have hzones' : zd.zones = zones := hzones
  have hnrCnv : zd.nrCnv = (groupZones F .cnv zones).length := by
    rw [groupZones, cnv_length F.aggrcnv le_rfl, hcnv]
    exact Nat.zero_add _
  have hnrSeq : zd.nrSeq = (groupZones F .seq zones).length := by
    rw [groupZones, seq_length F.aggrcnv le_rfl, hseq]
    exact Nat.zero_add _
  have hgroups : ∀ s : Setup δ,
      zonefsInitZgroup D F .cnv zd.nrCnv zd.zones s =
        initFiles D F .cnv (groupZones F .cnv zones) s ∧
      zonefsInitZgroup D F .seq zd.nrSeq zd.zones s =
        initFiles D F .seq (groupZones F .seq zones) s := by
    intro s
    rw [hzones']
    exact ⟨zonefsInitZgroup_eq hnrCnv s, zonefsInitZgroup_eq hnrSeq s⟩
  have told : { s with hodo := { zd.hodo with nrZones := asInt (zones.length + 1) } } =
      s.tell zones := by
    rw [hhodo]
    rfl
  simp only [bind, Except.bind, told, (hgroups _).1, (hgroups _).2]

/-- A zone as the mount leaves it: nobody has it open, and it is counted as active exactly if
it is. -/
structure Fresh (z : ZonefsZone) : Prop where
  notOpen : z.zoneOpen = false
  initMode : z.zoneInitMode = true
  active : z.zoneActive = decide (IsActive z)

/-- The file of the device zones that are put together in `zone`. -/
structure Backs (ztype : Ztype) (zone : BlkZone) (z : ZonefsZone) : Prop where
  cnv : z.zoneCnv = decide (ztype = .cnv)
  sector : z.zSector = zone.start
  size : z.zSize = sectorBytes zone.len
  capacity : z.zCapacity = min maxLfsFilesize (sectorBytes zone.capacity)

theorem checkedZone_backs (F : Format) (ztype : Ztype) (zone : BlkZone) :
    Backs ztype zone (checkedZone F ztype zone) ∧ (checkedZone F ztype zone).zoneOpen = false ∧
      (checkedZone F ztype zone).zoneActive = false := by
  cases zone with
  | mk start len wp type cond capacity => cases cond <;> exact ⟨⟨rfl, rfl, rfl, rfl⟩, rfl, rfl⟩

/-- The first accounting of a zone. -/
theorem accountActive_first (sbi : SbInfo) {z : ZonefsZone} (hactive : z.zoneActive = false) :
    zonefsAccountActive sbi z =
      ({ sbi with activeSeqFiles := sbi.activeSeqFiles + if IsActive z then 1 else 0 },
        { z with zoneActive := decide (IsActive z) }) := by
  by_cases hcnv : z.zoneCnv = true
  · have hnot : ¬ IsActive z := by
      rintro ⟨h, _⟩
      rw [hcnv] at h
      cases h
    have hz : z = { z with zoneActive := decide (IsActive z) } := by
      rw [decide_eq_false hnot, ← hactive]
    rw [zonefsAccountActive_cnv sbi hcnv, ← hz, if_neg hnot, add_zero]
  · rw [zonefsAccountActive_eq sbi (Bool.eq_false_iff.mpr hcnv), activity, hactive,
      if_neg (by decide), sub_zero]

/-- What one zone adds to the super block. -/
def addZone (sbi : SbInfo) (z : ZonefsZone) : SbInfo :=
  { addBlocks sbi z with activeSeqFiles := sbi.activeSeqFiles + activity z }

theorem initZone_ok {ztype : Ztype} {zone : BlkZone} {s s' : Setup δ} {z : ZonefsZone}
    (h : initZone D F ztype zone s = .ok (z, s')) :
    Fresh z ∧ Backs ztype zone z ∧ s'.sbi = addZone s.sbi z := by
  obtain ⟨backs, hopen, hactive⟩ := checkedZone_backs F ztype zone
  rw [initZone] at h
  simp only [accountActive_first _ hactive] at h
  split at h
  · cases h
  split at h
  · cases h
  · cases h
    refine ⟨⟨hopen, rfl, ?_⟩, ⟨backs.cnv, backs.sector, backs.size, backs.capacity⟩, ?_⟩
    · rfl
    · simp [addZone, addBlocks, activity]

/-- What a filled group is. -/
structure Filled (ztype : Ztype) (files : List BlkZone) (s : Setup δ) (zs : List ZonefsZone)
    (s' : Setup δ) : Prop where
  backs : List.Forall₂ (Backs ztype) files zs
  fresh : ∀ z ∈ zs, Fresh z
  super : s'.sbi = zs.foldl addZone s.sbi

/-- What holds file by file holds of a group. -/
theorem initFiles_induct {ztype : Ztype}
    {P : List BlkZone → Setup δ → List ZonefsZone → Setup δ → Prop} (nil : ∀ s, P [] s [] s)
    (cons : ∀ zone rest s z s₁ zs s', initZone D F ztype zone s = .ok (z, s₁) →
      P rest s₁ zs s' → P (zone :: rest) s (z :: zs) s')
    {files : List BlkZone} {s s' : Setup δ} {zs : List ZonefsZone}
    (h : initFiles D F ztype files s = .ok (zs, s')) : P files s zs s' := by
  induction files generalizing s zs with
  | nil =>
    cases h
    exact nil _
  | cons zone rest ih =>
    rw [initFiles] at h
    cases hone : initZone D F ztype zone s with
    | error e =>
      rw [hone] at h
      cases h
    | ok r =>
      obtain ⟨z, s₁⟩ := r
      cases hrest : initFiles D F ztype rest s₁ with
      | error e =>
        simp only [hone, hrest, bind, Except.bind] at h
        cases h
      | ok r =>
        obtain ⟨zs', s₂⟩ := r
        simp only [hone, hrest, bind, Except.bind, pure, Except.pure] at h
        cases h
        exact cons zone rest _ z s₁ zs' _ hone (ih hrest)

theorem initFiles_ok {ztype : Ztype} {files : List BlkZone} {s s' : Setup δ}
    {zs : List ZonefsZone} (h : initFiles D F ztype files s = .ok (zs, s')) :
    Filled ztype files s zs s' := by
  refine initFiles_induct (fun s => ⟨.nil, List.forall_mem_nil _, rfl⟩) ?_ h
  intro zone rest s z s₁ zs s' hone filled
  obtain ⟨fresh, backs, super⟩ := initZone_ok hone
  refine ⟨.cons backs filled.backs, List.forall_mem_cons.mpr ⟨fresh, filled.fresh⟩, ?_⟩
  rw [filled.super, super]
  rfl

theorem initFiles_of_initLoop {ztype : Ztype} {nrZones n : Nat} {files : List BlkZone}
    {s : Setup δ} {r : List ZonefsZone × Setup δ}
    (h : initLoop D F ztype nrZones n files s = .ok r) : initFiles D F ztype files s = .ok r := by
  induction files generalizing n s r with
  | nil =>
    rw [initLoop] at h
    split at h
    · cases h
    · exact h
  | cons zone rest ih =>
    rw [initLoop] at h
    split at h
    · cases h
    · rw [initFiles]
      cases hone : initZone D F ztype zone s with
      | error e =>
        rw [hone] at h
        cases h
      | ok r₁ =>
        cases hrest : initLoop D F ztype nrZones (n + 1) rest r₁.2 with
        | error e =>
          simp only [hone, hrest, bind, Except.bind] at h
          cases h
        | ok r₂ =>
          simp only [hone, hrest, bind, Except.bind] at h
          simp only [bind, Except.bind, ih hrest]
          exact h

theorem zonefsInitZgroup_ok {ztype : Ztype} {nrZones : Nat} {zones : List BlkZone}
    {s s' : Setup δ} {zs : List ZonefsZone}
    (h : zonefsInitZgroup D F ztype nrZones zones s = .ok (zs, s')) :
    (∀ z ∈ zs, Fresh z) ∧ s'.sbi = zs.foldl addZone s.sbi := by
  rw [zonefsInitZgroup] at h
  split at h
  · cases h
    exact ⟨List.forall_mem_nil _, rfl⟩
  · have filled := initFiles_ok (initFiles_of_initLoop h)
    exact ⟨filled.fresh, filled.super⟩

/-- Every mount that succeeds has put down each of its zones. -/
theorem zonefsInitZgroups_ok {nrZones : Nat} {reported : Except Int (List BlkZone)}
    {s s' : Setup δ} {g : Zgroups} (h : zonefsInitZgroups D F nrZones reported s = .ok (g, s')) :
    (∀ z ∈ g.zones, Fresh z) ∧ s'.sbi = g.zones.foldl addZone s.sbi := by
  rw [zonefsInitZgroups] at h
  cases hinfo : zonefsGetZoneInfo F.aggrcnv nrZones reported s.hodo with
  | error e =>
    rw [hinfo] at h
    cases h
  | ok zd =>
    cases hcnv : zonefsInitZgroup D F .cnv zd.nrCnv zd.zones { s with hodo := zd.hodo } with
    | error e =>
      simp only [hinfo, hcnv, bind, Except.bind] at h
      cases h
    | ok r =>
      obtain ⟨cnv, s₁⟩ := r
      cases hseq : zonefsInitZgroup D F .seq zd.nrSeq zd.zones s₁ with
      | error e =>
        simp only [hinfo, hcnv, hseq, bind, Except.bind] at h
        cases h
      | ok r =>
        obtain ⟨seq, s₂⟩ := r
        simp only [hinfo, hcnv, hseq, bind, Except.bind, pure, Except.pure] at h
        cases h
        obtain ⟨freshCnv, superCnv⟩ := zonefsInitZgroup_ok hcnv
        obtain ⟨freshSeq, superSeq⟩ := zonefsInitZgroup_ok hseq
        constructor
        · intro z hz
          rcases List.mem_append.mp hz with hz | hz
          · exact freshCnv z hz
          · exact freshSeq z hz
        · rw [superSeq, superCnv, ← List.foldl_append]
          rfl

/-- A mount of contiguous zones of known types that succeeds. -/
theorem mount_groups {super : BlkZone} {zones : List BlkZone} {a : Nat}
    (supported : ∀ zone ∈ zones, zone.type ≠ .other) (contiguous : Contiguous a zones)
    {s s' : Setup δ} {g : Zgroups}
    (h : zonefsInitZgroups D F (zones.length + 1) (.ok (super :: zones)) s = .ok (g, s')) :
    ∃ s₁, initFiles D F .cnv (groupZones F .cnv zones) (s.tell zones) = .ok (g.cnv, s₁) ∧
      initFiles D F .seq (groupZones F .seq zones) s₁ = .ok (g.seq, s') := by
  rw [init_zgroups_counted D F supported contiguous s] at h
  cases hcnv : initFiles D F .cnv (groupZones F .cnv zones) (s.tell zones) with
  | error e =>
    rw [hcnv] at h
    cases h
  | ok r =>
    obtain ⟨cnv, s₁⟩ := r
    cases hseq : initFiles D F .seq (groupZones F .seq zones) s₁ with
    | error e =>
      simp only [hcnv, hseq, bind, Except.bind] at h
      cases h
    | ok r =>
      obtain ⟨seq, s₂⟩ := r
      simp only [hcnv, hseq, bind, Except.bind, pure, Except.pure] at h
      cases h
      exact ⟨s₁, rfl, hseq⟩

theorem initZone_hodo {ztype : Ztype} {zone : BlkZone} {s s' : Setup δ} {z : ZonefsZone}
    (h : initZone D F ztype zone s = .ok (z, s')) : s'.hodo = s.hodo := by
  rw [initZone] at h
  simp only at h
  split at h
  · cases h
  split at h
  · cases h
  · cases h
    rfl

theorem initFiles_hodo {ztype : Ztype} {files : List BlkZone} {s s' : Setup δ}
    {zs : List ZonefsZone} (h : initFiles D F ztype files s = .ok (zs, s')) : s'.hodo = s.hodo := by
  refine initFiles_induct (P := fun _ s _ s' => s'.hodo = s.hodo) (fun _ => rfl) ?_ h
  intro zone rest s z s₁ zs s' hone ih
  exact ih.trans (initZone_hodo hone)

theorem foldl_zoneSize {zones : List BlkZone} {size : Nat} (hodo : HodoSizes)
    (same : ∀ zone ∈ zones, zone.len * 512 = size) (nonempty : zones ≠ []) :
    zones.foldl (fun hodo zone => { hodo with zoneSize := asInt (zone.len * 512) }) hodo =
      { hodo with zoneSize := asInt size } := by
  induction zones generalizing hodo with
  | nil => exact absurd rfl nonempty
  | cons zone rest ih =>
    obtain ⟨hzone, hrest⟩ := List.forall_mem_cons.mp same
    rw [List.foldl_cons, hzone]
    by_cases hnil : rest = []
    · rw [hnil]
      rfl
    · exact ih _ hrest hnil

/-- Hodo is told the number of the zones and their size. -/
theorem mount_tells {super : BlkZone} {zones : List BlkZone} {a : Nat}
    (supported : ∀ zone ∈ zones, zone.type ≠ .other) (contiguous : Contiguous a zones)
    {s s' : Setup δ} {g : Zgroups}
    (h : zonefsInitZgroups D F (zones.length + 1) (.ok (super :: zones)) s = .ok (g, s'))
    {size : Nat} (same : ∀ zone ∈ zones, zone.len * 512 = size) (nonempty : zones ≠ []) :
    s'.hodo = ⟨asInt (zones.length + 1), asInt size⟩ := by
  obtain ⟨s₁, hcnv, hseq⟩ := mount_groups supported contiguous h
  rw [initFiles_hodo hseq, initFiles_hodo hcnv, Setup.tell]
  simp only [foldl_zoneSize s.hodo same nonempty]

theorem mount_filled {super : BlkZone} {zones : List BlkZone} {a : Nat}
    (supported : ∀ zone ∈ zones, zone.type ≠ .other) (contiguous : Contiguous a zones)
    {s s' : Setup δ} {g : Zgroups}
    (h : zonefsInitZgroups D F (zones.length + 1) (.ok (super :: zones)) s = .ok (g, s')) :
    ∃ s₁, Filled .cnv (groupZones F .cnv zones) (s.tell zones) g.cnv s₁ ∧
      Filled .seq (groupZones F .seq zones) s₁ g.seq s' := by
  obtain ⟨s₁, hcnv, hseq⟩ := mount_groups supported contiguous h
  exact ⟨s₁, initFiles_ok hcnv, initFiles_ok hseq⟩

def InZone (z : ZonefsZone) (sector : Nat) : Prop :=
  z.zSector ≤ sector ∧ (sector : Int) < z.zSector + z.zSize / 512

/-- The sector behind the last zone. -/
def endOf (a : Nat) (zones : List BlkZone) : Nat := a + (zones.map BlkZone.len).sum

theorem Contiguous.covered_iff {a : Nat} {zones : List BlkZone} (h : Contiguous a zones)
    (sector : Nat) :
    (∃ zone ∈ zones, Covers zone sector) ↔ a ≤ sector ∧ sector < endOf a zones := by
  induction zones generalizing a with
  | nil =>
    simp only [endOf, List.map_nil, List.sum_nil, List.not_mem_nil, false_and, exists_false,
      false_iff]
    omega
  | cons zone rest ih =>
    obtain ⟨hstart, hpos, hrest⟩ := h
    have hend : endOf a (zone :: rest) = endOf (a + zone.len) rest := by
      rw [endOf, endOf, List.map_cons, List.sum_cons, Nat.add_assoc]
    have hle : a + zone.len ≤ endOf (a + zone.len) rest := Nat.le_add_right _ _
    rw [List.exists_mem_cons_iff, ih hrest, hend, Covers, hstart]
    omega

/-- Every zone ends in front of the end of the last one. -/
theorem Contiguous.end_le {a : Nat} {zones : List BlkZone} (h : Contiguous a zones)
    {zone : BlkZone} (hmem : zone ∈ zones) : zone.start + zone.len ≤ endOf a zones := by
  induction zones generalizing a with
  | nil => cases hmem
  | cons z rest ih =>
    obtain ⟨hstart, hpos, hrest⟩ := h
    have hend : endOf a (z :: rest) = endOf (a + z.len) rest := by
      rw [endOf, endOf, List.map_cons, List.sum_cons, Nat.add_assoc]
    rw [hend]
    rcases List.mem_cons.mp hmem with rfl | hmem
    · rw [hstart]
      exact Nat.le_add_right _ _
    · exact ih hrest hmem

theorem Divided.end_le {ztype : Ztype} {a : Nat} {zones files : List BlkZone}
    (h : Divided ztype a zones files) (contiguous : Contiguous a zones) {f : BlkZone}
    (hf : f ∈ files) : f.start + f.len ≤ endOf a zones := by
  have hpos := h.positive f hf
  have hlast : Covers f (f.start + f.len - 1) := ⟨by omega, by omega⟩
  obtain ⟨zone, hzone, _, covers⟩ := (h.covers _).mp ⟨f, hf, hlast⟩
  have hend := ((contiguous.covered_iff _).mp ⟨zone, hzone, covers⟩).2
  omega

/-- Two zones that cover a sector are the same zone. -/
theorem Contiguous.covers_unique {a : Nat} {zones : List BlkZone} (h : Contiguous a zones)
    {y z : BlkZone} (hy : y ∈ zones) (hz : z ∈ zones) {sector : Nat} (cy : Covers y sector)
    (cz : Covers z sector) : y = z := by
  induction zones generalizing a with
  | nil => cases hy
  | cons zone rest ih =>
    obtain ⟨hstart, hpos, hrest⟩ := h
    have apart : ∀ x ∈ rest, Covers x sector → ¬ Covers zone sector := by
      intro x hx cx cz
      have := hrest.le_of_covers hx cx
      have := cz.2
      omega
    rcases List.mem_cons.mp hy with rfl | hy'
    · rcases List.mem_cons.mp hz with rfl | hz'
      · rfl
      · exact absurd cy (apart z hz' cz)
    · rcases List.mem_cons.mp hz with rfl | hz'
      · exact absurd cz (apart y hy' cy)
      · exact ih hrest hy' hz'

theorem Backs.inZone {ztype : Ztype} {zone : BlkZone} {z : ZonefsZone} (h : Backs ztype zone z)
    (hlen : zone.len * 512 < 2 ^ 63) (sector : Nat) : InZone z sector ↔ Covers zone sector := by
  rw [InZone, Covers, h.sector, h.size, sectorBytes_of_lt hlen]
  omega

/-- The file covers what the zone that it is made of covers. -/
def Exactly (zone : BlkZone) (z : ZonefsZone) : Prop :=
  ∀ sector, InZone z sector ↔ Covers zone sector

theorem exactly_covers {files : List BlkZone} {zs : List ZonefsZone}
    (h : List.Forall₂ Exactly files zs) (sector : Nat) :
    (∃ z ∈ zs, InZone z sector) ↔ ∃ f ∈ files, Covers f sector := by
  induction h with
  | nil => simp
  | cons hone _ ih => rw [List.exists_mem_cons_iff, List.exists_mem_cons_iff, hone sector, ih]

theorem exactly_disjoint {files : List BlkZone} {zs : List ZonefsZone}
    (h : List.Forall₂ Exactly files zs)
    (ordered : files.Pairwise fun f g => f.start + f.len ≤ g.start) :
    zs.Pairwise fun y z => ∀ sector, InZone y sector → ¬ InZone z sector := by
  induction h with
  | nil => exact .nil
  | @cons f y files zs hone hrest ih =>
    obtain ⟨hfirst, hordered⟩ := List.pairwise_cons.mp ordered
    refine List.pairwise_cons.mpr ⟨?_, ih hordered⟩
    intro z hz sector iny inz
    have covers := (hone sector).mp iny
    obtain ⟨g, hg, coversg⟩ := (exactly_covers hrest sector).mp ⟨z, hz, inz⟩
    have hle := hfirst g hg
    have hlt := covers.2
    have hge := coversg.1
    omega

theorem forall₂_mem {α β : Type} {R : α → β → Prop} {as : List α} {bs : List β}
    (h : List.Forall₂ R as bs) {b : β} (hb : b ∈ bs) : ∃ a ∈ as, R a b := by
  induction h with
  | nil => cases hb
  | @cons a b' as bs hone _ ih =>
    rcases List.mem_cons.mp hb with rfl | hb
    · exact ⟨a, List.mem_cons_self, hone⟩
    · obtain ⟨a', ha', hR⟩ := ih hb
      exact ⟨a', List.mem_cons_of_mem _ ha', hR⟩

/-- The files of a group against the zones of the type. -/
structure Placed (ztype : Ztype) (zones : List BlkZone) (zs : List ZonefsZone) : Prop where
  disjoint : zs.Pairwise fun y z => ∀ sector, InZone y sector → ¬ InZone z sector
  cnv : ∀ z ∈ zs, z.zoneCnv = decide (ztype = .cnv)
  covers : ∀ sector, (∃ z ∈ zs, InZone z sector) ↔
    ∃ zone ∈ zones, zonefsZoneType zone = ztype ∧ Covers zone sector

theorem Filled.placed {ztype : Ztype} {a : Nat} {zones : List BlkZone} {s s' : Setup δ}
    {zs : List ZonefsZone} (contiguous : Contiguous a zones)
    (fits : endOf a zones * 512 < 2 ^ 63)
    (filled : Filled ztype (groupZones F ztype zones) s zs s') : Placed ztype zones zs := by
  have divided := zgroupZones_divided F.aggrcnv ztype le_rfl contiguous
  have short : ∀ f ∈ groupZones F ztype zones, f.len * 512 < 2 ^ 63 := by
    intro f hf
    have hle : f.len ≤ endOf a zones :=
      (Nat.le_add_left _ _).trans (divided.end_le contiguous hf)
    exact Nat.lt_of_le_of_lt (Nat.mul_le_mul_right 512 hle) fits
  have exactly : List.Forall₂ Exactly (groupZones F ztype zones) zs :=
    ((List.forall₂_and_left _ _).mpr ⟨short, filled.backs⟩).imp
      fun _ _ h => h.2.inZone h.1
  constructor
  · exact exactly_disjoint exactly divided.ordered
  · intro z hz
    obtain ⟨f, _, backs⟩ := forall₂_mem filled.backs hz
    exact backs.cnv
  · exact fun sector => (exactly_covers exactly sector).trans (divided.covers sector)

/-- After a mount each sector behind the first zone is in exactly one file, which is in the
group of the type of its zone, and no other sector is in a file. -/
theorem sector_one_file {super : BlkZone} {zones : List BlkZone} {a : Nat}
    (supported : ∀ zone ∈ zones, zone.type ≠ .other) (contiguous : Contiguous a zones)
    (fits : endOf a zones * 512 < 2 ^ 63) {s s' : Setup δ} {g : Zgroups}
    (h : zonefsInitZgroups D F (zones.length + 1) (.ok (super :: zones)) s = .ok (g, s')) :
    (∀ sector, (∃ z ∈ g.zones, InZone z sector) ↔ a ≤ sector ∧ sector < endOf a zones) ∧
      (g.zones.Pairwise fun y z => ∀ sector, InZone y sector → ¬ InZone z sector) ∧
      ∀ z ∈ g.zones, ∀ zone ∈ zones, ∀ sector, InZone z sector → Covers zone sector →
        (z.zoneCnv = true ↔ zone.type = .conventional) := by
  obtain ⟨s₁, hcnv, hseq⟩ := mount_filled supported contiguous h
  have cnv := hcnv.placed contiguous fits
  have seq := hseq.placed contiguous fits
  have typed : ∀ {ztype zs}, Placed ztype zones zs → ∀ z ∈ zs, ∀ zone ∈ zones, ∀ sector,
      InZone z sector → Covers zone sector → zonefsZoneType zone = ztype := by
    intro ztype zs placed z hz zone hzone sector inz covers
    obtain ⟨zone', hzone', htype, covers'⟩ := (placed.covers sector).mp ⟨z, hz, inz⟩
    rwa [contiguous.covers_unique hzone hzone' covers covers']
  refine ⟨?_, ?_, ?_⟩
  · intro sector
    rw [← contiguous.covered_iff sector]
    constructor
    · rintro ⟨z, hz, inz⟩
      rcases List.mem_append.mp hz with hz | hz
      · obtain ⟨zone, hzone, _, covers⟩ := (cnv.covers sector).mp ⟨z, hz, inz⟩
        exact ⟨zone, hzone, covers⟩
      · obtain ⟨zone, hzone, _, covers⟩ := (seq.covers sector).mp ⟨z, hz, inz⟩
        exact ⟨zone, hzone, covers⟩
    · rintro ⟨zone, hzone, covers⟩
      cases htype : zonefsZoneType zone with
      | cnv =>
        obtain ⟨z, hz, inz⟩ := (cnv.covers sector).mpr ⟨zone, hzone, htype, covers⟩
        exact ⟨z, List.mem_append_left _ hz, inz⟩
      | seq =>
        obtain ⟨z, hz, inz⟩ := (seq.covers sector).mpr ⟨zone, hzone, htype, covers⟩
        exact ⟨z, List.mem_append_right _ hz, inz⟩
  · refine List.pairwise_append.mpr ⟨cnv.disjoint, seq.disjoint, ?_⟩
    intro y hy z hz sector iny inz
    obtain ⟨zone, hzone, htype, covers⟩ := (cnv.covers sector).mp ⟨y, hy, iny⟩
    have hseq := typed seq z hz zone hzone sector inz covers
    rw [htype] at hseq
    cases hseq
  · intro z hz zone hzone sector inz covers
    have conventional : zonefsZoneType zone = .cnv ↔ zone.type = .conventional := by
      simp [zonefsZoneType]
    rcases List.mem_append.mp hz with hz | hz
    · rw [cnv.cnv z hz, ← conventional, typed cnv z hz zone hzone sector inz covers]
      simp
    · rw [seq.cnv z hz, ← conventional, typed seq z hz zone hzone sector inz covers]
      simp

end

/-- A conventional zone, and a sequential one with nothing in it. -/
def mixedZones : List BlkZone :=
  [⟨8, 8, 16, .conventional, .notWp, 8⟩, ⟨16, 8, 16, .seqwriteReq, .empty, 8⟩]

def superZone : BlkZone := ⟨0, 8, 8, .conventional, .notWp, 8⟩

def mixedDrive : BlockDevice Drive := drive ⟨16, 4096, 4096⟩

def mixedFormat : Format := ⟨false, 0, 0, 0o640#16, 8⟩

def mixedGroups : Zgroups where
  cnv := [⟨true, false, false, false, false, true, 8, 4096, 4096, 4096, sIfreg ||| 0o640#16, 0, 0⟩]
  seq := [⟨true, false, false, false, false, false, 16, 4096, 4096, 0, sIfreg ||| 0o640#16, 0, 0⟩]

/-- The second write to come fails, after 512 bytes. -/
def mixedSetup : Setup Drive :=
  ⟨{ newSuper 1 1 9 with sBlocks := 16, sUsedBlocks := 8 }, 4096, ⟨[], [none, some 512]⟩, ⟨3, 4096⟩⟩

theorem mixed_mounted :
    zonefsFillSuper mixedDrive mixedFormat 1 1 9 false none 3 (.ok (superZone :: mixedZones))
      mixedSetup.dev = .ok (mixedGroups, mixedSetup) := by
  decide +kernel

/-- Two conventional zones side by side, a sequential one, and a conventional one behind it. -/
def joinedZones : List BlkZone :=
  [⟨8, 8, 8, .conventional, .notWp, 8⟩, ⟨16, 8, 16, .conventional, .notWp, 8⟩,
    ⟨24, 8, 24, .seqwriteReq, .empty, 8⟩, ⟨32, 8, 32, .conventional, .notWp, 8⟩]

/-- The first two zones are one file of 8192 bytes. -/
def joinedGroups : Zgroups where
  cnv :=
    [⟨true, false, false, false, false, true, 8, 8192, 8192, 8192, sIfreg ||| 0o640#16, 0, 0⟩,
      ⟨true, false, false, false, false, true, 32, 4096, 4096, 4096, sIfreg ||| 0o640#16, 0, 0⟩]
  seq := [⟨true, false, false, false, false, false, 24, 4096, 4096, 0, sIfreg ||| 0o640#16, 0, 0⟩]

def joinedSetup : Setup Drive :=
  ⟨{ newSuper 1 1 9 with sBlocks := 32, sUsedBlocks := 24 }, 8192, ⟨[], []⟩, ⟨5, 4096⟩⟩

theorem joined_sectors :
    (∀ sector, (∃ z ∈ joinedGroups.zones, InZone z sector) ↔ 8 ≤ sector ∧ sector < 40) ∧
      (joinedGroups.zones.Pairwise fun y z => ∀ sector, InZone y sector → ¬ InZone z sector) ∧
      ∀ z ∈ joinedGroups.zones, ∀ zone ∈ joinedZones, ∀ sector, InZone z sector →
        Covers zone sector → (z.zoneCnv = true ↔ zone.type = .conventional) := by
  have init : zonefsInitZgroups mixedDrive { mixedFormat with aggrcnv := true } 5
      (.ok (superZone :: joinedZones)) ⟨newSuper 1 1 9, 0, joinedSetup.dev, ⟨0, 0⟩⟩ =
        .ok (joinedGroups, joinedSetup) := by
    decide +kernel
  exact sector_one_file (a := 8) (by decide) (by simp [Contiguous, joinedZones]) (by decide) init

end ZonefsMounts
