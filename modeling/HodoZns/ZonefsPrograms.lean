import HodoZns.Numbering
import HodoZns.ZonefsBlockLog
import HodoZns.ZonedDrives

/-!
# Programs on zonefs

The commands of the file system programs as they are carried out on the zone files of
a mounted zonefs. On a device without errors a program comes to what it comes to on
lists of blocks, and the kernel may drop the inodes of the zone files in between. What
is safe over the plain map of blocks is so on the zone files, as long as there is room.
-/

namespace ZonefsPrograms

open Programs ByteBlock Layout BlockLog ZoneLog NumberAllocator CallRuns Families Kernel
open LogSimulation Numbering
open ZonefsZones ZonefsRuns ZonedDevices ZonefsOptions ZonefsMounts ZonefsCounts ZonefsContents
open ZonefsHistories ZonefsDurability ZonefsBlockFiles ZonefsBlockLog ZonedDrives
open LogStore (Store mountedStore)

section

variable {ι δ : Type} [DecidableEq ι]

/-- The block log on the zone files. -/
def zonefsDisk (D : BlockDevice δ) (file : Nat → Option ι) (G : Geometry) :
    Disk (ZonefsVolume ι δ) where
  startingNumber := fun v => v.info.startingLogicalNumber
  next := fun v =>
    .done ((hodoGetNextLogicalNumber v.info).1,
      { v with info := (hodoGetNextLogicalNumber v.info).2 })
  write := fun buf n v =>
    let r := (zonefsFiles D file).hodoWriteStruct G v (some buf) hodoDatablockSize n
    unlessStrayed r.volume.info ((r.ret, r.number, r.buf.getD buf), r.volume)
  read := fun n buf v =>
    match (zonefsFiles D file).hodoReadStruct v n (some buf) hodoDatablockSize with
    | some (r, v') => .done ((r.1, r.2.getD buf), v')
    | none => .stuck
  erase := fun n v =>
    let m := hodoEraseTableEntry v.info n
    unlessStrayed m { v with info := m }
  gc := fun temp v =>
    match (zonefsFiles D file).GC G temp v with
    | some v' => unlessStrayed v'.info v'
    | none => .stuck

/-- The machines differ in the disk only, and the zone files are the blocks of the other one. -/
structure Agrees (E : List Extent) (written : δ → Nat → List UInt8) (file : Nat → Option ι)
    (m : Machine (ZonefsVolume ι δ)) (a : Machine Volume) : Prop where
  disk : Represents standardGeometry E written file m.disk a.disk
  inodes : m.inodes = a.inodes
  inodeCount : m.inodeCount = a.inodeCount
  tick : m.tick = a.tick

variable {D : BlockDevice δ} {E : List Extent} {written : δ → Nat → List UInt8}
  {file : Nat → Option ι} {m m' : Machine (ZonefsVolume ι δ)} {a a' : Machine Volume} {K : Env}

omit [DecidableEq ι] in
theorem Agrees.setDisk (h : Agrees E written file m a) {v : ZonefsVolume ι δ} {w : Volume}
    (disk : Represents standardGeometry E written file v w) :
    Agrees E written file (m.setDisk v) (a.setDisk w) :=
  ⟨disk, h.inodes, h.inodeCount, h.tick⟩

omit [DecidableEq ι] in
theorem agrees_mounted {v : ZonefsVolume ι δ} {w : Volume}
    (disk : Represents standardGeometry E written file v w) (groups : Nat) (now : Timespec) :
    Agrees E written file (Operations.mounted v groups now) (Operations.mounted w groups now) :=
  ⟨disk, rfl, rfl, rfl⟩

omit [DecidableEq ι] in
theorem Agrees.withInfo (h : Agrees E written file m a) (f : MappingInfo → MappingInfo) :
    Agrees E written file (m.setDisk { m.disk with info := f m.disk.info })
      (a.setDisk { a.disk with info := f a.disk.info }) :=
  h.setDisk ⟨congrArg f h.disk.info, h.disk.files⟩

omit [DecidableEq ι] in
theorem Agrees.ticked (h : Agrees E written file m a) :
    Agrees E written file { m with tick := m.tick + 1 } { a with tick := a.tick + 1 } :=
  ⟨h.disk, h.inodes, h.inodeCount, congrArg (· + 1) h.tick⟩

/-- Results that are there unless a store went astray. -/
theorem rel_unlessStrayed {α β γ σ τ : Type} {R : σ → τ → Prop} {i i' : MappingInfo} (info : i = i')
    {x : β} {y : γ} {f : β → α × σ} {g : γ → α × τ} (same : (f x).1 = (g y).1)
    (related : R (f x).2 (g y).2) :
    Outcome.Rel R ((unlessStrayed i x).map f) ((unlessStrayed i' y).map g) := by
  rw [unlessStrayed, unlessStrayed, info]
  split
  · exact ⟨same, related⟩
  · trivial

theorem read_agrees (serves : Serves D standardGeometry E written file)
    (h : Agrees E written file m a) (n : Nat) (buf : Block) :
    Outcome.Rel (Agrees E written file)
      (machine (zonefsDisk D file standardGeometry) K (.read n buf) m)
      (machine volumeDisk K (.read n buf) a) := by
  have reads := (files_simulate serves).hodoReadStruct h.disk n (some buf) hodoDatablockSize
  simp only [machine, zonefsDisk, volumeDisk, ZoneLog.hodoReadStruct]
  generalize (zonefsFiles D file).hodoReadStruct m.disk n (some buf) hodoDatablockSize =
    x at reads ⊢
  -- lists of blocks have no state that a read could change
  have still : ∀ r w, (listFiles standardGeometry ioOk).hodoReadStruct a.disk n (some buf)
      hodoDatablockSize = some (r, w) → w = a.disk := by
    intro r w heq
    rw [ZoneFiles.hodoReadStruct] at heq
    split at heq
    · exact (congrArg Prod.snd (Option.some.inj heq)).symm.trans readAt_snd
    · cases heq
  generalize (listFiles standardGeometry ioOk).hodoReadStruct a.disk n (some buf)
    hodoDatablockSize = y at reads still ⊢
  cases reads with
  | none => trivial
  | @some x y alike =>
    obtain ⟨r, v⟩ := x
    obtain ⟨_, w⟩ := y
    obtain ⟨rfl, related⟩ := alike
    obtain rfl := still r w rfl
    exact ⟨rfl, h.setDisk related⟩

/-- Every command is answered as over lists of blocks. -/
theorem command_agrees (serves : Serves D standardGeometry E written file)
    (h : Agrees E written file m a) (c : Cmd) :
    Outcome.Rel (Agrees E written file) (machine (zonefsDisk D file standardGeometry) K c m)
      (machine volumeDisk K c a) := by
  have info := h.disk.info
  cases c with
  | startingNumber => exact ⟨congrArg MappingInfo.startingLogicalNumber info, h⟩
  | next =>
    refine ⟨?_, h.withInfo fun i => (hodoGetNextLogicalNumber i).2⟩
    exact congrArg (fun i => (hodoGetNextLogicalNumber i).1) info
  | write buf n =>
    have wrote := (files_simulate serves).hodoWriteStruct (G := standardGeometry) h.disk (some buf)
      hodoDatablockSize n
    simp only [machine, zonefsDisk, volumeDisk, ZoneLog.hodoWriteStruct, wrote.ret, wrote.number,
      wrote.buf]
    exact rel_unlessStrayed wrote.volume.info rfl (h.setDisk wrote.volume)
  | read n buf => exact read_agrees serves h n buf
  | erase n =>
    have erased := h.withInfo fun i => hodoEraseTableEntry i n
    exact rel_unlessStrayed erased.disk.info rfl erased
  | gc temp =>
    have ends := (files_simulate serves).GC (G := standardGeometry) h.disk temp
    simp only [machine, zonefsDisk, volumeDisk, Collector.GC]
    generalize (zonefsFiles D file).GC standardGeometry temp m.disk = v at ends ⊢
    generalize (listFiles standardGeometry ioOk).GC standardGeometry temp a.disk = w at ends ⊢
    cases ends with
    | none => trivial
    | some disk => exact rel_unlessStrayed disk.info rfl (h.setDisk disk)
  | kmalloc => exact ⟨congrArg K.heap h.tick, h.ticked⟩
  | auto => exact ⟨congrArg K.stack h.tick, h.ticked⟩
  | now => exact ⟨congrArg K.clock h.tick, h.ticked⟩
  | newInode =>
    refine ⟨h.inodeCount, h.disk, ?_, congrArg (· + 1) h.inodeCount, h.tick⟩
    simp only [h.inodes, h.inodeCount]
  | inode ref => exact ⟨congrArg (· ref) h.inodes, h⟩
  | setInode ref f =>
    refine ⟨rfl, h.disk, ?_, h.inodeCount, h.tick⟩
    simp only [h.inodes]

/-- They agree, and the numbers of inodes begin where those of zone files end. -/
structure Served (E : List Extent) (written : δ → Nat → List UInt8) (file : Nat → Option ι)
    (m : Machine (ZonefsVolume ι δ)) (a : Machine Volume) : Prop
    extends Agrees E written file m a where
  first : m.disk.info.startingLogicalNumber = standardGeometry.hodoNrZones

/-- Programs are carried out as over lists of blocks. -/
theorem program_agrees (serves : Serves D standardGeometry E written file)
    (h : Served E written file m a) {α : Type} (p : Program α) :
    Outcome.Rel (Served E written file)
      (exec (machine (zonefsDisk D file standardGeometry) K) p m)
      (exec (machine volumeDisk K) p a) := by
  have same := exec_lockstep (fun _ _ c h => command_agrees (K := K) serves h c) p h.toAgrees
  rcases same.cases with ⟨r, m', a', ho, ho', agrees⟩ | ⟨ho, ho'⟩ | ⟨ho, ho'⟩
  · rw [ho, ho']
    refine ⟨rfl, agrees, ?_⟩
    rw [agrees.disk.info, starting_exec ho', ← h.disk.info]
    exact h.first
  · rw [ho, ho']
    trivial
  · rw [ho, ho']
    trivial

/-- A program is run, or the kernel drops the inode of a zone file if it can. -/
inductive Turn (ι : Type) where
  | program (p : Program Int)
  | evict (i : ι)

/-- The answer of a program that ends. -/
def ended {σ : Type} : Outcome (Int × σ) → Option (Int × σ)
  | .done r => some r
  | .noRoom => none
  | .stuck => none

def dropInode (v : ZonefsVolume ι δ) (i : ι) : ZonefsVolume ι δ :=
  { v with fs := (evictInode v.fs i).getD v.fs }

def zonefsStep (D : BlockDevice δ) (file : Nat → Option ι) (G : Geometry) (K : Env)
    (m : Machine (ZonefsVolume ι δ)) : Turn ι → Option (Int × Machine (ZonefsVolume ι δ))
  | .program p => ended (exec (machine (zonefsDisk D file G) K) p m)
  | .evict i => some (0, m.setDisk (dropInode m.disk i))

/-- Lists of blocks have no inodes to drop. -/
def volumeStep (K : Env) (a : Machine Volume) : Turn ι → Option (Int × Machine Volume)
  | .program p => ended (exec (machine volumeDisk K) p a)
  | .evict _ => some (0, a)

theorem ended_agrees {σ τ : Type} {R : σ → τ → Prop} {o : Outcome (Int × σ)}
    {o' : Outcome (Int × τ)} (h : Outcome.Rel R o o') :
    Option.Rel (fun r r' => r.1 = r'.1 ∧ R r.2 r'.2) (ended o) (ended o') := by
  rcases h.cases with ⟨a, s, t, rfl, rfl, related⟩ | ⟨rfl, rfl⟩ | ⟨rfl, rfl⟩
  · exact .some ⟨rfl, related⟩
  · exact .none
  · exact .none

theorem dropInode_refines {v : ZonefsVolume ι δ} {w : Volume}
    (h : Represents standardGeometry E written file v w) (i : ι) :
    Represents standardGeometry E written file (dropInode v i) w := by
  refine ⟨h.info, ?_⟩
  rw [dropInode]
  cases hevict : evictInode v.fs i with
  | none => exact h.files
  | some fs => exact h.files.evict hevict

theorem step_agrees (serves : Serves D standardGeometry E written file)
    (m : Machine (ZonefsVolume ι δ)) (a : Machine Volume) (c : Turn ι)
    (h : Served E written file m a) :
    Option.Rel (fun r r' => r.1 = r'.1 ∧ Served E written file r.2 r'.2)
      (zonefsStep D file standardGeometry K m c) (volumeStep K a c) := by
  cases c with
  | program p => exact ended_agrees (program_agrees serves h p)
  | evict i => exact .some ⟨rfl, h.toAgrees.setDisk (dropInode_refines h.disk i), h.first⟩

/-- What a safe program does over the plain map, it does on the zone files. -/
theorem program_runs (serves : Serves D standardGeometry E written file) {α : Type} {p : Program α}
    {b : Machine Store} {Q : α → Machine Store → Prop} (h : Served E written file m a)
    (h' : VolumeMachine.Agrees a b) (fits : Guarded (machine volumeDisk K) VolumeMachine.Fits p a)
    (safe : wp (machine storeDisk K) p Q b) :
    ∃ r m' a' b', exec (machine (zonefsDisk D file standardGeometry) K) p m = .done (r, m') ∧
      Served E written file m' a' ∧ VolumeMachine.Agrees a' b' ∧ Q r b' := by
  obtain ⟨r, a', b', hexec, agrees', post⟩ := VolumeMachine.program_runs h' fits safe
  have same := program_agrees (K := K) serves h p
  rw [hexec] at same
  rcases same.cases with ⟨_, m', _, ho, heq, agrees⟩ | ⟨_, heq⟩ | ⟨_, heq⟩
  · cases heq
    exact ⟨r, m', a', b', ho, agrees, agrees', post⟩
  · cases heq
  · cases heq

theorem hodoInit_refines {G : Geometry} (serves : Serves D G E written file) {fs : Fs ι δ}
    {dev : Nat → List Block} (files : FilesHold G E written file fs dev) (onDisk : MappingInfo)
    (stack : Block) (uid gid : Nat) :
    Represents G E written file ((zonefsFiles D file).hodoInit G ⟨onDisk, fs⟩ stack uid gid)
      (ZoneLog.hodoInit G onDisk dev stack uid gid) :=
  (files_simulate serves).hodoInit (t := ⟨onDisk, dev, []⟩) ⟨rfl, files⟩ stack uid gid

end

/-- The sequential files by their numbers. -/
def zoneFile (g : Zgroups) (k : Nat) : Option (Fin g.zones.length) :=
  if h : k < g.seq.length then
    some ⟨g.cnv.length + k, by rw [Zgroups.zones, List.length_append]; omega⟩
  else none

theorem zoneFile_isSome (g : Zgroups) (k : Nat) : (zoneFile g k).isSome ↔ k < g.seq.length := by
  rw [zoneFile]
  split
  · rename_i h
    exact ⟨fun _ => h, fun _ => rfl⟩
  · rename_i h
    exact ⟨fun hsome => absurd hsome Bool.false_ne_true, fun hlt => absurd hlt h⟩

theorem zoneFile_eq_some {g : Zgroups} {k : Nat} {i : Fin g.zones.length}
    (h : zoneFile g k = some i) : i.val = g.cnv.length + k ∧ g.seq[k]? = some (g.zones.get i) := by
  rw [zoneFile] at h
  split at h
  · rename_i hk
    obtain rfl := Option.some.inj h
    refine ⟨rfl, ?_⟩
    have behind : g.zones[g.cnv.length + k]? = g.seq[k]? := by
      rw [Zgroups.zones, List.getElem?_append_right (Nat.le_add_right _ _), Nat.add_sub_cancel_left]
    exact behind.symm.trans (List.getElem?_eq_getElem _)
  · cases h

/-- What hodo takes from the mount. -/
def hodoGeometry (h : HodoSizes) : Geometry := ⟨h.nrZones.toNat, h.zoneSize.toNat⟩

/-- The device that hodo counts on: as many zones as it has rows for, all but the first of them
sequential and good, each of the size and with the capacity that it takes a zone to have. -/
structure Suits (G : Geometry) (zones : List BlkZone) (g : Zgroups) : Prop where
  count : zones.length + 1 = G.hodoNrZones
  size : ∀ zone ∈ zones, zone.len * 512 = G.hodoZoneSize
  files : g.seq.length + 1 = G.hodoNrZones
  good : ∀ z ∈ g.seq, z.isBad = false
  capacity : ∀ z ∈ g.seq, z.zCapacity = G.hodoZoneSize

section

variable {δ : Type} {D : BlockDevice δ} {F : Format} {written : δ → Nat → List UInt8}
  {zones : List BlkZone} {g : Zgroups} {s : Setup δ}

theorem fill_super_rdonly {maxOpen maxActive blocksizeBits : Nat} {rdonly : Bool}
    {data : Option (List UInt8)} {nrZones : Nat} {reported : Except Int (List BlkZone)} {dev : δ}
    (h : zonefsFillSuper D F maxOpen maxActive blocksizeBits rdonly data nrZones reported dev =
      .ok (g, s)) : s.sbi.rdonly = rdonly := by
  have parsed : (zonefsParseOptions data
      { newSuper maxOpen maxActive blocksizeBits with rdonly := rdonly }).2.rdonly = rdonly :=
    congrArg SbInfo.rdonly (reparsed data _).frame
  rw [zonefsFillSuper] at h
  simp only at h
  split at h
  · cases h
  · obtain ⟨_, super⟩ := zonefsInitZgroups_ok h
    rw [super, foldl_addZone]
    simp only [ZonefsMounts.ignoreExplicitOpen]
    split
    · exact parsed
    · exact parsed

/-- What a mount leaves on a device with whole blocks in its sequential zones. -/
theorem mounted_holds {G : Geometry} (mounted : MountedOn D written zones g s)
    (suits : Suits G zones g)
    {blocks : Nat → List Block}
    (holds : ∀ k z, g.seq[k]? = some z → written s.dev z.zSector = blockBytes (blocks k))
    (writable : s.sbi.rdonly = false) (unused : s.sbi.wroSeqFiles = 0)
    (blocksize : s.sbi.blocksizeBits = 12) :
    FilesHold G (seqExtents zones) written (zoneFile g) (mountedFs g s) blocks := by
  have laid := laid_mounted mounted
  constructor
  · intro k i hfile
    obtain ⟨_, hget⟩ := zoneFile_eq_some hfile
    have hmem := List.mem_of_getElem? hget
    obtain ⟨zone, _, _, begins⟩ := mounted.seq _ hmem
    have hsector : (g.zones.get i).zSector = zone.start := congrArg Extent.sector begins.extent
    have content := holds k _ hget
    have hwp : (g.zones.get i).zWpoffset = (blockBytes (blocks k)).length := by
      rw [begins.whole (suits.good _ hmem), ← hsector, content]
    have base : OfBlocks G (seqExtents zones) written (blocks k)
        ⟨s.sbi, g.zones.get i, ⟨(blockBytes (blocks k)).length, 0, 0, 0, false, false, 0⟩,
          s.dev⟩ := by
      constructor
      · exact ⟨laid.sequential begins.seq, suits.good _ hmem, content, hwp, rfl, rfl, rfl, writable⟩
      · exact ⟨rfl, unused⟩
      · exact suits.capacity _ hmem
      · exact blocksize
    exact ofBlocks_reloaded base
  · intro k k' i j hi hj hne
    obtain ⟨hki, hget⟩ := zoneFile_eq_some hi
    obtain ⟨hkj, hget'⟩ := zoneFile_eq_some hj
    obtain ⟨_, _, _, begins⟩ := mounted.seq _ (List.mem_of_getElem? hget)
    obtain ⟨_, _, _, begins'⟩ := mounted.seq _ (List.mem_of_getElem? hget')
    refine laid.apart i j (fun heq => hne ?_) begins.seq begins'.seq
    have hval := congrArg Fin.val heq
    omega

theorem serves_mounted (sound : ErrorFree D (seqExtents zones) written)
    (suits : Suits standardGeometry zones g) :
    Serves D standardGeometry (seqExtents zones) written (zoneFile g) := by
  refine ⟨sound, by decide +kernel, fun k => ?_⟩
  rw [zoneFile_isSome, ← suits.files]
  exact Nat.succ_lt_succ_iff.symm

/-- Hodo is told of its geometry. -/
theorem told_geometry {start : Nat} {dev : δ} (device : Mountable D written start zones dev)
    {maxOpen maxActive : Nat} {data : Option (List UInt8)} {super : BlkZone}
    (h : zonefsFillSuper D F maxOpen maxActive 12 false data (zones.length + 1)
      (.ok (super :: zones)) dev = .ok (g, s))
    (suits : Suits standardGeometry zones g) : hodoGeometry s.hodo = standardGeometry := by
  rw [zonefsFillSuper] at h
  simp only at h
  split at h
  · cases h
  · have nonempty : zones ≠ [] := by
      rintro rfl
      exact absurd suits.count (by decide)
    have zones16 : (asInt standardGeometry.hodoNrZones).toNat = standardGeometry.hodoNrZones := by
      decide
    have size256M : (asInt standardGeometry.hodoZoneSize).toNat =
      standardGeometry.hodoZoneSize := by
      decide +kernel
    rw [mount_tells device.supported device.contiguous h suits.size nonempty, suits.count,
      hodoGeometry, zones16, size256M]

theorem hodoInit_starting {G : Geometry} (onDisk : MappingInfo) (dev : Nat → List Block)
    (stack : Block) (uid gid : Nat) :
    (ZoneLog.hodoInit G onDisk dev stack uid gid).info.startingLogicalNumber =
      onDisk.startingLogicalNumber := by
  rw [hodoInit_eq]
  simp only
  split
  · exact (WritePointers.hodoWriteStruct_starting _ _ _ _ _ _).trans (getNext_starting _)
  · rfl

/-- The mount of zonefs, and `hodo_init` behind it. -/
theorem represents_mounted {start : Nat} {dev : δ} (device : Mountable D written start zones dev)
    (sound : ErrorFree D (seqExtents zones) written) {maxOpen maxActive : Nat}
    {data : Option (List UInt8)} {super : BlkZone}
    (h : zonefsFillSuper D F maxOpen maxActive 12 false data (zones.length + 1)
      (.ok (super :: zones)) dev = .ok (g, s))
    (suits : Suits standardGeometry zones g) {blocks : Nat → List Block}
    (holds : ∀ k z, g.seq[k]? = some z → written s.dev z.zSector = blockBytes (blocks k))
    (onDisk : MappingInfo) (stack : Block) (uid gid : Nat) :
    Represents standardGeometry (seqExtents zones) written (zoneFile g)
      ((zonefsFiles D (zoneFile g)).hodoInit standardGeometry ⟨onDisk, mountedFs g s⟩ stack uid gid)
      (ZoneLog.hodoInit standardGeometry onDisk blocks stack uid gid) := by
  obtain ⟨_, sbi, blank, hsuper⟩ := fill_super_ok h
  have unused : s.sbi.wroSeqFiles = 0 := by
    rw [hsuper, foldl_addZone]
    exact blank.wro
  have blocksize : s.sbi.blocksizeBits = 12 := by
    rw [hsuper, foldl_addZone]
    exact blank.blocksizeBits
  have files := mounted_holds (fill_super_mounted device h) suits holds (fill_super_rdonly h) unused
    blocksize
  exact hodoInit_refines (serves_mounted sound suits) files onDisk stack uid gid

/-- On a device without errors that holds whole blocks when it is mounted, every run of programs
ends exactly if it ends on lists of blocks, with the same answers, whatever inodes of zone files the
kernel drops in between. The number of zones and their size are those the mount has found. -/
theorem programs_on_zonefs {start : Nat} {dev : δ} (device : Mountable D written start zones dev)
    (sound : ErrorFree D (seqExtents zones) written) {maxOpen maxActive : Nat}
    {data : Option (List UInt8)} {super : BlkZone}
    (h : zonefsFillSuper D F maxOpen maxActive 12 false data (zones.length + 1)
      (.ok (super :: zones)) dev = .ok (g, s))
    (suits : Suits standardGeometry zones g) {blocks : Nat → List Block}
    (holds : ∀ k z, g.seq[k]? = some z → written s.dev z.zSector = blockBytes (blocks k))
    {onDisk : MappingInfo}
    (first : onDisk.startingLogicalNumber = (hodoGeometry s.hodo).hodoNrZones)
    (stack : Block) (uid gid : Nat) (K : Env) (inodes : Nat → VfsInode)
    (inodeCount tick : Nat) (cs : List (Turn (Fin g.zones.length))) :
    Option.Rel
      (fun r r' => r.1 = r'.1 ∧ Served (seqExtents zones) written (zoneFile g) r.2 r'.2)
      (run (zonefsStep D (zoneFile g) (hodoGeometry s.hodo) K) cs
        ⟨(zonefsFiles D (zoneFile g)).hodoInit (hodoGeometry s.hodo)
          ⟨onDisk, mountedFs g s⟩ stack uid gid,
          inodes, inodeCount, tick⟩)
      (run (volumeStep K) cs
        ⟨ZoneLog.hodoInit standardGeometry onDisk blocks stack uid gid, inodes, inodeCount,
          tick⟩) := by
  rw [told_geometry device h suits] at first ⊢
  have volume := represents_mounted device sound h suits holds onDisk stack uid gid
  refine run_lockstep (step_agrees (serves_mounted sound suits)) cs ⟨⟨volume, rfl, rfl, rfl⟩, ?_⟩
  rw [volume.info, hodoInit_starting]
  exact first

/-- On a freshly formatted device a program that is safe over the plain map of blocks, and for which
there is room in the log, ends on the zone files as it may over the map. -/
theorem store_programs_on_zonefs {start : Nat} {dev : δ}
    (device : Mountable D written start zones dev)
    (sound : ErrorFree D (seqExtents zones) written) {maxOpen maxActive : Nat}
    {data : Option (List UInt8)} {super : BlkZone}
    (h : zonefsFillSuper D F maxOpen maxActive 12 false data (zones.length + 1)
      (.ok (super :: zones)) dev = .ok (g, s))
    (suits : Suits standardGeometry zones g) (empty : ∀ z ∈ g.seq, written s.dev z.zSector = [])
    (stack : Block) (uid gid groups : Nat) (now : Timespec) (K : Env) {α : Type} {p : Program α}
    {Q : α → Machine Store → Prop}
    (fits : Guarded (machine volumeDisk K) VolumeMachine.Fits p
      (Operations.mounted (firstMount standardGeometry stack uid gid) groups now))
    (safe : wp (machine storeDisk K) p Q
      (Operations.mounted (mountedStore stack uid gid) groups now)) :
    ∃ r m' a' b',
      exec (machine (zonefsDisk D (zoneFile g) (hodoGeometry s.hodo)) K) p
          (Operations.mounted ((zonefsFiles D (zoneFile g)).hodoInit (hodoGeometry s.hodo)
            ⟨{ zeroMappingInfo with startingLogicalNumber := (hodoGeometry s.hodo).hodoNrZones },
              mountedFs g s⟩ stack uid gid) groups now) = .done (r, m') ∧
        Served (seqExtents zones) written (zoneFile g) m' a' ∧ VolumeMachine.Agrees a' b' ∧
        Q r b' := by
  rw [told_geometry device h suits]
  have holds : ∀ k z, g.seq[k]? = some z → written s.dev z.zSector =
      blockBytes ((fun _ : Nat => []) k) :=
    fun k z hget => empty z (List.mem_of_getElem? hget)
  have volume := represents_mounted device sound h suits holds
    { zeroMappingInfo with startingLogicalNumber := standardGeometry.hodoNrZones } stack uid gid
  refine program_runs (serves_mounted sound suits) ⟨agrees_mounted volume groups now, ?_⟩
    (VolumeMachine.agrees_mounted stack uid gid groups now) fits safe
  exact (congrArg MappingInfo.startingLogicalNumber volume.info).trans (hodoInit_starting _ _ _ _ _)

end

/-- Fifteen zones of 256 MiB with nothing in them. -/
def blankZones : List BlkZone :=
  (List.range 15).map fun k =>
    ⟨(k + 1) * 524288, 524288, (k + 1) * 524288, .seqwriteReq, .empty, 524288⟩

def blankDrives : BlockDevice (Nat → List UInt8) := steadyDrives (seqExtents blankZones)

def blankMount : Except Int (Zgroups × Setup (Nat → List UInt8)) :=
  zonefsFillSuper blankDrives ⟨false, 0, 0, 0o640#16, 524288⟩ 14 14 12 false none 16
    (.ok (⟨0, 524288, 524288, .conventional, .notWp, 524288⟩ :: blankZones)) fun _ => []

theorem blank_sideBySide : SideBySide (seqExtents blankZones) := by
  have ordered : (seqExtents blankZones).Pairwise fun e e' => e.start + e.size ≤ e'.start := by
    decide +kernel
  constructor
  · decide +kernel
  · exact ordered.imp fun hle offset h h' => by
      have := h.2
      have := h'.1
      omega
  · decide +kernel

theorem contentAt_blank (es : List Extent) (sector : Nat) :
    contentAt es (fun _ => []) sector = [] := by
  rw [contentAt]
  split
  · rfl
  · exact List.take_nil

theorem blank_mountable :
    Mountable blankDrives (contentAt (seqExtents blankZones)) 524288 blankZones fun _ => [] where
  supported := by decide +kernel
  contiguous := by simp [Contiguous, blankZones, List.range_succ]
  fits := by decide +kernel
  capacity := by decide +kernel
  keeps := steadyDrives_lawful blank_sideBySide
  tells := by
    intro zone hzone _
    obtain ⟨k, _, rfl⟩ := List.mem_map.mp hzone
    rw [contentAt_blank]
    simp [Tells, sectorSub, sectorBytes]

/-- What the two theorems need of the device. -/
theorem blank_mounted : ∃ g s, blankMount = .ok (g, s) ∧ Suits standardGeometry blankZones g ∧
    (∀ z ∈ g.seq, contentAt (seqExtents blankZones) s.dev z.zSector = []) ∧
    0 < g.zones.length := by
  have checked : blankMount.toOption.map (fun r =>
      decide ((r.1.seq.length + 1 = standardGeometry.hodoNrZones ∧
          (∀ z ∈ r.1.seq, z.isBad = false) ∧
          ∀ z ∈ r.1.seq, z.zCapacity = (standardGeometry.hodoZoneSize : Int)) ∧
        (∀ z ∈ r.1.seq, contentAt (seqExtents blankZones) r.2.dev z.zSector = []) ∧
        0 < r.1.zones.length)) = some true := by
    decide +kernel
  obtain ⟨⟨g, s⟩, hmount, hdecide⟩ := Option.map_eq_some_iff.mp checked
  obtain ⟨⟨files, good, capacity⟩, empty, nonempty⟩ := of_decide_eq_true hdecide
  refine ⟨g, s, ?_, ⟨by decide, by decide +kernel, files, good, capacity⟩, empty, nonempty⟩
  cases hblank : blankMount with
  | ok r =>
    rw [hblank] at hmount
    exact congrArg Except.ok (Option.some.inj hmount)
  | error e =>
    rw [hblank] at hmount
    cases hmount

/-- Two programs that use the log, and an inode that is dropped in between. -/
def twoPrograms {ι : Type} (i : ι) : List (Turn ι) :=
  [.program (do let n ← nextLogicalNumber; pure n), .evict i,
    .program (do let (ret, _) ← hodoWrite zeros 0; pure ret)]

def blankMachine {σ : Type} (disk : σ) : Machine σ := ⟨disk, fun _ => newInode, 0, 0⟩

theorem twoPrograms_agree : ∃ g s i, blankMount = .ok (g, s) ∧
    Option.Rel
      (fun r r' => r.1 = r'.1 ∧
        Served (seqExtents blankZones) (contentAt (seqExtents blankZones)) (zoneFile g) r.2 r'.2)
      (run (zonefsStep blankDrives (zoneFile g) (hodoGeometry s.hodo) (zeroFilled fun _ => ⟨0, 0⟩))
        (twoPrograms i)
        (blankMachine ((zonefsFiles blankDrives (zoneFile g)).hodoInit (hodoGeometry s.hodo)
          ⟨{ zeroMappingInfo with startingLogicalNumber := standardGeometry.hodoNrZones },
            mountedFs g s⟩ zeros 0 0)))
      (run (volumeStep (zeroFilled fun _ => ⟨0, 0⟩)) (twoPrograms i)
        (blankMachine (firstMount standardGeometry zeros 0 0))) := by
  obtain ⟨g, s, mount, suits, empty, nonempty⟩ := blank_mounted
  have holds : ∀ k z, g.seq[k]? = some z → contentAt (seqExtents blankZones) s.dev z.zSector =
      blockBytes ((fun _ : Nat => []) k) :=
    fun k z hget => empty z (List.mem_of_getElem? hget)
  have first : ({ zeroMappingInfo with
      startingLogicalNumber := standardGeometry.hodoNrZones } : MappingInfo).startingLogicalNumber =
        (hodoGeometry s.hodo).hodoNrZones := by
    rw [told_geometry blank_mountable mount suits]
  exact ⟨g, s, ⟨0, nonempty⟩, mount, programs_on_zonefs blank_mountable
    (steadyDrives_errorFree blank_sideBySide) mount suits holds first zeros 0 0 _
    (fun _ => newInode) 0 0 _⟩

/-- The number in the root inode. -/
def rootNumber : Program Nat := do
  let b ← hodoRead 16 zeros
  pure (iIno b)

theorem rootNumber_read : ∃ g s m', blankMount = .ok (g, s) ∧
    exec (machine (zonefsDisk blankDrives (zoneFile g) (hodoGeometry s.hodo))
        (zeroFilled fun _ => ⟨0, 0⟩)) rootNumber
      (Operations.mounted ((zonefsFiles blankDrives (zoneFile g)).hodoInit (hodoGeometry s.hodo)
        ⟨{ zeroMappingInfo with startingLogicalNumber := (hodoGeometry s.hodo).hodoNrZones },
          mountedFs g s⟩ zeros 0 0) 2 ⟨0, 0⟩) = .done (16, m') := by
  obtain ⟨g, s, mount, suits, empty, _⟩ := blank_mounted
  have safe : wp (machine storeDisk (zeroFilled fun _ => ⟨0, 0⟩)) rootNumber (fun r _ => r = 16)
      (Operations.mounted (mountedStore zeros 0 0) 2 ⟨0, 0⟩) := by
    have content : (mountedStore zeros 0 0).content 16 = some (rootInode zeros 16 0 0) := rfl
    simp only [rootNumber, hodoRead, Cmd.give, wp_bind, wp_cmd, machine, storeDisk,
      Operations.mounted, content, Outcome.map]
    simp only [Outcome.Meets, wp_pure, rootInode, LogStore.iIno_putInodeFields]
    rfl
  have fits : Guarded
    (machine volumeDisk (zeroFilled fun _ => ⟨0, 0⟩)) VolumeMachine.Fits rootNumber
      (Operations.mounted (firstMount standardGeometry zeros 0 0) 2 ⟨0, 0⟩) :=
    ⟨trivial, fun _ _ _ => trivial⟩
  obtain ⟨r, m', _, _, hexec, _, _, rfl⟩ := store_programs_on_zonefs blank_mountable
    (steadyDrives_errorFree blank_sideBySide) mount suits empty zeros 0 0 2 ⟨0, 0⟩ _ fits
    safe
  exact ⟨g, s, m', mount, hexec⟩

end ZonefsPrograms
