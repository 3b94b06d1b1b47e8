import HodoZns.BlockLog

/-!
# The block log on the zone files

Zone files are opened under `<mount>/seq/<zone_id>`; device zone 0 holds the
super block of zonefs, so there is one file less than there are zones. A
sequential zone file accepts a write only at its write pointer, which is kept
here as the length of the list of blocks written since the last reset. Every
command given to a zone file is recorded together with the mapping table and
the zones it met; no function reads that record.
-/

namespace ZoneLog

open ByteBlock Layout BlockLog

inductive Io where
  | write (zone offset number : Nat)
  | reset (zone : Nat)

structure Event where
  io : Io
  table : Nat → BlockPos
  dev : Nat → List Block

structure Volume where
  info : MappingInfo
  dev : Nat → List Block
  trace : List Event

/-- How the kernel answers the open and the transfer of one call. -/
structure IoResult where
  openError : Option Int
  iterError : Option Int

def ioOk : IoResult := ⟨none, none⟩

def filpOpen (G : Geometry) (r : IoResult) (zone : Nat) : Option Int :=
  match r.openError with
  | some e => some e
  | none => if zone + 1 < G.hodoNrZones then none else some eNoEnt

/-- Direct writes to a sequential zone, block aligned and append only. -/
def zonefsFileWriteIter (G : Geometry) (zone : List Block) (kiPos len : Nat) (b : Block) :
    Int × List Block :=
  if G.hodoZoneSize ≤ kiPos then (eFBig, zone)
  else if kiPos % hodoDatablockSize ≠ 0 ∨ len % hodoDatablockSize ≠ 0 then (eInval, zone)
  else if kiPos ≠ zone.length * hodoDatablockSize then (eInval, zone)
  else (len, zone ++ [b])

/-- A read past the written part delivers nothing. -/
def zonefsFileReadIter (G : Geometry) (zone : List Block) (kiPos len : Nat) (buf : Block) :
    Int × Block :=
  if G.hodoZoneSize ≤ kiPos then (0, buf)
  else
    match zone[kiPos / hodoDatablockSize]? with
    | none => (0, buf)
    | some b =>
      if kiPos % hodoDatablockSize ≠ 0 ∨ len % hodoDatablockSize ≠ 0 then (eInval, buf)
      else (len, b)

/-- `kern_path` of the zone file followed by `zonefs_file_truncate(inode, 0)`. -/
def truncateZone (G : Geometry) (v : Volume) (zone : Nat) : Volume :=
  if zone + 1 < G.hodoNrZones then
    { v with
      dev := update v.dev zone []
      trace := ⟨.reset zone, v.info.mappingTable, v.dev⟩ :: v.trace }
  else v

/-- `write_iter` on the opened zone file. -/
def zoneWrite (G : Geometry) (r : IoResult) (v : Volume) (zone offset len n : Nat) (b : Block) :
    Int × Volume :=
  let (ret, blocks) :=
    match r.iterError with
    | some e => (e, v.dev zone)
    | none => zonefsFileWriteIter G (v.dev zone) offset len b
  (ret, { v with
    dev := update v.dev zone blocks
    trace := ⟨.write zone offset n, v.info.mappingTable, v.dev⟩ :: v.trace })

/-- `filp_open` and `read_iter`. -/
def zoneRead (G : Geometry) (r : IoResult) (v : Volume) (zone offset len : Nat) (buf : Block) :
    Int × Block :=
  match filpOpen G r zone, r.iterError with
  | some e, _ => (e, buf)
  | none, some e => (e, buf)
  | none, none => zonefsFileReadIter G (v.dev zone) offset len buf

/-- The zone files as lists of blocks. -/
def listFiles (G : Geometry) (r : IoResult) : ZoneFiles Volume where
  info v := v.info
  setInfo v m := { v with info := m }
  write zone offset len n b v :=
    match filpOpen G r zone with
    | some e => (.error e, v)
    | none =>
      let (ret, v) := zoneWrite G r v zone offset len n b
      (.ok ret, v)
  read zone offset len buf v := (zoneRead G r v zone offset len buf, v)
  truncate zone v := truncateZone G v zone

abbrev WriteResult := BlockLog.WriteResult Volume

def setWp (v : Volume) (pos : BlockPos) : Volume := { v with info := { v.info with wp := pos } }

def setSwapWp (v : Volume) (pos : BlockPos) : Volume :=
  { v with info := { v.info with swapWp := pos } }

def readAt (G : Geometry) (r : IoResult) (v : Volume) (pos : BlockPos) (outBuf : Option Block)
    (len : Nat) : Int × Option Block :=
  ((listFiles G r).readAt v pos outBuf len).1

def hodoReadStruct (G : Geometry) (r : IoResult) (v : Volume) (n : Nat) (outBuf : Option Block)
    (len : Nat) : Option (Int × Option Block) :=
  ((listFiles G r).hodoReadStruct v n outBuf len).map Prod.fst

def hodoGCReadStruct (G : Geometry) (r : IoResult) (v : Volume) (pos : BlockPos)
    (outBuf : Option Block) (len : Nat) : Int × Option Block :=
  ((listFiles G r).hodoGCReadStruct v pos outBuf len).1

def hodoWriteStruct (G : Geometry) (r : IoResult) (v : Volume) (buf : Option Block)
    (len n : Nat) : WriteResult :=
  (listFiles G r).hodoWriteStruct G v buf len n

def hodoGCWriteStruct (G : Geometry) (r : IoResult) (v : Volume) (buf : Option Block)
    (len n : Nat) : WriteResult :=
  (listFiles G r).hodoGCWriteStruct G v buf len n

/-- Reading the mapping information of an earlier mount from zone 0 is the
argument `onDisk`. -/
def hodoInit (G : Geometry) (onDisk : MappingInfo) (dev : Nat → List Block) (stack : Block)
    (uid gid : Nat) : Volume :=
  (listFiles G ioOk).hodoInit G ⟨onDisk, dev, []⟩ stack uid gid

/-- A freshly formatted device: the zone files are empty, so nothing is read
over the zero-initialised mapping information. -/
def firstMount (G : Geometry) (stack : Block) (uid gid : Nat) : Volume :=
  hodoInit G { zeroMappingInfo with startingLogicalNumber := G.hodoNrZones } (fun _ => [])
    stack uid gid

section

variable {G : Geometry} {r : IoResult} {v : Volume}

@[simp] theorem listFiles_info : (listFiles G r).info v = v.info := rfl

theorem readAt_some {pos : BlockPos} {buf : Block} {len : Nat} :
    readAt G r v pos (some buf) len =
      if len = 0 ∨ hodoDatablockSize < len then (eInval, some buf)
      else
        ((zoneRead G r v pos.zoneId (pos.blockIndex * hodoDatablockSize) len buf).1,
          some (zoneRead G r v pos.zoneId (pos.blockIndex * hodoDatablockSize) len buf).2) := by
  simp only [readAt, ZoneFiles.readAt, listFiles]
  split <;> rfl

/-- A read leaves the lists as they are. -/
theorem readAt_snd {pos : BlockPos} {outBuf : Option Block} {len : Nat} :
    ((listFiles G r).readAt v pos outBuf len).2 = v := by
  cases outBuf with
  | none => rfl
  | some buf =>
    simp only [ZoneFiles.readAt, listFiles]
    split <;> rfl

theorem hodoReadStruct_eq {n : Nat} {outBuf : Option Block} {len : Nat} :
    hodoReadStruct G r v n outBuf len =
      if InTable v.info n then some (readAt G r v (tableEntry v.info n) outBuf len) else none := by
  simp only [hodoReadStruct, ZoneFiles.hodoReadStruct, readAt]
  exact apply_ite (Option.map Prod.fst) _ _ _

theorem hodoWriteStruct_some {b : Block} {len n : Nat} :
    hodoWriteStruct G r v (some b) len n =
      if len = 0 ∨ hodoDatablockSize < len then ⟨eInval, n, some b, v⟩
      else
        let wp := v.info.wp
        let (n, m) := recordWrite v.info n
        let v := { v with info := m }
        let b := stamp b n
        match filpOpen G r wp.zoneId with
        | some e => ⟨e, n, some b, v⟩
        | none =>
          let (ret, v) := zoneWrite G r v wp.zoneId (wp.blockIndex * hodoDatablockSize) len n b
          ⟨ret, n, some b, setWp v (nextWp G wp len)⟩ := by
  simp only [hodoWriteStruct, ZoneFiles.hodoWriteStruct, listFiles]
  split
  · rfl
  · cases filpOpen G r v.info.wp.zoneId <;> rfl

theorem hodoGCWriteStruct_some {b : Block} {len n : Nat} :
    hodoGCWriteStruct G r v (some b) len n =
      if len = 0 ∨ hodoDatablockSize < len then ⟨eInval, n, some b, v⟩
      else
        let swapWp := v.info.swapWp
        let v := { v with info := recordMove v.info n }
        match filpOpen G r swapWp.zoneId with
        | some e => ⟨e, n, some b, v⟩
        | none =>
          let (ret, v) :=
            zoneWrite G r v swapWp.zoneId (swapWp.blockIndex * hodoDatablockSize) len n b
          ⟨ret, n, some b, setSwapWp v (nextSwapWp G swapWp len)⟩ := by
  simp only [hodoGCWriteStruct, ZoneFiles.hodoGCWriteStruct, listFiles]
  split
  · rfl
  · cases filpOpen G r v.info.swapWp.zoneId <;> rfl

end

theorem hodoInit_eq {G : Geometry} {onDisk : MappingInfo} {dev : Nat → List Block}
    {stack : Block} {uid gid : Nat} :
    hodoInit G onDisk dev stack uid gid =
      let v : Volume := ⟨onDisk, dev, []⟩
      if onDisk.wp.zoneId = 0 ∧ onDisk.wp.blockIndex = 0 then
        let v := setSwapWp (setWp v ⟨1, 0⟩) ⟨G.hodoNrZones - 2, 0⟩
        let (n, m) := hodoGetNextLogicalNumber v.info
        (hodoWriteStruct G ioOk { v with info := m } (some (rootInode stack n uid gid))
          hodoDatablockSize n).volume
      else v := rfl

end ZoneLog
