import HodoZns.ZonefsErrorFree
import HodoZns.ZonefsDurability
import HodoZns.ZoneLog

/-!
# Zone files of blocks

`trans.c` opens a zone file for each block that it reads or writes, and truncates it to
reset the zone. On a device without errors this comes to what the block log takes a zone
file for: a list of blocks that grows at the end.
-/

namespace ZonefsBlockFiles

open ByteBlock Layout BlockLog ZoneLog CallRuns Families ZonefsZones ZonefsFiles ZonefsRuns
  ZonefsSteps ZonefsMounts ZonefsCounts ZonedDevices ZonefsContents ZonefsErrorFree ZonefsDurability

def bytesOf (b : Block) : List UInt8 := List.ofFn b

def blockBytes (blocks : List Block) : List UInt8 := blocks.flatMap bytesOf

theorem bytesOf_length (b : Block) : (bytesOf b).length = hodoDatablockSize := by
  rw [bytesOf, List.length_ofFn, hodoDatablockSize_eq]

theorem blockBytes_cons (b : Block) (blocks : List Block) :
    blockBytes (b :: blocks) = bytesOf b ++ blockBytes blocks := rfl

theorem blockBytes_concat (blocks : List Block) (b : Block) :
    blockBytes (blocks ++ [b]) = blockBytes blocks ++ bytesOf b := by
  simp [blockBytes]

theorem blockBytes_length (blocks : List Block) :
    (blockBytes blocks).length = blocks.length * hodoDatablockSize := by
  induction blocks with
  | nil => rfl
  | cons b blocks ih =>
    rw [blockBytes_cons, List.length_append, ih, bytesOf_length, List.length_cons, Nat.succ_mul,
      Nat.add_comm]

/-- The bytes of one block. -/
theorem blockBytes_block {blocks : List Block} {k : Nat} {b : Block} (h : blocks[k]? = some b) :
    ((blockBytes blocks).drop (k * hodoDatablockSize)).take hodoDatablockSize = bytesOf b := by
  induction blocks generalizing k with
  | nil => cases h
  | cons b' blocks ih =>
    cases k with
    | zero =>
      obtain rfl := Option.some.inj h
      rw [blockBytes_cons, Nat.zero_mul, List.drop_zero, ← bytesOf_length b', List.take_left]
    | succ k =>
      have hdrop : (k + 1) * hodoDatablockSize = (bytesOf b').length + k * hodoDatablockSize := by
        rw [bytesOf_length, Nat.succ_mul, Nat.add_comm]
      rw [blockBytes_cons, hdrop, List.drop_length_add_append]
      exact ih h

/-- What the buffer of the caller is after a read. -/
def fillBuffer (buf : Block) (data : List UInt8) : Block :=
  copyIn buf 0 data.length fun i => data.getD i 0

theorem fillBuffer_nil (buf : Block) : fillBuffer buf [] = buf := by
  refine ext_byteAt fun i hi => ?_
  rw [fillBuffer, byteAt_copyIn_outside buf _ (.inr (Nat.zero_le _))]

theorem fillBuffer_block (buf b : Block) : fillBuffer buf (bytesOf b) = b := by
  refine ext_byteAt fun i hi => ?_
  have hlen : i < (bytesOf b).length := by
    rw [bytesOf_length, hodoDatablockSize_eq]
    exact hi
  have hbyte : (bytesOf b).getD i 0 = b ⟨i, hi⟩ := by
    rw [List.getD_eq_getElem?_getD, List.getElem?_eq_getElem hlen]
    exact List.getElem_ofFn _
  rw [fillBuffer, byteAt_copyIn_inside buf _ hi (Nat.zero_le _) (by omega), byteAt_of_lt b hi,
    Nat.sub_zero, hbyte]

section

variable {δ : Type}

/-- `filp_open`, `write_iter` and `filp_close`; it is an error if the file does not open. -/
def writeFile (D : BlockDevice δ) (pos : Int) (data : List UInt8) (f : FileState δ) :
    Except Int Int × FileState δ :=
  let (err, f) := zonefsFileOpen D true 0 f
  if err ≠ 0 then (.error err, f)
  else
    let (ret, f) := ZonefsFiles.zonefsFileWriteIter D (directIocb pos) data f
    (.ok ret, (zonefsFileRelease D true f).2)

/-- `filp_open`, `read_iter` and `filp_close`. -/
def readFile (D : BlockDevice δ) (pos : Int) (count : Nat) (f : FileState δ) :
    (Int × List UInt8) × FileState δ :=
  let (err, f) := zonefsFileOpen D false 0 f
  if err ≠ 0 then ((err, []), f)
  else
    let (r, f) := ZonefsFiles.zonefsFileReadIter D (directIocb pos) count f
    (r, (zonefsFileRelease D false f).2)

/-- `zonefs_file_truncate` to 0; no caller looks at the return value. -/
def resetFile (D : BlockDevice δ) (f : FileState δ) : FileState δ := (zonefsFileTruncate D 0 f).2

/-- The file is one of blocks. -/
structure OfBlocks (G : Geometry) (E : List Extent) (written : δ → Nat → List UInt8)
    (blocks : List Block) (f : FileState δ) : Prop where
  holds : Holds E written (blockBytes blocks) f
  unused : OpenBy 0 f
  capacity : f.z.zCapacity = G.hodoZoneSize
  blocksize : f.sbi.blocksizeBits = 12

variable {D : BlockDevice δ} {G : Geometry} {E : List Extent} {written : δ → Nat → List UInt8}
  {f : FileState δ}

theorem unaligned_eq {sbi : SbInfo} (h : sbi.blocksizeBits = 12) (a b : Nat) :
    unaligned sbi a b = decide (a % hodoDatablockSize ≠ 0 ∨ b % hodoDatablockSize ≠ 0) := by
  have hsize : SbInfo.blocksize sbi = 4096 := by
    rw [SbInfo.blocksize, h]
    rfl
  rw [unaligned, hsize, hodoDatablockSize_eq]
  by_cases ha : a % 4096 = 0
  · by_cases hb : b % 4096 = 0
    · simp [ha, hb]
      omega
    · simp [ha, hb]
      omega
  · simp [ha]
    omega

theorem OfBlocks.next {blocks blocks' : List Block} {f' : FileState δ}
    (h : OfBlocks G E written blocks f) (kept : Kept f f')
    (holds : Holds E written (blockBytes blocks') f') (unused : OpenBy 0 f') :
    OfBlocks G E written blocks' f' :=
  ⟨holds, unused, kept.zone.capacity.trans h.capacity, kept.super.blocksizeBits.trans h.blocksize⟩

/-- What is done to one file leaves the blocks of the others alone. -/
theorem OfBlocks.elsewhere {blocks blocks' : List Block} {g : FileState δ}
    (h : OfBlocks G E written blocks g)
    (h' : OfBlocks G E written blocks' f)
    (same : written f.dev g.z.zSector = written g.dev g.z.zSector) :
    OfBlocks G E written blocks { g with sbi := f.sbi, dev := f.dev } where
  holds :=
    { h.holds with
      content := same.trans h.holds.content
      writable := h'.holds.writable }
  unused := ⟨h.unused.refcnt, h'.unused.wro⟩
  capacity := h.capacity
  blocksize := h'.blocksize

/-- A new inode for the zone holds the same. -/
theorem ofBlocks_reloaded {blocks : List Block} (h : OfBlocks G E written blocks f) :
    OfBlocks G E written blocks
      { f with z := (zonefsGetFileInode f.z).1, inode := (zonefsGetFileInode f.z).2 } := by
  have good := h.holds.good
  rw [ZonefsZone.isBad, Bool.or_eq_false_iff] at good
  have reloaded : (zonefsGetFileInode f.z).2 =
      ⟨f.z.zWpoffset, f.z.zMode, f.z.zUid, f.z.zGid, false, false, 0⟩ := by
    simp [zonefsGetFileInode, zonefsInodeUpdateMode, good.1, good.2]
  have zone : (zonefsGetFileInode f.z).1 = { f.z with zoneInitMode := false } := by
    simp [zonefsGetFileInode, zonefsInodeUpdateMode, good.1, good.2]
  rw [reloaded, zone]
  constructor
  · exact ⟨⟨h.holds.seq.seq, h.holds.seq.mem⟩, h.holds.good, h.holds.content,
      h.holds.wp, h.holds.wp,
      rfl, rfl, h.holds.writable⟩
  · exact ⟨rfl, h.unused.wro⟩
  · exact h.capacity
  · exact h.blocksize

/-- The file holds these blocks now, and the other zones are left alone. -/
structure Rewritten (G : Geometry) (E : List Extent) (written : δ → Nat → List UInt8)
    (blocks : List Block) (f f' : FileState δ) : Prop where
  blocks : OfBlocks G E written blocks f'
  sector : f'.z.zSector = f.z.zSector
  elsewhere : Elsewhere E written f.z.zSector f.dev f'.dev

/-- A transfer to the open file that ends as it does on the list of blocks. -/
structure Transferred (E : List Extent) (written : δ → Nat → List UInt8) (f : FileState δ)
    (r : Int × FileState δ) (r' : Int × List Block) : Prop where
  ret : r.1 = r'.1
  holds : Holds E written (blockBytes r'.2) r.2
  elsewhere : Elsewhere E written f.z.zSector f.dev r.2.dev
  refcnt : r.2.inode.iWrRefcnt = f.inode.iWrRefcnt
  wro : r.2.sbi.wroSeqFiles = f.sbi.wroSeqFiles

theorem Transferred.refused {blocks : List Block} (h : Holds E written (blockBytes blocks) f)
    (ret : Int) : Transferred E written f (ret, f) (ret, blocks) :=
  ⟨rfl, h, fun _ _ _ => rfl, rfl, rfl⟩

theorem writeIter_refines (sound : ErrorFree D E written)
    (whole : G.hodoZoneSize % hodoDatablockSize = 0) {blocks : List Block}
    (h : Holds E written (blockBytes blocks) f) (capacity : f.z.zCapacity = G.hodoZoneSize)
    (blocksize : f.sbi.blocksizeBits = 12) (offset : Nat) {len : Nat} (hpos : 0 < len)
    (hle : len ≤ hodoDatablockSize) (b : Block) :
    Transferred E written f
      (ZonefsFiles.zonefsFileWriteIter D (directIocb offset) ((bytesOf b).take len) f)
      (ZoneLog.zonefsFileWriteIter G blocks offset len b) := by
  have hlen : ((bytesOf b).take len).length = len := by
    rw [List.length_take, bytesOf_length, min_eq_left hle]
  have hdata : (bytesOf b).take len ≠ [] := List.length_pos_iff.mp (hpos.trans_eq hlen.symm)
  rw [ZoneLog.zonefsFileWriteIter]
  by_cases hbeyond : G.hodoZoneSize ≤ offset
  · have hge : (offset : Int) ≥ f.z.zCapacity := capacity ▸ Int.ofNat_le.mpr hbeyond
    rw [if_pos hbeyond, writeIter_eq h, if_pos hge]
    exact .refused h _
  rw [if_neg hbeyond]
  have hin : (offset : Int) < f.z.zCapacity := capacity ▸ Int.ofNat_lt.mpr (not_le.mp hbeyond)
  -- at the start of a block there is room for all of it
  have fits : offset % hodoDatablockSize = 0 → (offset : Int) + len ≤ f.z.zCapacity := by
    intro haligned
    rw [hodoDatablockSize_eq] at haligned whole hle
    rw [capacity]
    omega
  have fitting : offset % hodoDatablockSize = 0 →
      fitting f.z offset ((bytesOf b).take len) = (bytesOf b).take len := by
    intro haligned
    exact fitting_all (by rw [hlen]; exact fits haligned)
  by_cases hunaligned : offset % hodoDatablockSize ≠ 0 ∨ len % hodoDatablockSize ≠ 0
  · rw [if_pos hunaligned, write_refused h hdata hin (.inl ?_)]
    · exact .refused h _
    · rw [unaligned_eq blocksize, decide_eq_true_eq]
      by_cases haligned : offset % hodoDatablockSize = 0
      · rw [fitting haligned, hlen]
        exact hunaligned
      · exact .inl haligned
  rw [if_neg hunaligned]
  push Not at hunaligned
  obtain ⟨haligned, hblock⟩ := hunaligned
  by_cases hmisplaced : offset ≠ blocks.length * hodoDatablockSize
  · rw [if_pos hmisplaced, write_refused h hdata hin (.inr ?_)]
    · exact .refused h _
    · rw [blockBytes_length]
      exact_mod_cast hmisplaced
  rw [if_neg hmisplaced]
  obtain rfl := not_not.mp hmisplaced
  obtain rfl : len = hodoDatablockSize := by
    rw [hodoDatablockSize_eq] at hle hblock ⊢
    omega
  have hall : (bytesOf b).take hodoDatablockSize = bytesOf b :=
    List.take_of_length_le (bytesOf_length b).le
  rw [hall] at hdata ⊢
  have extended := write_ok sound h hdata
    (by rw [blockBytes_length, bytesOf_length]; exact_mod_cast fits haligned)
    (by
      rw [blockBytes_length, bytesOf_length, unaligned_eq blocksize, decide_eq_false_iff_not]
      push Not
      exact ⟨haligned, hblock⟩)
  rw [blockBytes_length] at extended
  refine ⟨?_, ?_, extended.elsewhere, extended.refcnt, extended.wro⟩
  · rw [extended.ret, bytesOf_length]
  · rw [blockBytes_concat]
    exact extended.holds

/-- A block is written in the same way as to a list of blocks. -/
theorem write_refines (sound : ErrorFree D E written)
    (whole : G.hodoZoneSize % hodoDatablockSize = 0) {blocks : List Block}
    (h : OfBlocks G E written blocks f) (offset : Nat) {len : Nat} (hpos : 0 < len)
    (hle : len ≤ hodoDatablockSize) (b : Block) :
    let r := writeFile D offset ((bytesOf b).take len) f
    let r' := ZoneLog.zonefsFileWriteIter G blocks offset len b
    r.1 = .ok r'.1 ∧ Rewritten G E written r'.2 f r.2 := by
  obtain ⟨hopened, opened, first⟩ := open_ok sound h.holds h.unused
  have keptOpen : Kept f (zonefsFileOpen D true 0 f).2 :=
    kept_sections (call_sections (c := .open true 0) trivial)
  have transferred := writeIter_refines sound whole opened.holds
    (keptOpen.zone.capacity.trans h.capacity) (keptOpen.super.blocksizeBits.trans h.blocksize)
    offset hpos hle b
  have keptWrite : Kept (zonefsFileOpen D true 0 f).2 (ZonefsFiles.zonefsFileWriteIter D
      (directIocb offset) ((bytesOf b).take len) (zonefsFileOpen D true 0 f).2).2 :=
    kept_sections (call_sections (c := .writeIter (directIocb offset) ((bytesOf b).take len))
      (Int.natCast_nonneg offset))
  have used : OpenBy 1 (ZonefsFiles.zonefsFileWriteIter D (directIocb offset)
      ((bytesOf b).take len) (zonefsFileOpen D true 0 f).2).2 :=
    ⟨transferred.refcnt.trans first.refcnt, transferred.wro.trans first.wro⟩
  obtain ⟨closed, unused⟩ := release_ok sound transferred.holds used
  have keptClose : Kept _ (zonefsFileRelease D true (ZonefsFiles.zonefsFileWriteIter D
      (directIocb offset) ((bytesOf b).take len) (zonefsFileOpen D true 0 f).2).2).2 :=
    kept_sections (call_sections (c := .release true) fun _ => used.refcnt.symm ▸ Nat.one_pos)
  rw [writeFile]
  simp only [hopened, ne_eq, not_true_eq_false, if_false]
  have kept := (keptOpen.trans keptWrite).trans keptClose
  refine ⟨congrArg Except.ok transferred.ret, ?_, kept.zone.sector, ?_⟩
  · exact h.next kept closed.holds unused
  · intro e he hne
    rw [closed.untouched e he, transferred.elsewhere e he (keptOpen.zone.sector ▸ hne)]
    exact opened.untouched e he

/-- Those that only read are not counted. -/
theorem readFile_eq (f : FileState δ) (pos : Int) (count : Nat) :
    readFile D pos count f = ZonefsFiles.zonefsFileReadIter D (directIocb pos) count f := by
  have needless : ∀ z : ZonefsZone, zonefsSeqFileNeedWro false z = false := by
    intro z
    rw [zonefsSeqFileNeedWro, Bool.and_false]
  simp [readFile, zonefsFileOpen, zonefsFileRelease, needless]

/-- A block is read in the same way as from a list of blocks. -/
theorem read_refines (sound : ErrorFree D E written) {blocks : List Block}
    (h : OfBlocks G E written blocks f) (offset : Nat) {len : Nat} (hpos : 0 < len)
    (hle : len ≤ hodoDatablockSize) (buf : Block) :
    let r := readFile D offset len f
    (r.1.1, fillBuffer buf r.1.2) = ZoneLog.zonefsFileReadIter G blocks offset len buf ∧
      Rewritten G E written blocks f r.2 := by
  have same : Rewritten G E written blocks f f := ⟨h, rfl, fun _ _ _ => rfl⟩
  have nothing : ∀ ret : Int, (ret, fillBuffer buf []) = (ret, buf) := fun ret =>
    congrArg (Prod.mk ret) (fillBuffer_nil buf)
  have hsize : 0 < hodoDatablockSize := by
    rw [hodoDatablockSize_eq]
    exact Nat.succ_pos _
  rw [readFile_eq, ZoneLog.zonefsFileReadIter]
  by_cases hbeyond : G.hodoZoneSize ≤ offset
  · have hge : (offset : Int) ≥ f.z.zCapacity := h.capacity ▸ Int.ofNat_le.mpr hbeyond
    rw [if_pos hbeyond, readIter_eq h.holds, if_pos hge]
    exact ⟨nothing 0, same⟩
  rw [if_neg hbeyond]
  have hin : (offset : Int) < f.z.zCapacity := h.capacity ▸ Int.ofNat_lt.mpr (not_le.mp hbeyond)
  cases hblock : blocks[offset / hodoDatablockSize]? with
  | none =>
    have hend : blocks.length * hodoDatablockSize ≤ offset :=
      (Nat.le_div_iff_mul_le hsize).mp (List.getElem?_eq_none_iff.mp hblock)
    have hge : (offset : Int) ≥ (blockBytes blocks).length := by
      rw [blockBytes_length]
      exact Int.ofNat_le.mpr hend
    rw [readIter_eq h.holds, if_neg (not_le.mpr hin), if_pos hge]
    exact ⟨nothing 0, same⟩
  | some b =>
    simp only
    have hlt : offset / hodoDatablockSize < blocks.length := (List.getElem?_eq_some_iff.mp hblock).1
    have hbefore : offset < blocks.length * hodoDatablockSize :=
      (Nat.div_lt_iff_lt_mul hsize).mp hlt
    have hbytes := blockBytes_length blocks
    -- what starts with a block is not cut short
    have uncut : offset % hodoDatablockSize = 0 → offset + len ≤ (blockBytes blocks).length := by
      intro haligned
      rw [hodoDatablockSize_eq] at haligned hle hbytes hbefore
      omega
    by_cases hunaligned : offset % hodoDatablockSize ≠ 0 ∨ len % hodoDatablockSize ≠ 0
    · have hcount : min (len : Int) ((blockBytes blocks).length - offset) =
          (min len ((blockBytes blocks).length - offset) : Nat) := by
        omega
      have refused : unaligned f.sbi offset (min len ((blockBytes blocks).length - offset) : Nat) =
          true := by
        rw [unaligned_eq h.blocksize, decide_eq_true_eq]
        by_cases haligned : offset % hodoDatablockSize = 0
        · rw [min_eq_left (Nat.le_sub_of_add_le' (uncut haligned))]
          exact hunaligned
        · exact .inl haligned
      rw [if_pos hunaligned, readIter_eq h.holds, if_neg (not_le.mpr hin),
        if_neg (by omega), hcount,
        if_pos refused]
      exact ⟨nothing _, same⟩
    · rw [if_neg hunaligned]
      push Not at hunaligned
      obtain ⟨haligned, hlen⟩ := hunaligned
      obtain rfl : len = hodoDatablockSize := by
        rw [hodoDatablockSize_eq] at hle hlen ⊢
        omega
      have hstart : offset / hodoDatablockSize * hodoDatablockSize = offset :=
        Nat.div_mul_cancel (Nat.dvd_of_mod_eq_zero haligned)
      have aligned : unaligned f.sbi offset hodoDatablockSize = false := by
        rw [unaligned_eq h.blocksize, decide_eq_false_iff_not]
        push Not
        exact ⟨haligned, hlen⟩
      obtain ⟨dev, untouched, hread⟩ := read_ok sound h.holds (Int.natCast_nonneg offset) hpos
        (Int.ofNat_le.mpr (uncut haligned)) hin aligned
      have hdata : ((blockBytes blocks).drop offset).take hodoDatablockSize = bytesOf b := by
        rw [← hstart]
        exact blockBytes_block hblock
      rw [hread, Int.toNat_natCast, hdata]
      have calm := calm_device f dev
      refine ⟨?_, ?_, rfl, fun e he _ => untouched e he⟩
      · simp only [fillBuffer_block]
      · exact h.next calm.kept (h.holds.same calm untouched rfl rfl) ⟨h.unused.refcnt, h.unused.wro⟩

theorem reset_refines (sound : ErrorFree D E written) {blocks : List Block}
    (h : OfBlocks G E written blocks f) :
    Rewritten G E written [] f (resetFile D f) := by
  have quiet : Quiet f (resetFile D f) := quiet_truncate 0 f
  obtain ⟨_, holds⟩ := truncate_ok sound h.holds
  constructor
  · refine h.next quiet.toKept holds ⟨?_, ?_⟩
    · exact quiet.refcnt.trans h.unused.refcnt
    · exact quiet.wro.trans h.unused.wro
  · exact quiet.zone.sector
  · exact (steady_truncate sound.toZonedDevice h.holds.seq 0).elsewhere

end

end ZonefsBlockFiles
