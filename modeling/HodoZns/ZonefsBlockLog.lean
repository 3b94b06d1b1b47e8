import HodoZns.LogSimulation
import HodoZns.ZonefsBlockFiles

/-!
# The block log on zonefs

The zone files of a mounted zonefs, as the block log uses them. On a device without
errors they answer as lists of blocks do, so the log comes to the same over both, and it
makes no difference when the kernel drops the inode of a zone file from its cache.
-/

namespace ZonefsBlockLog

open ByteBlock Layout BlockLog ZoneLog CallRuns Families ZonefsZones ZonefsFiles ZonefsRuns
  ZonefsSteps ZonefsMounts ZonefsCounts ZonedDevices ZonefsContents ZonefsErrorFree ZonefsDurability
  ZonefsBlockFiles LogSimulation

section

variable {ι δ α : Type} [DecidableEq ι]

/-- The path of the zone file is looked up, and its inode is worked on. There is no file if
`file` knows none. -/
def onFile (file : Nat → Option ι) (op : FileState δ → α × FileState δ) (s : Fs ι δ) (zone : Nat) :
    Option (α × Fs ι δ) :=
  match file zone with
  | none => none
  | some i =>
    (at? (lookupInode s i) i).map fun f =>
      let (a, f) := op f
      (a, (lookupInode s i).set i (parts f))

/-- What a lookup finds, or puts into the cache. -/
def cachedInode (m : ZoneFile) : ZonefsZone × ZonefsInode :=
  match m.inode with
  | some inode => (m.z, inode)
  | none => zonefsGetFileInode m.z

def cached (s : Fs ι δ) (i : ι) : FileState δ :=
  ⟨s.shared.sbi, (cachedInode (s.member i)).1, (cachedInode (s.member i)).2, s.shared.dev⟩

theorem lookupInode_cached (s : Fs ι δ) (i : ι) :
    lookupInode s i = s.set i (parts (cached s i)) := by
  rw [lookupInode, cached, cachedInode]
  cases hinode : (s.member i).inode with
  | some inode =>
    have hat : at? s i = some ⟨s.shared.sbi, (s.member i).z, inode, s.shared.dev⟩ := by
      rw [at?, hinode]
      rfl
    exact (set_parts hat).symm
  | none => rfl

theorem onFile_none {file : Nat → Option ι} {zone : Nat} (h : file zone = none)
    (op : FileState δ → α × FileState δ) (s : Fs ι δ) : onFile file op s zone = none := by
  rw [onFile, h]

theorem onFile_some {file : Nat → Option ι} {zone : Nat} {i : ι} (h : file zone = some i)
    (op : FileState δ → α × FileState δ) (s : Fs ι δ) :
    onFile file op s zone = some ((op (cached s i)).1, s.set i (parts (op (cached s i)).2)) := by
  rw [onFile, h]
  simp only [lookupInode_cached, at?_set, Family.set_set, Option.map_some]

theorem cached_set_same (s : Fs ι δ) (i : ι) (f : FileState δ) :
    cached (s.set i (parts f)) i = f := by
  rw [cached, Family.set_member_same]
  rfl

theorem cached_set_other (s : Fs ι δ) {i j : ι} (hne : j ≠ i) (y : Shared δ × ZoneFile) :
    cached (s.set i y) j = { cached s j with sbi := y.1.sbi, dev := y.1.dev } := by
  rw [cached, Family.set_member_other s _ hne]
  rfl

/-- The files hold the blocks of their zones, each in a zone of its own. -/
structure FilesHold (G : Geometry) (E : List Extent) (written : δ → Nat → List UInt8)
    (file : Nat → Option ι) (s : Fs ι δ) (blocks : Nat → List Block) : Prop where
  blocks : ∀ k i, file k = some i → OfBlocks G E written (blocks k) (cached s i)
  apart : ∀ k k' i j, file k = some i → file k' = some j → k ≠ k' →
    (s.member i).z.zSector ≠ (s.member j).z.zSector

variable {D : BlockDevice δ} {G : Geometry} {E : List Extent} {written : δ → Nat → List UInt8}
  {file : Nat → Option ι} {s : Fs ι δ} {blocks : Nat → List Block}

omit [DecidableEq ι] in
theorem FilesHold.injective (h : FilesHold G E written file s blocks) {k k' : Nat} {i : ι}
    (hk : file k = some i) (hk' : file k' = some i) : k = k' := by
  by_contra hne
  exact h.apart k k' i i hk hk' hne rfl

omit [DecidableEq ι] in
theorem cached_sector (s : Fs ι δ) (i : ι) : (cached s i).z.zSector = (s.member i).z.zSector := by
  rw [cached, cachedInode]
  cases (s.member i).inode with
  | some inode => rfl
  | none =>
    have same := congrArg ZonefsZone.zSector (lookedUp (s.member i).z).flags
    exact same

theorem FilesHold.set (h : FilesHold G E written file s blocks) {k : Nat} {i : ι}
    (hfile : file k = some i) {bs : List Block} {f : FileState δ}
    (rewritten : Rewritten G E written bs (cached s i) f) :
    FilesHold G E written file (s.set i (parts f)) (update blocks k bs) := by
  constructor
  · intro k' j hj
    by_cases hk : k' = k
    · subst hk
      obtain rfl := Option.some.inj (hj.symm.trans hfile)
      rw [cached_set_same, update_same]
      exact rewritten.blocks
    · have hne : j ≠ i := fun heq => hk (h.injective hj (heq ▸ hfile))
      have there := h.blocks k' j hj
      have apart : (cached s j).z.zSector ≠ (cached s i).z.zSector := by
        rw [cached_sector, cached_sector]
        exact h.apart k' k j i hj hfile hk
      rw [cached_set_other s hne, update_other _ _ hk]
      exact there.elsewhere rewritten.blocks (rewritten.elsewhere _ there.holds.seq.mem apart)
  · have same : ∀ j, ((s.set i (parts f)).member j).z.zSector = (s.member j).z.zSector := by
      intro j
      by_cases hne : j = i
      · subst hne
        rw [Family.set_member_same, ← cached_sector]
        exact rewritten.sector
      · rw [Family.set_member_other s _ hne]
    intro k₁ k₂ j₁ j₂ hj₁ hj₂ hk
    rw [same, same]
    exact h.apart k₁ k₂ j₁ j₂ hj₁ hj₂ hk

section

variable {k : Nat} {i : ι} {len : Nat}

theorem FilesHold.write (h : FilesHold G E written file s blocks) (sound : ErrorFree D E written)
    (whole : G.hodoZoneSize % hodoDatablockSize = 0) (hfile : file k = some i) (offset : Nat)
    (hpos : 0 < len) (hle : len ≤ hodoDatablockSize) (b : Block) :
    ∃ fs, onFile file (writeFile D offset ((bytesOf b).take len)) s k =
        some (.ok (ZoneLog.zonefsFileWriteIter G (blocks k) offset len b).1, fs) ∧
      FilesHold G E written file fs
        (update blocks k (ZoneLog.zonefsFileWriteIter G (blocks k) offset len b).2) := by
  obtain ⟨hret, rewritten⟩ := write_refines sound whole (h.blocks k i hfile) offset hpos hle b
  rw [onFile_some hfile, hret]
  exact ⟨_, rfl, h.set hfile rewritten⟩

theorem FilesHold.read (h : FilesHold G E written file s blocks) (sound : ErrorFree D E written)
    (hfile : file k = some i) (offset : Nat) (hpos : 0 < len) (hle : len ≤ hodoDatablockSize)
    (buf : Block) :
    ∃ ret data fs, onFile file (readFile D offset len) s k = some ((ret, data), fs) ∧
      (ret, fillBuffer buf data) = ZoneLog.zonefsFileReadIter G (blocks k) offset len buf ∧
      FilesHold G E written file fs blocks := by
  obtain ⟨hret, rewritten⟩ := read_refines sound (h.blocks k i hfile) offset hpos hle buf
  have next := h.set hfile rewritten
  rw [update_self] at next
  rw [onFile_some hfile]
  exact ⟨_, _, _, rfl, hret, next⟩

theorem FilesHold.reset (h : FilesHold G E written file s blocks) (sound : ErrorFree D E written)
    (hfile : file k = some i) :
    ∃ fs, onFile file (fun f => ((), resetFile D f)) s k = some ((), fs) ∧
      FilesHold G E written file fs (update blocks k []) := by
  have rewritten := reset_refines sound (h.blocks k i hfile)
  rw [onFile_some hfile]
  exact ⟨_, rfl, h.set hfile rewritten⟩

end

/-- An inode that comes back into the cache is as good as the one that was dropped. -/
theorem FilesHold.evict (h : FilesHold G E written file s blocks) {i : ι} {s' : Fs ι δ}
    (hevict : evictInode s i = some s') : FilesHold G E written file s' blocks := by
  obtain ⟨inode, hinode, _, rfl⟩ := evictInode_eq_some hevict
  constructor
  · intro k j hj
    have there := h.blocks k j hj
    by_cases hne : j = i
    · subst hne
      have before : cached s j = ⟨s.shared.sbi, (s.member j).z, inode, s.shared.dev⟩ := by
        rw [cached, cachedInode, hinode]
      rw [before] at there
      have after : cached (s.set j (s.shared, { s.member j with inode := none })) j =
          ⟨s.shared.sbi, (zonefsGetFileInode (s.member j).z).1,
            (zonefsGetFileInode (s.member j).z).2,
            s.shared.dev⟩ := by
        rw [cached, Family.set_member_same]
        rfl
      rw [after]
      exact ofBlocks_reloaded there
    · rw [cached_set_other s hne]
      exact there
  · have same : ∀ j, ((s.set i (s.shared, { s.member i with inode := none })).member j).z =
        (s.member j).z := by
      intro j
      by_cases hne : j = i
      · subst hne
        rw [Family.set_member_same]
      · rw [Family.set_member_other s _ hne]
    intro k₁ k₂ j₁ j₂ hj₁ hj₂ hk
    rw [same, same]
    exact h.apart k₁ k₂ j₁ j₂ hj₁ hj₂ hk

end

/-- The mapping information, and the mounted zonefs. -/
structure ZonefsVolume (ι δ : Type) where
  info : MappingInfo
  fs : Fs ι δ

section

variable {ι δ : Type} [DecidableEq ι]

/-- The zone files of a mounted zonefs. -/
def zonefsFiles (D : BlockDevice δ) (file : Nat → Option ι) : ZoneFiles (ZonefsVolume ι δ) where
  info v := v.info
  setInfo v m := { v with info := m }
  write zone offset len _ b v :=
    match onFile file (writeFile D offset ((bytesOf b).take len)) v.fs zone with
    | none => (.error eNoEnt, v)
    | some (answer, fs) => (answer, { v with fs := fs })
  read zone offset len buf v :=
    match onFile file (readFile D offset len) v.fs zone with
    | none => ((eNoEnt, buf), v)
    | some ((ret, data), fs) => ((ret, fillBuffer buf data), { v with fs := fs })
  truncate zone v :=
    match onFile file (fun f => ((), resetFile D f)) v.fs zone with
    | none => v
    | some (_, fs) => { v with fs := fs }

/-- There is a file for each zone but the first, and the device fails no command. -/
structure Serves (D : BlockDevice δ) (G : Geometry) (E : List Extent)
    (written : δ → Nat → List UInt8) (file : Nat → Option ι) : Prop where
  sound : ErrorFree D E written
  whole : G.hodoZoneSize % hodoDatablockSize = 0
  named : ∀ k, (file k).isSome ↔ k + 1 < G.hodoNrZones

/-- The zone files are the lists of blocks of the volume. -/
structure Represents (G : Geometry) (E : List Extent) (written : δ → Nat → List UInt8)
    (file : Nat → Option ι) (v : ZonefsVolume ι δ) (w : Volume) : Prop where
  info : v.info = w.info
  files : FilesHold G E written file v.fs w.dev

variable {D : BlockDevice δ} {G : Geometry} {E : List Extent} {written : δ → Nat → List UInt8}
  {file : Nat → Option ι}

omit [DecidableEq ι] in
/-- A zone has a file exactly if it can be opened. -/
theorem Serves.opens (serves : Serves D G E written file) (zone : Nat) :
    file zone = none ∧ filpOpen G ioOk zone = some eNoEnt ∨
      ∃ i, file zone = some i ∧ filpOpen G ioOk zone = none := by
  have named := serves.named zone
  by_cases hzone : zone + 1 < G.hodoNrZones
  · obtain ⟨i, hi⟩ := Option.isSome_iff_exists.mp (named.mpr hzone)
    exact .inr ⟨i, hi, if_pos hzone⟩
  · have hnone : file zone = none := Option.not_isSome_iff_eq_none.mp fun h => hzone (named.mp h)
    exact .inl ⟨hnone, if_neg hzone⟩

theorem iterError_ok : ioOk.iterError = none := rfl

/-- The files of zonefs answer as the lists do. -/
theorem files_simulate (serves : Serves D G E written file) :
    Simulates (zonefsFiles D file) (listFiles G ioOk) (Represents G E written file) where
  info := Represents.info
  setInfo h m := ⟨rfl, h.files⟩
  write := by
    intro v w h zone offset len n b hpos hle
    simp only [zonefsFiles, listFiles]
    rcases serves.opens zone with ⟨hfile, hopen⟩ | ⟨i, hfile, hopen⟩
    · simp only [onFile_none hfile, hopen]
      exact ⟨trivial, h⟩
    · obtain ⟨fs, hwrite, files⟩ := h.files.write serves.sound serves.whole hfile offset hpos hle b
      simp only [hwrite, hopen, zoneWrite, iterError_ok]
      exact ⟨trivial, h.info, files⟩
  read := by
    intro v w h zone offset len buf hpos hle
    simp only [zonefsFiles, listFiles, zoneRead]
    rcases serves.opens zone with ⟨hfile, hopen⟩ | ⟨i, hfile, hopen⟩
    · simp only [onFile_none hfile, hopen]
      exact ⟨trivial, h⟩
    · obtain ⟨ret, data, fs, hread, hret, files⟩ := h.files.read serves.sound hfile offset hpos hle
        buf
      simp only [hread, hopen, iterError_ok, ← hret]
      exact ⟨trivial, h.info, files⟩
  truncate := by
    intro v w h zone
    simp only [zonefsFiles, listFiles, truncateZone]
    rcases serves.opens zone with ⟨hfile, hopen⟩ | ⟨i, hfile, hopen⟩
    · have hzone : ¬ zone + 1 < G.hodoNrZones := fun hlt => by
        rw [filpOpen, ioOk, if_pos hlt] at hopen
        cases hopen
      simp only [onFile_none hfile, if_neg hzone]
      exact h
    · have hzone : zone + 1 < G.hodoNrZones := (serves.named zone).mp (by rw [hfile]; rfl)
      obtain ⟨fs, hreset, files⟩ := h.files.reset serves.sound hfile
      simp only [hreset, if_pos hzone]
      exact ⟨h.info, files⟩

end

end ZonefsBlockLog
