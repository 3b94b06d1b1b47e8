import HodoZns.Collector

/-!
# Devices of other geometries

How many zones there are and how many blocks each of them takes comes from the
device; the tables are made for 16 zones of 65536 blocks. What a transfer, a reset
and the step of a write pointer do on any device that fits the tables.
-/

namespace Geometries

open Layout BlockLog ZoneLog Collector

/-- How many blocks a zone takes. -/
def zoneBlocks (G : Geometry) : Nat := G.hodoZoneSize / hodoDatablockSize

/-- The zone behind the data zones. -/
def swapZone (G : Geometry) : Nat := G.hodoNrZones - 2

/-- A device that fits the tables, with at least one data zone. -/
structure FitsTables (G : Geometry) : Prop where
  zones_ge : 4 ≤ G.hodoNrZones
  zones_le : G.hodoNrZones ≤ numberZones
  size_pos : 0 < G.hodoZoneSize
  size_dvd : hodoDatablockSize ∣ G.hodoZoneSize
  size_le : G.hodoZoneSize ≤ zoneSize

instance (G : Geometry) : Decidable (FitsTables G) :=
  decidable_of_iff (4 ≤ G.hodoNrZones ∧ G.hodoNrZones ≤ numberZones ∧ 0 < G.hodoZoneSize ∧
    hodoDatablockSize ∣ G.hodoZoneSize ∧ G.hodoZoneSize ≤ zoneSize)
    ⟨fun ⟨h₁, h₂, h₃, h₄, h₅⟩ => ⟨h₁, h₂, h₃, h₄, h₅⟩,
      fun ⟨h₁, h₂, h₃, h₄, h₅⟩ => ⟨h₁, h₂, h₃, h₄, h₅⟩⟩

section

variable {G : Geometry} {v : Volume} {p : BlockPos} {b temp : Block}

theorem FitsTables.size (fits : FitsTables G) : G.hodoZoneSize = zoneBlocks G * 4096 := by
  have h := fits.size_dvd
  rw [hodoDatablockSize_eq] at h
  rw [zoneBlocks, hodoDatablockSize_eq, Nat.div_mul_cancel h]

theorem FitsTables.blocks_pos (fits : FitsTables G) : 0 < zoneBlocks G := by
  have h := fits.size
  have hpos := fits.size_pos
  omega

theorem FitsTables.blocks_le (fits : FitsTables G) : zoneBlocks G ≤ 65536 := by
  have h := fits.size
  have hle := fits.size_le
  rw [zoneSize_eq] at hle
  omega

/-- The swap zone is the last one with a zone file, and is in the tables. -/
theorem FitsTables.swap (fits : FitsTables G) :
    2 ≤ swapZone G ∧ swapZone G ≤ 14 ∧ swapZone G + 1 < G.hodoNrZones := by
  have hge := fits.zones_ge
  have hle := fits.zones_le
  rw [numberZones_eq] at hle
  rw [swapZone]
  omega

theorem standard_fits : FitsTables standardGeometry := by decide +kernel

@[simp] theorem zoneBlocks_standard : zoneBlocks standardGeometry = blocksPerZone := by
  rw [zoneBlocks, standardGeometry_zoneSize, hodoDatablockSize_eq, blocksPerZone_eq]

@[simp] theorem swapZone_standard : swapZone standardGeometry = 14 := by
  rw [swapZone, standardGeometry_nrZones]

theorem filpOpen_of_le (fits : FitsTables G) {zone : Nat} (hz : zone ≤ swapZone G) :
    filpOpen G ioOk zone = none := by
  have hswap := fits.swap
  simp only [filpOpen, ioOk]
  rw [if_pos (by omega)]

theorem readAt_of_lt (fits : FitsTables G) (hz : p.zoneId ≤ swapZone G)
    (hi : p.blockIndex < zoneBlocks G) (buf : Block) :
    readAt G ioOk v p (some buf) hodoDatablockSize =
      match (v.dev p.zoneId)[p.blockIndex]? with
      | some b => (4096, some b)
      | none => (0, some buf) := by
  have hcap : ¬ zoneBlocks G * 4096 ≤ p.blockIndex * 4096 := by omega
  have hdiv : p.blockIndex * 4096 / 4096 = p.blockIndex := Nat.mul_div_cancel _ (by omega)
  have hmod : p.blockIndex * 4096 % 4096 = 0 := Nat.mul_mod_left _ _
  have hlen : ¬ (4096 = 0 ∨ 4096 < 4096) := by decide
  have hiter : ioOk.iterError = none := rfl
  simp only [readAt_some, zoneRead, hodoDatablockSize_eq, if_neg hlen,
    filpOpen_of_le fits hz, hiter,
    zonefsFileReadIter, fits.size, if_neg hcap, hdiv, hmod]
  cases (v.dev p.zoneId)[p.blockIndex]? with
  | none => rfl
  | some b => rfl

theorem gcRead_block (fits : FitsTables G) (hz : p.zoneId ≤ swapZone G)
    (hi : p.blockIndex < zoneBlocks G) (hb : (v.dev p.zoneId)[p.blockIndex]? = some b) :
    gcRead G v p temp = b := by
  have read : hodoGCReadStruct G ioOk v p (some temp) hodoDatablockSize =
      readAt G ioOk v p (some temp) hodoDatablockSize := rfl
  rw [gcRead, read, readAt_of_lt fits hz hi, hb]
  rfl

/-- Past the end of a zone the buffer keeps what it held. -/
theorem gcRead_past (fits : FitsTables G) (hz : p.zoneId ≤ swapZone G)
    (hi : p.blockIndex < zoneBlocks G) (hb : (v.dev p.zoneId)[p.blockIndex]? = none) :
    gcRead G v p temp = temp := by
  have read : hodoGCReadStruct G ioOk v p (some temp) hodoDatablockSize =
      readAt G ioOk v p (some temp) hodoDatablockSize := rfl
  rw [gcRead, read, readAt_of_lt fits hz hi, hb]
  rfl

/-- A zone takes a block only at its end. -/
def grown (zone : List Block) (i : Nat) (b : Block) : List Block :=
  if zone.length = i then zone ++ [b] else zone

theorem zoneWrite_dev (fits : FitsTables G) (v : Volume) (zone : Nat) {i : Nat}
    (n : Nat) (b : Block)
    (hi : i < zoneBlocks G) :
    (zoneWrite G ioOk v zone (i * hodoDatablockSize) hodoDatablockSize n b).2.dev =
      update v.dev zone (grown (v.dev zone) i b) := by
  have hcap : ¬ zoneBlocks G * 4096 ≤ i * 4096 := by omega
  have hmod : i * 4096 % 4096 = 0 := Nat.mul_mod_left i 4096
  have hend : i * 4096 = (v.dev zone).length * 4096 ↔ (v.dev zone).length = i := by omega
  simp only [zoneWrite, zonefsFileWriteIter, ioOk, hodoDatablockSize_eq, fits.size, if_neg hcap,
    hmod, grown]
  by_cases hlen : (v.dev zone).length = i
  · simp [hlen]
  · have hne : i ≠ (v.dev zone).length := fun he => hlen he.symm
    simp [hlen, hne]

/-- No counter overflows on the way through the zones. -/
theorem nextWp_of_fits (fits : FitsTables G) {wp : BlockPos} (hz : wp.zoneId ≤ swapZone G)
    (hi : wp.blockIndex < zoneBlocks G) :
    nextWp G wp hodoDatablockSize =
      if wp.blockIndex + 1 = zoneBlocks G then ⟨wp.zoneId + 1, 0⟩
      else ⟨wp.zoneId, wp.blockIndex + 1⟩ := by
  have h : wp.blockIndex * 4096 + 4096 = zoneBlocks G * 4096 ↔
    wp.blockIndex + 1 = zoneBlocks G := by
    omega
  have hswap := fits.swap
  have hle := fits.blocks_le
  simp only [nextWp, fits.size, hodoDatablockSize_eq, h]
  split
  · rw [u16_of_lt (by omega)]
  · rw [u16_of_lt (by omega)]

/-- The pointer stays on the last block of the swap zone. -/
theorem nextSwapWp_of_fits (fits : FitsTables G) {swapWp : BlockPos}
    (hi : swapWp.blockIndex < zoneBlocks G) :
    nextSwapWp G swapWp hodoDatablockSize =
      if swapWp.blockIndex + 1 = zoneBlocks G then swapWp
      else ⟨swapWp.zoneId, swapWp.blockIndex + 1⟩ := by
  have h : swapWp.blockIndex * 4096 + 4096 = zoneBlocks G * 4096 ↔
      swapWp.blockIndex + 1 = zoneBlocks G := by
    omega
  have hle := fits.blocks_le
  simp only [nextSwapWp, fits.size, hodoDatablockSize_eq, h]
  split
  · rfl
  · rw [u16_of_lt (by omega)]

theorem nextSwapWp_index_le (G : Geometry) (swapWp : BlockPos) (len : Nat) :
    (nextSwapWp G swapWp len).blockIndex ≤ swapWp.blockIndex + 1 := by
  rw [nextSwapWp]
  split
  · exact Nat.le_succ _
  · exact Nat.mod_le _ _

theorem truncateZone_dev (G : Geometry) (v : Volume) {z zone : Nat} (hz : z ≠ zone) :
    (truncateZone G v zone).dev z = v.dev z := by
  rw [truncateZone]
  split
  · exact update_other _ _ hz
  · rfl

theorem truncateZone_empty (fits : FitsTables G) (v : Volume) {zone : Nat}
    (hz : zone ≤ swapZone G) :
    (truncateZone G v zone).dev zone = [] := by
  have hswap := fits.swap
  rw [truncateZone, if_pos (by omega)]
  exact update_same _ _ _

end

end Geometries
