import HodoZns.ZoneLog

/-!
# The garbage collector

`GC` on the lists of blocks of the zones. Every open, transfer and path lookup succeeds
here; the append-only rule of the zone files still applies.
-/

namespace Collector

open BitmapWords Layout BlockLog ZoneLog FuelLoop

def gcRead (G : Geometry) (v : Volume) (pos : BlockPos) (temp : Block) : Block :=
  (hodoGCReadStruct G ioOk v pos (some temp) hodoDatablockSize).2.getD temp

def swapOutOne (G : Geometry) (ptr : BlockPos) (temp : Block) (v : Volume) : Block × Volume :=
  (listFiles G ioOk).swapOutOne G ptr temp v

def swapOutFull (G : Geometry) (temp : Block) (v : Volume) : Option (Block × Volume) :=
  (listFiles G ioOk).swapOutFull G temp v

def swapOutRest (G : Geometry) (temp : Block) (v : Volume) : Option (Block × Volume) :=
  (listFiles G ioOk).swapOutRest G temp v

def drainFull (G : Geometry) (temp : Block) (v : Volume) : Option (Block × Volume) :=
  (listFiles G ioOk).drainFull G temp v

def drainRest (G : Geometry) (temp : Block) (v : Volume) : Option (Block × Volume) :=
  (listFiles G ioOk).drainRest G temp v

def swapInOne (G : Geometry) (pos : BlockPos) (temp : Block) (v : Volume) : Block × Volume :=
  (listFiles G ioOk).swapInOne G pos temp v

def drainIfFull (G : Geometry) : Block × Volume → (Block × Volume) ⊕ Option (Block × Volume) :=
  (listFiles G ioOk).drainIfFull G

def collectTurn (G : Geometry) : Block × Volume → (Block × Volume) ⊕ Option (Block × Volume) :=
  (listFiles G ioOk).collectTurn G

def collect (G : Geometry) (temp : Block) (v : Volume) : Option (Block × Volume) :=
  (listFiles G ioOk).collect G temp v

def resetZones (G : Geometry) (turns i : Nat) (v : Volume) : Volume :=
  (listFiles G ioOk).resetZones turns i v

def startGC (G : Geometry) (v : Volume) : Volume :=
  setSwapWp (setWp v ⟨1, 0⟩) ⟨G.hodoNrZones - 2, 0⟩

def resetBehind (G : Geometry) (prevWp : BlockPos) (v : Volume) : Volume :=
  (listFiles G ioOk).resetBehind prevWp v

def GC (G : Geometry) (kmem : Block) (v : Volume) : Option Volume :=
  (listFiles G ioOk).GC G kmem v

section

variable {G : Geometry} {temp : Block} {v : Volume}

theorem files_gcRead {pos : BlockPos} :
    (listFiles G ioOk).gcRead v pos temp = (gcRead G v pos temp, v) := by
  refine Prod.ext rfl ?_
  rw [ZoneFiles.gcRead, ZoneFiles.hodoGCReadStruct]
  exact readAt_snd

theorem swapOutOne_eq {ptr : BlockPos} :
    swapOutOne G ptr temp v =
      let temp := gcRead G v ptr temp
      let r := hodoWriteStruct G ioOk v (some temp) hodoDatablockSize (ownNumber temp)
      (r.buf.getD temp, r.volume) := by
  rw [swapOutOne, ZoneFiles.swapOutOne, files_gcRead]
  rfl

theorem swapInOne_eq {pos : BlockPos} :
    swapInOne G pos temp v =
      let temp := gcRead G v pos temp
      let r := hodoGCWriteStruct G ioOk v (some temp) hodoDatablockSize (ownNumber temp)
      (r.buf.getD temp, r.volume) := by
  rw [swapInOne, ZoneFiles.swapInOne, files_gcRead]
  rfl

theorem drainFull_eq :
    drainFull G temp v =
      (swapOutFull G temp (truncateZone G v v.info.wp.zoneId)).map fun (temp, v) =>
        let v := truncateZone G v v.info.swapWp.zoneId
        (temp, setSwapWp v { v.info.swapWp with blockIndex := 0 }) := rfl

theorem drainRest_eq :
    drainRest G temp v =
      if v.info.swapWp.blockIndex ≠ 0 then
        (swapOutRest G temp (truncateZone G v v.info.wp.zoneId)).map fun (temp, v) =>
          (temp, truncateZone G v v.info.swapWp.zoneId)
      else some (temp, v) := rfl

theorem drainIfFull_eq :
    drainIfFull G (temp, v) =
      if blocksPerZone - 1 ≤ v.info.swapWp.blockIndex then
        match drainFull G temp v with
        | none => .inr none
        | some r => .inl r
      else .inl (temp, v) := by
  rw [drainIfFull, ZoneFiles.drainIfFull, drainFull]
  cases (listFiles G ioOk).drainFull G temp v <;> rfl

theorem collectTurn_eq :
    collectTurn G (temp, v) =
      if (hodoGetNextGCValid v.info).zoneId = 0 then .inr (some (temp, v))
      else drainIfFull G (swapInOne G (hodoGetNextGCValid v.info) temp v) := rfl

theorem collect_eq : collect G temp v = (loop (collectTurn G) loopFuel (temp, v)).join := rfl

theorem resetZones_succ {turns i : Nat} :
    resetZones G (turns + 1) i v = resetZones G turns (i + 1) (truncateZone G v i) := rfl

theorem GC_phases {kmem : Block} :
    GC G kmem v = (collect G kmem (startGC G v)).bind fun (temp, v') =>
      (drainRest G temp v').map fun (_, v'') => resetBehind G v.info.wp v'' := rfl

end

/-- Kept by each store that the collector makes to the volume. -/
structure Undisturbed (G : Geometry) (I : Volume → Prop) : Prop where
  start : ∀ v, I v → I (startGC G v)
  write : ∀ v b n, I v → I (hodoWriteStruct G ioOk v (some b) hodoDatablockSize n).volume
  move : ∀ v b n, I v → I (hodoGCWriteStruct G ioOk v (some b) hodoDatablockSize n).volume
  truncate : ∀ v zone, I v → I (truncateZone G v zone)
  swapWp : ∀ v pos, I v → I (setSwapWp v pos)

section

variable {G : Geometry} {I : Volume → Prop}

theorem Undisturbed.swapOutOne (h : Undisturbed G I) (ptr : BlockPos) (temp : Block)
    {v : Volume} (hI : I v) : I (swapOutOne G ptr temp v).2 := by
  rw [swapOutOne_eq]
  exact h.write _ _ _ hI

theorem Undisturbed.swapOutFull (h : Undisturbed G I) {temp : Block} {v : Volume}
    {s : Block × Volume} (hI : I v) (hs : swapOutFull G temp v = some s) : I s.2 := by
  refine loop_keeps _ (fun s : BlockPos × Block × Volume => I s.2.2) (fun r => I r.2) ?_ ?_
    (s := (⟨G.hodoNrZones - 2, 0⟩, temp, v)) hI hs
  · rintro ⟨ptr, temp, v⟩ s' hI hbody
    simp only at hbody
    split at hbody
    · cases hbody
    · obtain rfl := Sum.inl.inj hbody
      exact h.swapOutOne ptr temp hI
  · rintro ⟨ptr, temp, v⟩ r hI hbody
    simp only at hbody
    split at hbody
    · obtain rfl := Sum.inr.inj hbody
      exact h.swapOutOne ptr temp hI
    · cases hbody

theorem Undisturbed.swapOutRest (h : Undisturbed G I) {temp : Block} {v : Volume}
    {s : Block × Volume} (hI : I v) (hs : swapOutRest G temp v = some s) : I s.2 := by
  refine loop_keeps _ (fun s : BlockPos × Block × Volume => I s.2.2) (fun r => I r.2) ?_ ?_
    (s := (⟨G.hodoNrZones - 2, 0⟩, temp, v)) hI hs
  · rintro ⟨ptr, temp, v⟩ s' hI hbody
    simp only at hbody
    split at hbody
    · obtain rfl := Sum.inl.inj hbody
      exact h.swapOutOne ptr temp hI
    · cases hbody
  · rintro ⟨ptr, temp, v⟩ r hI hbody
    simp only at hbody
    split at hbody
    · cases hbody
    · obtain rfl := Sum.inr.inj hbody
      exact hI

theorem Undisturbed.drainFull (h : Undisturbed G I) {temp : Block} {v : Volume}
    {s : Block × Volume} (hI : I v) (hs : drainFull G temp v = some s) : I s.2 := by
  obtain ⟨s', hs', rfl⟩ := Option.map_eq_some_iff.mp hs
  exact h.swapWp _ _ (h.truncate _ _ (h.swapOutFull (h.truncate _ _ hI) hs'))

theorem Undisturbed.drainRest (h : Undisturbed G I) {temp : Block} {v : Volume}
    {s : Block × Volume} (hI : I v) (hs : drainRest G temp v = some s) : I s.2 := by
  rw [drainRest_eq] at hs
  split at hs
  · obtain ⟨s', hs', rfl⟩ := Option.map_eq_some_iff.mp hs
    exact h.truncate _ _ (h.swapOutRest (h.truncate _ _ hI) hs')
  · obtain rfl := Option.some.inj hs
    exact hI

theorem Undisturbed.swapInOne (h : Undisturbed G I) (pos : BlockPos) (temp : Block)
    {v : Volume} (hI : I v) : I (swapInOne G pos temp v).2 := by
  rw [swapInOne_eq]
  exact h.move _ _ _ hI

theorem Undisturbed.drainIfFull (h : Undisturbed G I) {s s' : Block × Volume} (hI : I s.2)
    (hs : drainIfFull G s = .inl s') : I s'.2 := by
  rw [drainIfFull_eq] at hs
  split at hs
  · split at hs
    · cases hs
    case h_2 hdrain =>
      obtain rfl := Sum.inl.inj hs
      exact h.drainFull hI hdrain
  · obtain rfl := Sum.inl.inj hs
    exact hI

/-- The scan alone ends the main loop, or an inner loop that does not end. -/
theorem collectTurn_inr {G : Geometry} {temp : Block} {v : Volume} {s : Block × Volume}
    (h : collectTurn G (temp, v) = .inr (some s)) : s = (temp, v) := by
  rw [collectTurn_eq] at h
  split at h
  · exact (Option.some.inj (Sum.inr.inj h)).symm
  · rw [drainIfFull_eq] at h
    split at h
    · split at h <;> cases h
    · cases h

theorem Undisturbed.collect (h : Undisturbed G I) {temp : Block} {v : Volume}
    {s : Block × Volume} (hI : I v) (hs : collect G temp v = some s) : I s.2 := by
  rw [collect_eq, Option.join_eq_some_iff] at hs
  refine loop_keeps _ (fun s : Block × Volume => I s.2) (fun r => ∀ s, r = some s → I s.2) ?_ ?_
    (s := (temp, v)) hI hs s rfl
  · rintro ⟨temp, v⟩ s' hI hbody
    rw [collectTurn_eq] at hbody
    split at hbody
    · cases hbody
    · exact h.drainIfFull (h.swapInOne _ _ hI) hbody
  · rintro ⟨temp, v⟩ r hI hbody s rfl
    rw [collectTurn_inr hbody]
    exact hI

theorem Undisturbed.resetZones (h : Undisturbed G I) (turns i : Nat) {v : Volume} (hI : I v) :
    I (resetZones G turns i v) := by
  induction turns generalizing i v with
  | zero => exact hI
  | succ turns ih => exact ih (i + 1) (h.truncate v i hI)

/-- What the stores keep, the collection keeps. -/
theorem Undisturbed.collection (h : Undisturbed G I) {kmem : Block} {v v' : Volume} (hI : I v)
    (hgc : GC G kmem v = some v') : I v' := by
  obtain ⟨⟨temp, v₁⟩, hcollect, hrest⟩ := Option.bind_eq_some_iff.mp hgc
  obtain ⟨⟨temp', v₂⟩, hdrain, rfl⟩ := Option.map_eq_some_iff.mp hrest
  exact h.resetZones _ _ (h.drainRest (h.collect (h.start v hI) hcollect) hdrain)

end

/-- The block at index `i` of `zone` is marked live. -/
def live (m : MappingInfo) (zone i : Nat) : Bool := bit (m.gcBitmap zone) i

/-- Positions in the order of the scan. -/
def Before (p q : BlockPos) : Prop :=
  p.zoneId < q.zoneId ∨ p.zoneId = q.zoneId ∧ p.blockIndex < q.blockIndex

theorem scanZone_eq_some {m : MappingInfo} {zone : Nat} {p : BlockPos}
    (h : (firstBit (m.gcBitmap zone) true (blocksPerZone / 32)).map
      (fun (j, k) => (⟨zone, j * 32 + k⟩ : BlockPos)) = some p) :
    p.zoneId = zone ∧ p.blockIndex < blocksPerZone ∧ live m zone p.blockIndex = true ∧
      ∀ i, i < p.blockIndex → live m zone i = false := by
  obtain ⟨⟨j, k⟩, hscan, rfl⟩ := Option.map_eq_some_iff.mp h
  obtain ⟨hj, hk, hbit, hbefore⟩ := firstBit_eq_some hscan
  refine ⟨rfl, ?_, hbit, fun i hi => hbefore i hi⟩
  simp only [blocksPerZone_eq] at hj ⊢
  omega

/-- Everything the scan can answer: nothing from `wp`'s zone to the last data
zone, or the first live position there. -/
theorem getNextGCValid_cases (m : MappingInfo) :
    ((hodoGetNextGCValid m).zoneId = 0 ∧ ∀ z i, m.wp.zoneId ≤ z → z ≤ 13 → i < blocksPerZone →
      live m z i = false) ∨
    (m.wp.zoneId ≤ (hodoGetNextGCValid m).zoneId ∧ (hodoGetNextGCValid m).zoneId ≤ 13 ∧
      (hodoGetNextGCValid m).blockIndex < blocksPerZone ∧
      live m (hodoGetNextGCValid m).zoneId (hodoGetNextGCValid m).blockIndex = true ∧
      ∀ q, m.wp.zoneId ≤ q.zoneId → q.blockIndex < blocksPerZone →
        Before q (hodoGetNextGCValid m) → live m q.zoneId q.blockIndex = false) := by
  have scanned : ∀ z, (firstBit (m.gcBitmap z) true (blocksPerZone / 32)).map
      (fun (j, k) => (⟨z, j * 32 + k⟩ : BlockPos)) = none → ∀ i, i < blocksPerZone →
      live m z i = false := by
    intro z hz i hi
    rw [Option.map_eq_none_iff] at hz
    simp only [blocksPerZone_eq] at hi hz
    exact firstBit_eq_none hz (by omega)
  simp only [hodoGetNextGCValid, numberZones_eq]
  cases hfirst : firstFrom (fun z => (firstBit (m.gcBitmap z) true (blocksPerZone / 32)).map
      fun (j, k) => (⟨z, j * 32 + k⟩ : BlockPos)) (16 - 2 - m.wp.zoneId) m.wp.zoneId with
  | none =>
    refine Or.inl ⟨rfl, fun z i hz1 hz2 hi => ?_⟩
    exact scanned z (firstFrom_eq_none hfirst hz1 (by omega)) i hi
  | some p =>
    obtain ⟨z, hz1, hz2, hzone, hbefore⟩ := firstFrom_eq_some hfirst
    obtain ⟨rfl, hlt, hlive, hfirst⟩ := scanZone_eq_some hzone
    refine Or.inr ⟨hz1, by simp only [Option.getD_some]; omega, hlt, hlive, ?_⟩
    rintro q hq1 hq2 (hq | ⟨hq, hqi⟩)
    · exact scanned q.zoneId (hbefore q.zoneId hq1 hq) q.blockIndex hq2
    · rw [hq]
      exact hfirst q.blockIndex hqi

end Collector
