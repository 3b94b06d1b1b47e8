import HodoZns.BlockForest

/-!
# What writing a field leaves alone

The header, the pointers and the data of a block after the updates that the
writing functions make.
-/

namespace BlockFields

open ByteBlock Layout BlockLog ZoneLog Relocation LogStore FileBlocks BlockForest

theorem isDat_congr {a b : Block} (h : ∀ i, i < 3 → byteAt a i = byteAt b i) :
    isDat a = isDat b := by
  simp only [isDat, h 0 (by omega), h 1 (by omega), h 2 (by omega)]

/-- Two blocks with the same magic have the same level. -/
theorem HasLevel.congr {a b : Block} {k : Nat} (hb : HasLevel b k)
    (h : ∀ i, i < 4 → byteAt a i = byteAt b i) : HasLevel a k where
  dat := (isDat_congr fun i hi => h i (by omega)).trans hb.dat
  le := hb.le
  eq := (h 3 (by omega)).trans hb.eq

theorem byteAt_putMagic (b : Block) (c0 c1 c2 c3 : UInt8) {i : Nat} (h : 4 ≤ i) :
    byteAt (putMagic b c0 c1 c2 c3) i = byteAt b i :=
  byteAt_copyIn_outside b _ (Or.inr h)

theorem isDat_putMagic (b : Block) (d : UInt8) :
    isDat (putMagic b (chr 'D') (chr 'A') (chr 'T') d) = true := by
  simp [isDat, putMagic, byteAt_copyIn]

theorem level_putMagic (b : Block) (c0 c1 c2 d : UInt8) : level (putMagic b c0 c1 c2 d) = d := by
  simp [level, putMagic, byteAt_copyIn]

theorem hasLevel_putMagic (b : Block) {k : Nat} (hk : k ≤ 3) :
    HasLevel (putMagic b (chr 'D') (chr 'A') (chr 'T') (digit k)) k :=
  ⟨isDat_putMagic b _, hk, level_putMagic b _ _ _ _⟩

theorem byteAt_stamp (b : Block) (n : Nat) {i : Nat} (h : i < 4 ∨ 8 ≤ i) :
    byteAt (stamp b n) i = byteAt b i := by
  rw [stamp]
  split
  · exact byteAt_putLE_outside b n (by omega)
  · rfl

theorem getLE_stamp (b : Block) (n : Nat) {off k : Nat} (h : 8 ≤ off) :
    getLE (stamp b n) off k = getLE b off k :=
  getLE_congr fun _ hi _ => byteAt_stamp b n (Or.inr (by omega))

theorem hasLevel_stamp {b : Block} {k : Nat} (h : HasLevel b k) (n : Nat) :
    HasLevel (stamp b n) k :=
  HasLevel.congr h fun _ hi => byteAt_stamp b n (Or.inl hi)

theorem stamp_of_inode {b : Block} (h : isDat b = false) (n : Nat) : stamp b n = b := by
  rw [stamp, if_neg (by rw [h]; decide)]

theorem blockPtr_stamp (b : Block) (n i : Nat) : blockPtr (stamp b n) i = blockPtr b i :=
  getLE_stamp b n (by simp)

theorem blockPtr_putBlockPtr (b : Block) {i q : Nat} (hi : i < numOfBlockPoses) (hq : q < 2 ^ 32)
    (j : Nat) : blockPtr (putBlockPtr b i q) j = if j = i then q else blockPtr b j := by
  simp only [numOfBlockPoses_eq] at hi
  simp only [blockPtr, putBlockPtr, hodoDataStart_eq, blockPtrSz_eq]
  split
  · subst j
    rw [getLE_putLE _ _ (by omega)]
    exact Nat.mod_eq_of_lt hq
  · exact getLE_putLE_outside _ _ (by omega)

theorem hasLevel_putBlockPtr {b : Block} {k : Nat} (h : HasLevel b k) (i q : Nat) :
    HasLevel (putBlockPtr b i q) k :=
  HasLevel.congr h fun _ hi => byteAt_putLE_outside b q (by simp; omega)

/-- An index block without pointers. -/
def template (k : Nat) : Block := putMagic zeros (chr 'D') (chr 'A') (chr 'T') (digit k)

theorem hasLevel_template {k : Nat} (hk : k ≤ 3) : HasLevel (template k) k :=
  hasLevel_putMagic zeros hk

theorem byteAt_template (k : Nat) {i : Nat} (h : 4 ≤ i) : byteAt (template k) i = 0 := by
  rw [template, byteAt_putMagic _ _ _ _ _ h, byteAt_zeros]

theorem blockPtr_template (k i : Nat) : blockPtr (template k) i = 0 := by
  rw [← getLE_zeros (N := 4096) (hodoDataStart + i * blockPtrSz) blockPtrSz]
  apply getLE_congr
  intro j hj _
  rw [byteAt_template k (by simp at hj; omega), byteAt_zeros]

theorem no_slot_of_template {k i p l : Nat} : ¬ Slot (template k) i p l := by
  intro h
  have hdat : isDat (template k) = true := isDat_putMagic _ _
  obtain ⟨_, _, hp⟩ := h.of_dat hdat
  exact h.ne_zero (hp.symm.trans (blockPtr_template k i))

theorem inodePtr_lt (b : Block) (i : Nat) : inodePtr b i < 2 ^ 32 :=
  getLE_lt b (104 + 4 * i) 4

/-- The number of the pointer field. -/
def Field.number : Field → Nat
  | .direct i => i
  | .singleIndirect => 10
  | .doubleIndirect => 11
  | .tripleIndirect => 12

/-- The depth of the tree below the field. -/
def Field.depth : Field → Nat
  | .direct _ => 0
  | .singleIndirect => 1
  | .doubleIndirect => 2
  | .tripleIndirect => 3

/-- The first data block below the field. -/
def Field.start : Field → Nat
  | .direct i => i
  | .singleIndirect => singleStart
  | .doubleIndirect => doubleStart
  | .tripleIndirect => tripleStart

theorem field_get (b : Block) (f : Field) : f.get b = inodePtr b (Field.number f) := by
  cases f <;> rfl

theorem field_put (b : Block) (q : Nat) (f : Field) :
    f.put b q = putLE b (104 + 4 * Field.number f) 4 q := by
  cases f <;> rfl

theorem fieldOf_spec {index : Nat} {f : Field} (h : fieldOf index = some f) :
    Field.number f < 13 ∧ Field.depth f = Field.number f - 9 ∧ Field.start f ≤ index ∧
      index - Field.start f < numOfBlockPoses ^ Field.depth f := by
  simp only [fieldOf] at h
  split at h
  · obtain rfl := Option.some.inj h
    simp_all [Field.number, Field.depth, Field.start]
    omega
  · split at h
    · obtain rfl := Option.some.inj h
      simp_all [Field.number, Field.depth, Field.start]
      omega
    · split at h
      · obtain rfl := Option.some.inj h
        simp_all [Field.number, Field.depth, Field.start]
        omega
      · split at h
        · obtain rfl := Option.some.inj h
          simp_all [Field.number, Field.depth, Field.start]
          omega
        · cases h

theorem digit_field (f : Field) : f.digit = digit (Field.depth f) := by
  cases f <;> rfl

/-- The inode that `write_one_block` writes back. -/
def rewritten (b : Block) (f : Field) (q len : Nat) : Block := putFileLen (f.put b q) len

theorem byteAt_rewritten (b : Block) (f : Field) (q len : Nat) {i : Nat} (h : i < 8) :
    byteAt (rewritten b f q len) i = byteAt b i := by
  rw [rewritten, putFileLen, byteAt_putLE_outside _ _ (by omega), field_put,
    byteAt_putLE_outside _ _ (by omega)]

theorem isDat_rewritten (b : Block) (f : Field) (q len : Nat) :
    isDat (rewritten b f q len) = isDat b :=
  isDat_congr fun _ hi => byteAt_rewritten b f q len (by omega)

/-- The part of an inode between the file length and the pointers. -/
theorem getLE_rewritten (b : Block) (f : Field) (q len : Nat) {off k : Nat} (hlo : 16 ≤ off)
    (hhi : off + k ≤ 104) : getLE (rewritten b f q len) off k = getLE b off k := by
  rw [rewritten, putFileLen, getLE_putLE_outside _ _ (by omega), field_put,
    getLE_putLE_outside _ _ (by omega)]

theorem iIno_rewritten (b : Block) (f : Field) (q len : Nat) :
    iIno (rewritten b f q len) = iIno b :=
  getLE_rewritten b f q len (by omega) (by omega)

theorem fileLen_rewritten (b : Block) (f : Field) (q : Nat) {len : Nat} (h : len < 2 ^ 64) :
    fileLen (rewritten b f q len) = len := by
  rw [fileLen, rewritten, putFileLen, getLE_putLE _ _ (by omega)]
  exact Nat.mod_eq_of_lt (by omega)

theorem inodePtr_rewritten (b : Block) {f : Field} (hf : Field.number f < 13) {q : Nat} (len : Nat)
    (hq : q < 2 ^ 32) (i : Nat) :
    inodePtr (rewritten b f q len) i = if i = Field.number f then q else inodePtr b i := by
  rw [inodePtr, rewritten, putFileLen, getLE_putLE_outside _ _ (by omega), field_put]
  split
  · subst i
    rw [getLE_putLE _ _ (by omega)]
    exact Nat.mod_eq_of_lt hq
  · exact getLE_putLE_outside _ _ (by omega)

end BlockFields
