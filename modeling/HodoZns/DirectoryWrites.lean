import HodoZns.FileWrites

/-!
# Writing to a directory

An addition or a removal rewrites one data block of the directory, or makes
one, and then the inode. The blocks of a directory are its first ten data blocks.
-/

namespace DirectoryWrites

open ByteBlock Layout BlockLog ZoneLog LogStore Relocation Programs Kernel StoreMachine FileBlocks
  Ancestry
open BlockForest BlockFields SlotUpdates TreeWrites FileWrites Directories Operations

/-- Data block `i` of the inode became `d`, apart from the number in its header. -/
structure DirectWritten (s s' : Store) (n : Nat) (b b' : Block) (i : Nat) (d : Block) : Prop
    extends FileWritten s s' n b b' where
  here : ∃ q, dataAt s'.content b' i = some (stamp d q)
  others : ∀ o, o ≠ i → dataAt s'.content b' o = dataAt s.content b o

theorem fieldOf_direct {i : Nat} (hi : i < 10) : fieldOf i = some (.direct i) := by
  rw [fieldOf, if_pos (by simpa using hi)]

theorem dataAt_direct (c : Nat → Option Block) (b : Block) {i : Nat} (hi : i < 10) :
    dataAt c b i = c (direct b i) := by
  rw [dataAt_field (fieldOf_direct hi)]
  rfl

section Steps

variable {s s₁ s₂ : Store} {n i q : Nat} {b b' d : Block}

theorem rootOf_direct (forest : IsForest s.content) (hn : s.content n = some b)
    (hb : isDat b = false) (hi : i < 10) : RootOf s.content (direct b i) 0 :=
  rootOf_field forest hn (fieldOf_direct hi) hb

theorem dataAt_eq_none_iff (valid : Valid s) (forest : IsForest s.content)
    (hn : s.content n = some b) (hb : isDat b = false) (hi : i < 10) :
    dataAt s.content b i = none ↔ direct b i = 0 := by
  rw [dataAt_direct _ _ hi]
  constructor
  · intro hnone
    rcases rootOf_direct forest hn hb hi with hzero | ⟨t, ht, _⟩
    · exact hzero
    · rw [hnone] at ht
      cases ht
  · intro hzero
    rw [hzero]
    exact valid.content_zero

theorem dataAt_level (forest : IsForest s.content) (hn : s.content n = some b)
    (hb : isDat b = false) (hi : i < 10) {t : Block} (ht : dataAt s.content b i = some t)
    (valid : Valid s) : HasLevel t 0 := by
  rw [dataAt_direct _ _ hi] at ht
  rcases rootOf_direct forest hn hb hi with hzero | ⟨t', ht', hlevel⟩
  · rw [hzero, valid.content_zero] at ht
    cases ht
  · obtain rfl := Option.some.inj (ht.symm.trans ht')
    exact hlevel

/-- A data block is written under the inode's pointer, then the inode. -/
theorem directWritten (valid : Valid s) (forest : IsForest s.content) (hn : s.content n = some b)
    (hb : isDat b = false) (hb' : isDat b' = false) (hi : i < 10) (level : HasLevel d 0)
    (put₁ : Put s s₁ d (direct b i) q) (put₂ : Put s₁ s₂ b' n n)
    (ptrs : ∀ j, inodePtr b' j = if j = i then q else inodePtr b j)
    (fields : ∀ off k, 16 ≤ off → off + k ≤ 56 → getLE b' off k = getLE b off k) :
    DirectWritten s s₂ n b b' i d := by
  have hlevel := hasLevel_stamp level q
  have below : Below s s₁ 0 (direct b i) q :=
    below_of_put valid forest (rootOf_direct forest hn hb hi) hlevel put₁
  have hreplaces : Replaces b (stamp b' n) i (inodePtr b i) q (i - 9) :=
    replaces_inode hb hb' (by omega) ptrs n
  have hk : i - 9 = 0 := by omega
  rw [hk] at hreplaces
  have above : Above s s₁ s₂ 0 n n i (direct b i) q b b' :=
    ⟨valid, forest, fun _ => hn, fun h => absurd h (valid.ne_zero (valid.used hn)), below,
      hreplaces, put₂⟩
  have hdirect : direct b' i = q := by
    have h := ptrs i
    rwa [if_pos rfl] at h
  refine ⟨fileWritten_of_above above hb' fields, ⟨q, ?_⟩, fun o ho => ?_⟩
  · rw [dataAt_direct _ _ hi, hdirect, above.same_below (x := q) (by
      rw [put₁.at_number]
      exact Option.some_ne_none _) Relation.ReflTransGen.refl]
    exact put₁.at_number
  · cases hg : fieldOf o with
    | none => rw [dataAt_none hg put₂.valid.content_zero, dataAt_none hg valid.content_zero]
    | some g =>
      have hne : Field.number g ≠ i := by
        intro heq
        have hf := fieldOf_inj hg (fieldOf_direct hi) heq
        subst hf
        have hspec := fieldOf_spec hg
        simp only [Field.start, Field.depth, pow_zero] at hspec
        omega
      apply dataAt_congr forest valid.content_zero put₂.valid.content_zero hn hb hg
      · rw [ptrs, if_neg hne]
      · intro hset x hx hreach
        exact above.same_beside (slot_of_field hg hb hset) hne hx hreach

end Steps

theorem byteAt_putDirent (b : Block) (j : Nat) (d : Dirent) {i : Nat}
    (h : i < j ∨ j + 40 ≤ i) : byteAt (putDirent b j d) i = byteAt b i :=
  byteAt_copyIn_outside b _ h

theorem hasLevel_putDirent {b : Block} {k j : Nat} (h : HasLevel b k) (hj : 8 ≤ j) (d : Dirent) :
    HasLevel (putDirent b j d) k :=
  HasLevel.congr h fun _ hi => byteAt_putDirent b j d (Or.inl (by omega))

theorem mem_offsets {start stop step j : Nat} (h : j ∈ offsets start stop step) : start ≤ j := by
  obtain ⟨k, _, rfl⟩ := List.mem_map.mp h
  exact Nat.le_add_right _ _

theorem freeOffset_ge {b : Block} {j : Nat} (h : freeOffset b = some j) : 8 ≤ j := by
  have := mem_offsets (List.mem_of_find?_eq_some h)
  simpa using this

theorem findName_ge {b : Block} {name : Name} {j : Nat} (h : findName b name = some j) : 8 ≤ j := by
  have := mem_offsets (List.mem_of_find?_eq_some h)
  simpa using this

/-- The first block of a directory, with one entry. -/
def firstBlock (sub : Block) : Block :=
  putDirent (putMagic zeros (chr 'D') (chr 'A') (chr 'T') (chr '0')) hodoDataStart
    (fillDirent (direntAt zeros 0) sub)

theorem hasLevel_firstBlock (sub : Block) : HasLevel (firstBlock sub) 0 :=
  hasLevel_putDirent (hasLevel_putMagic zeros (Nat.zero_le 3)) (by simp) _

/-- The inode with one more entry, before a new block is linked to it. -/
def counted (b : Block) : Block := putFileLen b (u64 (fileLen b + 1))

def Full (c : Nat → Option Block) (b : Block) (i : Nat) : Prop :=
  ∃ t, dataAt c b i = some t ∧ freeOffset t = none

inductive AddResult (m : Machine Store) (n : Nat) (b sub : Block) (first : Nat) :
    Int → Machine Store → Prop
  | full {m' : Machine Store} : (∀ i, first ≤ i → i < 10 → Full m.disk.content b i) →
      m'.disk = m.disk → SameInodes m m' → AddResult m n b sub first (-1) m'
  | slot {m' : Machine Store} {b' t : Block} {i j : Nat} : first ≤ i → i < 10 →
      (∀ i', first ≤ i' → i' < i → Full m.disk.content b i') →
      dataAt m.disk.content b i = some t → freeOffset t = some j →
      DirectWritten m.disk m'.disk n b b' i (putDirent t j (fillDirent (direntAt t j) sub)) →
      fileLen b' = u64 (fileLen b + 1) → (∀ k, 10 ≤ k → inodePtr b' k = inodePtr b k) →
      SameInodes m m' → AddResult m n b sub first 0 m'
  | block {m' : Machine Store} {b' : Block} {i : Nat} : first ≤ i → i < 10 →
      (∀ i', first ≤ i' → i' < i → Full m.disk.content b i') → dataAt m.disk.content b i = none →
      DirectWritten m.disk m'.disk n b b' i (firstBlock sub) → fileLen b' = u64 (fileLen b + 1) →
      (∀ k, 10 ≤ k → inodePtr b' k = inodePtr b k) → SameInodes m m' →
      AddResult m n b sub first 0 m'

theorem AddResult.growth {m m' : Machine Store} {n : Nat} {b sub : Block} {first : Nat} {r : Int}
    (h : AddResult m n b sub first r m') : Grown m.disk.content m'.disk.content n := by
  cases h with
  | full _ hdisk => exact hdisk ▸ Grown.refl _ _
  | slot _ _ _ _ _ hw => exact hw.growth
  | block _ _ _ _ hw => exact hw.growth

theorem AddResult.weaken {m m' : Machine Store} {n i : Nat} {b sub : Block} {r : Int}
    (h : AddResult m n b sub (i + 1) r m') (full : Full m.disk.content b i) :
    AddResult m n b sub i r m' := by
  have extend : ∀ {P : Nat → Prop}, (∀ i', i + 1 ≤ i' → P i' → Full m.disk.content b i') →
      ∀ i', i ≤ i' → P i' → Full m.disk.content b i' := by
    intro P hP i' hle hi'
    by_cases heq : i' = i
    · exact heq ▸ full
    · exact hP i' (by omega) hi'
  cases h with
  | full hfull hdisk hinodes => exact AddResult.full (extend hfull) hdisk hinodes
  | slot hle hi hfull ht hj hwritten hlen hptrs hinodes =>
    exact AddResult.slot (by omega) hi (extend hfull) ht hj hwritten hlen hptrs hinodes
  | block hle hi hfull hnone hwritten hlen hptrs hinodes =>
    exact AddResult.block (by omega) hi (extend hfull) hnone hwritten hlen hptrs hinodes

variable {D : Disk Store} [LikeStore D] {clock : Nat → Timespec} {m : Machine Store}

theorem isDat_counted (b : Block) : isDat (counted b) = isDat b :=
  isDat_congr fun _ hi => byteAt_putLE_outside b _ (by omega)

theorem getLE_counted (b : Block) {off k : Nat} (h : 16 ≤ off) :
    getLE (counted b) off k = getLE b off k :=
  getLE_putLE_outside b _ (by omega)

theorem fileLen_counted (b : Block) : fileLen (counted b) = u64 (fileLen b + 1) := by
  rw [fileLen, counted, putFileLen, getLE_putLE _ _ (by omega)]
  exact Nat.mod_eq_of_lt (u64_lt _)

theorem wp_addDirentFrom {n blocks i : Nat} {b sub : Block} (temp : Block) (hi : i + blocks = 10)
    (valid : Valid m.disk) (forest : IsForest m.disk.content) (hn : m.disk.content n = some b)
    (hb : isDat b = false) :
    wp (plain D clock) (addDirentFrom n sub b blocks i temp) (AddResult m n b sub i) m := by
  induction blocks generalizing i temp with
  | zero =>
    simp only [addDirentFrom, wp_pure]
    exact AddResult.full (fun _ _ _ => by omega) rfl (SameInodes.refl m)
  | succ blocks ih =>
    have hlt : i < 10 := by omega
    have hnone := dataAt_eq_none_iff valid forest hn hb hlt
    have hown := iIno_of_inode valid hn hb
    have hused := valid.used hn
    simp only [addDirentFrom, wp_ite]
    split
    case isTrue hset =>
      rcases rootOf_direct forest hn hb hlt with hzero | ⟨t, ht, hlevel⟩
      · exact absurd hzero hset
      have hdata : dataAt m.disk.content b i = some t := (dataAt_direct _ _ hlt).trans ht
      rw [wp_bind]
      apply (wp_hodoRead_some valid ht _ _).mpr
      cases hfree : freeOffset t with
      | none =>
        apply wp_mono _ (ih t (by omega))
        intro r m' hr
        exact hr.weaken ⟨t, hdata, hfree⟩
      | some j =>
        have hlevel' := hasLevel_putDirent hlevel (freeOffset_ge hfree)
          (fillDirent (direntAt t j) sub)
        simp only [wp_bind, wp_pure]
        apply wp_hodoWrite_dat valid (fun _ => valid.used ht) hlevel'.dat
        intro q s₁ put₁
        apply wp_hodoWrite_inode (m := m.setDisk s₁) put₁.valid
          (used_mono valid put₁.valid put₁.count_le hused)
          ((getLE_counted b (by omega)).trans hown)
        intro s₂ put₂
        have hq : q = direct b i := put₁.number hset
        have hptrs : ∀ k, inodePtr (counted b) k = inodePtr b k := fun k =>
          getLE_counted b (by omega)
        refine AddResult.slot (Nat.le_refl i) hlt (fun _ _ _ => by omega) hdata hfree
          (directWritten valid forest hn hb ((isDat_counted b).trans hb) hlt hlevel' put₁ put₂
            (fun k => ?_) fun off k hlo _ => getLE_counted b hlo)
          (fileLen_counted b) (fun k _ => hptrs k) ⟨rfl, rfl⟩
        rw [hptrs]
        split
        · subst k
          exact hq.symm
        · rfl
    case isFalse hunset =>
      have hzero : direct b i = 0 := not_not.mp hunset
      have hlevel := hasLevel_firstBlock sub
      simp only [wp_bind, wp_auto, wp_pure]
      apply wp_hodoWrite_dat (m := Machine.later m) (n := 0) valid
        (fun h => absurd rfl h) hlevel.dat
      intro q s₁ put₁
      have hown' : iIno (putDirect (counted b) i q) = n := by
        rw [iIno, putDirect, getLE_putLE_outside _ _ (by omega), getLE_counted b (by omega)]
        exact hown
      apply wp_hodoWrite_inode (m := (Machine.later m).setDisk s₁) put₁.valid
        (used_mono valid put₁.valid put₁.count_le hused) hown'
      intro s₂ put₂
      have hq : q < 2 ^ 32 := put₁.valid.number_lt put₁.used
      have hptrs : ∀ k, inodePtr (putDirect (counted b) i q) k =
          if k = i then q else inodePtr b k := by
        intro k
        rw [inodePtr, putDirect]
        split
        · subst k
          rw [getLE_putLE _ _ (by omega)]
          exact Nat.mod_eq_of_lt hq
        · rw [getLE_putLE_outside _ _ (by omega)]
          exact getLE_counted b (by omega)
      have hdat : isDat (putDirect (counted b) i q) = false := by
        rw [← hb, ← isDat_counted b]
        exact isDat_congr fun _ hi => byteAt_putLE_outside _ _ (by omega)
      refine AddResult.block (Nat.le_refl i) hlt (fun _ _ _ => by omega) (hnone.mpr hzero)
        (directWritten valid forest hn hb hdat hlt hlevel (hzero ▸ put₁) put₂ hptrs
          fun off k hlo hhi => ?_) ?_ (fun k hk => ?_) ⟨rfl, rfl⟩
      · rw [putDirect, getLE_putLE_outside _ _ (by omega)]
        exact getLE_counted b hlo
      · rw [fileLen, putDirect, getLE_putLE_outside _ _ (by omega)]
        exact fileLen_counted b
      · rw [hptrs, if_neg (by omega)]

theorem wp_addDirent {dir n : Nat} {b sub : Block} (hdir : dir % 2 ^ 32 = n)
    (valid : Valid m.disk) (forest : IsForest m.disk.content) (hn : m.disk.content n = some b)
    (hb : isDat b = false) :
    wp (plain D clock) (addDirent dir sub) (AddResult m n b sub 0) m := by
  simp only [addDirent, wp_bind, hdir]
  apply (wp_hodoRead_some valid hn _ _).mpr
  simp only [wp_kmallocUnchecked]
  apply wp_mono _ (wp_addDirentFrom (m := Machine.later m) (i := 0) _ rfl valid forest hn hb)
  intro r m' hr
  cases hr with
  | full hfull hdisk hinodes => exact AddResult.full hfull hdisk ⟨hinodes.1, hinodes.2⟩
  | slot hle hi hfull ht hj hwritten hlen hptrs hinodes =>
    exact AddResult.slot hle hi hfull ht hj hwritten hlen hptrs ⟨hinodes.1, hinodes.2⟩
  | block hle hi hfull hnone hwritten hlen hptrs hinodes =>
    exact AddResult.block hle hi hfull hnone hwritten hlen hptrs ⟨hinodes.1, hinodes.2⟩

/-- The block that `compact_datablock` puts together. -/
def compacted (t : Block) (j : Nat) : Block :=
  copyIn (copyIn zeros 0 j (byteAt t)) j (hodoDatablockSize - (j + hodoDirentSize)) fun i =>
    byteAt t (j + hodoDirentSize + i)

theorem hasLevel_compacted {t : Block} {k j : Nat} (h : HasLevel t k) (hj : 8 ≤ j) :
    HasLevel (compacted t j) k := by
  apply HasLevel.congr h
  intro i hi
  rw [compacted, byteAt_copyIn_outside _ _ (by omega),
    byteAt_copyIn_inside _ _ (by omega) (by omega) (by omega), Nat.sub_zero]

/-- The inode that `remove_dirent` writes back. -/
def uncounted (b : Block) (i q : Nat) (x y z : Timespec) : Block :=
  putFileLen (putTimes (putDirect b i q) x y z)
    (u64 (fileLen (putTimes (putDirect b i q) x y z) - 1))

theorem byteAt_putTimes (b : Block) (x y z : Timespec) {i : Nat} (h : i < 56 ∨ 104 ≤ i) :
    byteAt (putTimes b x y z) i = byteAt b i := by
  simp only [putTimes, putTime]
  iterate 6 rw [byteAt_putLE_outside _ _ (by omega)]

theorem getLE_putTimes (b : Block) (x y z : Timespec) {off k : Nat}
    (h : off + k ≤ 56 ∨ 104 ≤ off) : getLE (putTimes b x y z) off k = getLE b off k :=
  getLE_congr fun _ _ _ => byteAt_putTimes b x y z (by omega)

theorem fileLen_uncounted (b : Block) (i q : Nat) (x y z : Timespec) :
    fileLen (uncounted b i q x y z) = u64 (fileLen b - 1) := by
  have hlen : fileLen (putTimes (putDirect b i q) x y z) = fileLen b := by
    rw [fileLen, getLE_putTimes _ _ _ _ (by omega), putDirect, getLE_putLE_outside _ _ (by omega)]
    rfl
  rw [uncounted, hlen, fileLen, putFileLen, getLE_putLE _ _ (by omega)]
  exact Nat.mod_eq_of_lt (u64_lt _)

theorem getLE_uncounted (b : Block) (i q : Nat) (x y z : Timespec) {off k : Nat} (hlo : 16 ≤ off)
    (hhi : off + k ≤ 56) : getLE (uncounted b i q x y z) off k = getLE b off k := by
  rw [uncounted, putFileLen, getLE_putLE_outside _ _ (by omega),
    getLE_putTimes _ _ _ _ (by omega), putDirect, getLE_putLE_outside _ _ (by omega)]

theorem isDat_uncounted (b : Block) (i q : Nat) (x y z : Timespec) :
    isDat (uncounted b i q x y z) = isDat b := by
  apply isDat_congr
  intro j hj
  rw [uncounted, putFileLen, byteAt_putLE_outside _ _ (by omega),
    byteAt_putTimes _ _ _ _ (by omega), putDirect, byteAt_putLE_outside _ _ (by omega)]

theorem inodePtr_uncounted (b : Block) (i : Nat) (x y z : Timespec) (k : Nat) :
    inodePtr (uncounted b i (direct b i) x y z) k = inodePtr b k := by
  have hback : putDirect b i (direct b i) = b := putLE_getLE b _ 4
  rw [inodePtr, uncounted, putFileLen, getLE_putLE_outside _ _ (by omega),
    getLE_putTimes _ _ _ _ (by omega), hback]
  rfl

theorem DirectWritten.again {s s₁ s₂ : Store} {n i : Nat} {b b' d : Block}
    (h : DirectWritten s s₁ n b b' i d) (put : Put s₁ s₂ b' n n) :
    DirectWritten s s₂ n b b' i d := by
  obtain ⟨hwritten, hdata⟩ := fileWritten_of_put h.valid h.forest h.inode h.isInode h.isInode
    (fun _ => rfl) (fun _ _ _ _ => rfl) put
  refine ⟨h.toFileWritten.trans hwritten, ?_, fun o ho => (hdata o).trans (h.others o ho)⟩
  obtain ⟨q, hq⟩ := h.here
  exact ⟨q, (hdata i).trans hq⟩

def Lacks (c : Nat → Option Block) (b : Block) (name : Name) (i : Nat) : Prop :=
  ∀ t, dataAt c b i = some t → findName t name = none

/-- `written` is the number the inode was written under. -/
inductive Removed (m : Machine Store) (n : Nat) (b : Block) (name : Name) (first : Nat)
    (m' : Machine Store) : Prop
  | mk {b' t : Block} {i j : Nat} : first ≤ i → i < 10 →
      (∀ i', first ≤ i' → i' < i → Lacks m.disk.content b name i') →
      dataAt m.disk.content b i = some t → findName t name = some j →
      DirectWritten m.disk m'.disk n b b' i (compacted t j) → fileLen b' = u64 (fileLen b - 1) →
      (∀ k, inodePtr b' k = inodePtr b k) → SameInodes m m' → Removed m n b name first m'

theorem Removed.weaken {m m' : Machine Store} {n i : Nat} {b : Block} {name : Name}
    (h : Removed m n b name (i + 1) m') (lacks : Lacks m.disk.content b name i) :
    Removed m n b name i m' := by
  obtain ⟨hle, hi, hlacks, ht, hj, hwritten, hlen, hptrs, hinodes⟩ := h
  refine ⟨by omega, hi, fun i' hle' hi' => ?_, ht, hj, hwritten, hlen, hptrs, hinodes⟩
  by_cases heq : i' = i
  · exact heq ▸ lacks
  · exact hlacks i' (by omega) hi'

omit [LikeStore D] in
theorem wp_touched (b : Block) (i q : Nat) (Q : Block → Machine Store → Prop) :
    wp (plain D clock) (touched (putDirect b i q)) Q m ↔
      Q (uncounted b i q (clock m.tick) (clock (m.tick + 1)) (clock (m.tick + 2)))
        (Machine.later (Machine.later (Machine.later m))) := by
  simp only [touched, wp_bind, wp_currentTime, wp_pure]
  rfl

/-- The visit of one direct block in `remove_dirent`. -/
def removeVisit (b : Block) (name : Name) (n : Nat) (i p : Nat) (t : Block) (_ : Unit) :
    Program (Unit ⊕ Nat) := do
  match ← removeDirentFromDirectBlock t name p with
  | none => pure (.inl ())
  | some q => do
    let inode ← touched (putDirect b i q)
    let (_, n) ← hodoWrite inode n
    let (_, n) ← hodoWrite inode n
    pure (.inr n)

theorem wp_removeVisit {n i : Nat} {b t : Block} {name : Name} (valid : Valid m.disk)
    (forest : IsForest m.disk.content) (hn : m.disk.content n = some b) (hb : isDat b = false)
    (hi : i < 10) (ht : dataAt m.disk.content b i = some t) :
    wp (plain D clock) (removeVisit b name n i (direct b i) t ())
      (fun r m' => match r with
        | .inl _ => findName t name = none ∧ m' = m
        | .inr n' => n' = n ∧ Removed m n b name i m') m := by
  have hp := (dataAt_direct m.disk.content b hi).symm.trans ht
  have hset := valid.ne_zero (valid.used hp)
  have hown := iIno_of_inode valid hn hb
  have hused := valid.used hn
  cases hfind : findName t name with
  | none =>
    simp only [removeVisit, removeDirentFromDirectBlock, hfind, wp_bind, wp_pure]
    exact ⟨trivial, trivial⟩
  | some j =>
    have hj := findName_ge hfind
    have hlevel := hasLevel_compacted (dataAt_level forest hn hb hi ht valid) hj
    simp only [removeVisit, removeDirentFromDirectBlock, hfind, compactDatablock, wp_bind,
      wp_kmallocUnchecked, wp_pure]
    apply wp_hodoWrite_dat (m := Machine.later m) (b := compacted t j) valid
      (fun _ => valid.used hp) hlevel.dat
    intro q s₁ put₁
    obtain rfl := put₁.number hset
    rw [wp_touched]
    generalize clock ((Machine.later m).setDisk s₁).tick = x,
      clock (((Machine.later m).setDisk s₁).tick + 1) = y,
      clock (((Machine.later m).setDisk s₁).tick + 2) = z
    have hdat : isDat (uncounted b i (direct b i) x y z) = false :=
      (isDat_uncounted b i (direct b i) x y z).trans hb
    have hfields : ∀ off k, 16 ≤ off → off + k ≤ 56 →
        getLE (uncounted b i (direct b i) x y z) off k = getLE b off k := fun off k hlo hhi =>
      getLE_uncounted b i (direct b i) x y z hlo hhi
    have hown' : iIno (uncounted b i (direct b i) x y z) = n :=
      (hfields 36 4 (by omega) (by omega)).trans hown
    apply wp_hodoWrite_inode
      (m := Machine.later (Machine.later (Machine.later ((Machine.later m).setDisk s₁)))) put₁.valid
      (used_mono valid put₁.valid put₁.count_le hused) hown'
    intro s₂ put₂
    apply wp_hodoWrite_inode (m := Machine.setDisk _ s₂) put₂.valid put₂.used hown'
    intro s₃ put₃
    have hptrs := inodePtr_uncounted b i x y z
    refine ⟨rfl, Removed.mk (Nat.le_refl i) hi (fun _ _ _ => by omega) ht hfind
      ((directWritten valid forest hn hb hdat hi hlevel put₁ put₂ (fun k => ?_) hfields).again put₃)
      (fileLen_uncounted b i _ x y z) hptrs ⟨rfl, rfl⟩⟩
    rw [hptrs]
    split
    · subst k
      rfl
    · rfl

theorem wp_removeFrom {n blocks i : Nat} {b : Block} (buf : Block) (name : Name)
    (hi : i + blocks = 10) (valid : Valid m.disk) (forest : IsForest m.disk.content)
    (hn : m.disk.content n = some b) (hb : isDat b = false) :
    wp (plain D clock)
      (walkBlocks (removeVisit b name n)
        ((List.range' i blocks).map fun i => (i, direct b i)) buf ())
      (fun r m' => match r with
        | .inl _ => (∀ i', i ≤ i' → i' < 10 → Lacks m.disk.content b name i') ∧ m' = m
        | .inr n' => n' = n ∧ Removed m n b name i m') m := by
  induction blocks generalizing i buf with
  | zero =>
    simp only [List.range'_zero, List.map_nil, walkBlocks, wp_pure]
    exact ⟨fun _ _ _ => by omega, trivial⟩
  | succ blocks ih =>
    have hlt : i < 10 := by omega
    have hnone := dataAt_eq_none_iff valid forest hn hb hlt
    have goesOn : ∀ {r : (Block × Unit) ⊕ Nat} {m' : Machine Store},
        Lacks m.disk.content b name i →
        (match r with
          | .inl _ => (∀ i', i + 1 ≤ i' → i' < 10 → Lacks m.disk.content b name i') ∧ m' = m
          | .inr n' => n' = n ∧ Removed m n b name (i + 1) m') →
        (match r with
          | .inl _ => (∀ i', i ≤ i' → i' < 10 → Lacks m.disk.content b name i') ∧ m' = m
          | .inr n' => n' = n ∧ Removed m n b name i m') := by
      intro r m' lacks hr
      cases r with
      | inl _ =>
        refine ⟨fun i' hle hi' => ?_, hr.2⟩
        by_cases heq : i' = i
        · exact heq ▸ lacks
        · exact hr.1 i' (by omega) hi'
      | inr n' => exact ⟨hr.1, hr.2.weaken lacks⟩
    simp only [List.range'_succ, List.map_cons, walkBlocks, wp_ite]
    split
    case isTrue hzero =>
      apply wp_mono _ (ih buf (by omega))
      intro r m' hr
      refine goesOn (fun t ht => ?_) hr
      rw [hnone.mpr hzero] at ht
      cases ht
    case isFalse hset =>
      cases ht : dataAt m.disk.content b i with
      | none => exact absurd (hnone.mp ht) hset
      | some t =>
        rw [wp_bind]
        apply (wp_hodoRead_some valid ((dataAt_direct _ _ hlt).symm.trans ht) _ _).mpr
        rw [wp_bind]
        apply wp_mono _ (wp_removeVisit valid forest hn hb hlt ht)
        intro r m' hr
        cases r with
        | inl _ =>
          obtain ⟨hlacks, rfl⟩ := hr
          apply wp_mono _ (ih t (by omega))
          intro r m' hr
          refine goesOn (fun t' ht' => ?_) hr
          rw [ht] at ht'
          exact Option.some.inj ht' ▸ hlacks
        | inr n' =>
          rw [wp_pure]
          exact hr

inductive RemoveResult (m : Machine Store) (n : Nat) (b : Block) (name : Name) :
    Int × Nat → Machine Store → Prop
  | removed {m' : Machine Store} : Removed m n b name 0 m' → RemoveResult m n b name (1, n) m'
  | absent {m' : Machine Store} : (∀ i, i < 10 → Lacks m.disk.content b name i) →
      m'.disk = m.disk → SameInodes m m' → RemoveResult m n b name (0, n) m'

/-- A directory has no index blocks. -/
def NoIndex (b : Block) : Prop := ∀ k, 10 ≤ k → k < 13 → inodePtr b k = 0

theorem Removed.of_later {m m' : Machine Store} {n first : Nat} {b : Block} {name : Name}
    (h : Removed (Machine.later m) n b name first m') : Removed m n b name first m' := by
  obtain ⟨hle, hi, hlacks, ht, hj, hwritten, hlen, hptrs, hinodes⟩ := h
  exact ⟨hle, hi, hlacks, ht, hj, hwritten, hlen, hptrs, ⟨hinodes.1, hinodes.2⟩⟩

theorem wp_removeDirent {n : Nat} {b : Block} {name : Name} (valid : Valid m.disk)
    (forest : IsForest m.disk.content) (hn : m.disk.content n = some b) (hb : isDat b = false)
    (noIndex : NoIndex b) :
    wp (plain D clock) (removeDirent b name n) (RemoveResult m n b name) m := by
  have hsingle : singleIndirect b = 0 := noIndex 10 (by omega) (by omega)
  have hdouble : doubleIndirect b = 0 := noIndex 11 (by omega) (by omega)
  have htriple : tripleIndirect b = 0 := noIndex 12 (by omega) (by omega)
  simp only [removeDirent, wp_bind, wp_kmalloc]
  have hwalk :=
    @wp_removeFrom D _ clock (Machine.later m) n 10 0 b zeros name rfl valid forest hn hb
  rw [← List.range_eq_range'] at hwalk
  apply wp_mono _ hwalk
  intro r m' hr
  cases r with
  | inr n' =>
    obtain ⟨rfl, hremoved⟩ := hr
    rw [wp_pure]
    exact RemoveResult.removed hremoved.of_later
  | inl u =>
    obtain ⟨hlacks, rfl⟩ := hr
    simp only [indirectPtrs, hsingle, hdouble, htriple, walkBlocks, if_true, wp_bind, wp_pure]
    exact RemoveResult.absent (fun i hi => hlacks i (Nat.zero_le i) hi) rfl ⟨rfl, rfl⟩

theorem wp_removeEntry {n : Nat} {b : Block} {name : Name} (valid : Valid m.disk)
    (forest : IsForest m.disk.content) (hn : m.disk.content n = some b) (hb : isDat b = false)
    (noIndex : NoIndex b) :
    wp (plain D clock) (removeEntry n name) (RemoveResult m n b name) m := by
  simp only [removeEntry, wp_bind, wp_auto]
  apply (wp_hodoRead_some (m := Machine.later m) valid hn _ _).mpr
  apply wp_mono _ (wp_removeDirent (m := Machine.later m) valid forest hn hb noIndex)
  intro r m' hr
  cases hr with
  | removed hremoved => exact RemoveResult.removed hremoved.of_later
  | absent hlacks hdisk hinodes => exact RemoveResult.absent hlacks hdisk ⟨hinodes.1, hinodes.2⟩

end DirectoryWrites
