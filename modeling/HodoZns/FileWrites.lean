import HodoZns.TreeWrites

/-!
# Writing to a file

`write_one_block` on the inode of a file, and the loop over it. The data blocks
of a file are told by their index; a write at a position rewrites the block
there, leaves all other data blocks of the file as they were, and touches
nothing that is not below its inode.
-/

namespace FileWrites

open ByteBlock Layout BlockLog ZoneLog LogStore Relocation Programs Kernel StoreMachine FileBlocks
  Ancestry
open BlockForest BlockFields SlotUpdates TreeWrites

section Contents

variable {c c' : Nat → Option Block} {b b' : Block}

def leaf (c : Nat → Option Block) (b : Block) (index : Nat) : Nat :=
  match fieldOf index with
  | some f => walk c (Field.depth f) (inodePtr b (Field.number f)) (index - Field.start f)
  | none => 0

def dataAt (c : Nat → Option Block) (b : Block) (index : Nat) : Option Block := c (leaf c b index)

theorem dataAt_field {index : Nat} {f : Field} (hf : fieldOf index = some f) :
    dataAt c b index =
      c (walk c (Field.depth f) (inodePtr b (Field.number f)) (index - Field.start f)) := by
  rw [dataAt, leaf, hf]

theorem dataAt_none {index : Nat} (hf : fieldOf index = none) (h0 : c 0 = none) :
    dataAt c b index = none := by
  rw [dataAt, leaf, hf]
  exact h0

theorem fieldOf_inj {i j : Nat} {f g : Field} (hf : fieldOf i = some f) (hg : fieldOf j = some g)
    (h : Field.number f = Field.number g) : f = g := by
  have hf' := (fieldOf_spec hf).2.1
  have hg' := (fieldOf_spec hg).2.1
  cases f <;> cases g <;> simp_all [Field.number, Field.depth] <;> omega

/-- An inode's pointer leads to a block of the depth of the field, or nowhere. -/
theorem slot_of_field {i : Nat} {f : Field} (hf : fieldOf i = some f) (hb : isDat b = false)
    (hne : inodePtr b (Field.number f) ≠ 0) :
    Slot b (Field.number f) (inodePtr b (Field.number f)) (Field.depth f) := by
  obtain ⟨hlt, hdepth, _, _⟩ := fieldOf_spec hf
  rw [hdepth]
  exact Slot.field hb hlt hne

theorem rootOf_field {n i : Nat} {f : Field} (h : IsForest c) (hn : c n = some b)
    (hf : fieldOf i = some f) (hb : isDat b = false) :
    RootOf c (inodePtr b (Field.number f)) (Field.depth f) :=
  h.rootOf fun hne => ⟨b, hn, slot_of_field hf hb hne⟩

/-- A data block is the same when all that the inode's pointer reaches is. -/
theorem dataAt_congr {n i : Nat} {f : Field} (h : IsForest c) (h0 : c 0 = none) (h0' : c' 0 = none)
    (hn : c n = some b) (hb : isDat b = false) (hf : fieldOf i = some f)
    (ptr : inodePtr b' (Field.number f) = inodePtr b (Field.number f))
    (same : inodePtr b (Field.number f) ≠ 0 → ∀ x, c x ≠ none →
      Reach (Edge c) (inodePtr b (Field.number f)) x → c' x = c x) :
    dataAt c' b' i = dataAt c b i := by
  rw [dataAt_field hf, dataAt_field hf, ptr]
  by_cases hne : inodePtr b (Field.number f) = 0
  · rw [hne, walk_zero h0, walk_zero h0', h0, h0']
  · obtain ⟨hwalk, hsame⟩ := walk_congr h h0 h0' (rootOf_field h hn hf hb)
      (fieldOf_spec hf).2.2.2 (same hne)
    rw [hwalk, hsame]

end Contents

/-- The inode `b` under `n` became `b'`, and nothing but blocks below it changed. -/
structure FileWritten (s s' : Store) (n : Nat) (b b' : Block) : Prop where
  valid : Valid s'
  count_le : s.count ≤ s'.count
  forest : IsForest s'.content
  inode : s'.content n = some b'
  isInode : isDat b' = false
  fields : ∀ off k, 16 ≤ off → off + k ≤ 56 → getLE b' off k = getLE b off k
  edges : ∀ a x, Edge s'.content a x → s.content x ≠ none → Edge s.content a x
  stays : ∀ x, s.content x ≠ none → s'.content x ≠ none
  inodes : ∀ x d, s'.content x = some d → isDat d = false → x ≠ n → s.content x = some d
  frame : ∀ x, s.content x ≠ none → ¬ Reach (Edge s.content) n x → s'.content x = s.content x
  growth : Grown s.content s'.content n

/-- On top of that the data block at `index` was rewritten. -/
structure PieceWritten (s s' : Store) (n : Nat) (b b' : Block) (index : Nat) (new : Nat → UInt8) :
    Prop extends FileWritten s s' n b b' where
  grown : dataAt s.content b index = none → s.count < s'.count
  there : dataAt s'.content b' index ≠ none
  data : ∀ j, j < 4088 → dataByte (dataAt s'.content b' index) j = new j
  others : ∀ o, o ≠ index → dataAt s'.content b' o = dataAt s.content b o

theorem fileWritten_of_above {s s₁ s₂ : Store} {k n i p q : Nat} {b b' : Block}
    (h : Above s s₁ s₂ k n n i p q b b') (hb' : isDat b' = false)
    (fields : ∀ off k, 16 ≤ off → off + k ≤ 56 → getLE b' off k = getLE b off k) :
    FileWritten s s₂ n b b' where
  valid := h.put.valid
  count_le := Nat.le_trans h.below.count_le h.put.count_le
  forest := h.forest₂
  inode := by rw [h.put.at_number, stamp_of_inode hb']
  isInode := hb'
  fields := fields
  edges _ _ hedge hx := h.edges hedge hx
  stays x hx := h.put.stays (h.below.stays x hx)
  inodes x d hd hinode hx := h.below.inodes x d ((h.put.elsewhere hx).symm.trans hd) hinode
  frame _ hx hreach := h.frame hx hreach
  growth := h.growth

theorem pieceWritten_of_tree {s s₁ s₂ : Store} {n index q len : Nat} {f : Field} {b : Block}
    {new : Nat → UInt8} (valid : Valid s) (forest : IsForest s.content)
    (hn : s.content n = some b) (hb : isDat b = false) (hf : fieldOf index = some f)
    (tree : TreeWritten s s₁ (Field.depth f) (inodePtr b (Field.number f)) q
      (index - Field.start f) new)
    (put : Put s₁ s₂ (rewritten b f q len) n n) :
    PieceWritten s s₂ n b (rewritten b f q len) index new := by
  obtain ⟨hnumber, hdepth, hstart, hoff⟩ := fieldOf_spec hf
  have hb' : isDat (rewritten b f q len) = false := (isDat_rewritten b f q len).trans hb
  have hptr := inodePtr_rewritten b hnumber len tree.lt
  have h0 := valid.content_zero
  have hne := valid.ne_zero (valid.used hn)
  have above : Above s s₁ s₂ (Field.depth f) n n (Field.number f) (inodePtr b (Field.number f)) q b
      (rewritten b f q len) := by
    refine ⟨valid, forest, fun _ => hn, fun h => absurd h hne, tree.toBelow, ?_, put⟩
    rw [hdepth]
    exact replaces_inode hb hb' hnumber hptr n
  have hhere : dataAt s₂.content (rewritten b f q len) index =
      s₁.content (walk s₁.content (Field.depth f) q (index - Field.start f)) := by
    obtain ⟨hwalk, hsame⟩ := walk_congr tree.forest tree.valid.content_zero put.valid.content_zero
      (Or.inr tree.holds) hoff fun x hx hreach => above.same_below hx hreach
    rw [dataAt_field hf, hptr, if_pos rfl, hwalk, hsame]
  refine ⟨fileWritten_of_above above hb' fun off k hlo hhi =>
    getLE_rewritten b f q len hlo (by omega),
    fun hnone => ?_, ?_, fun j hj => ?_, fun o ho => ?_⟩
  · rw [dataAt_field hf] at hnone
    exact Nat.lt_of_lt_of_le (tree.grown hnone) put.count_le
  · rw [hhere]
    exact tree.there
  · rw [hhere]
    exact tree.data j hj
  · cases hg : fieldOf o with
    | none => rw [dataAt_none hg put.valid.content_zero, dataAt_none hg h0]
    | some g =>
      obtain ⟨_, _, hstart', hoff'⟩ := fieldOf_spec hg
      by_cases hsame : Field.number g = Field.number f
      · obtain rfl := fieldOf_inj hg hf hsame
        obtain ⟨hwalk, hkeep⟩ := walk_congr tree.forest tree.valid.content_zero
          put.valid.content_zero (Or.inr tree.holds) hoff'
          fun x hx hreach => above.same_below hx hreach
        rw [dataAt_field hg, dataAt_field hg, hptr, if_pos rfl, hwalk, hkeep]
        exact tree.others _ hoff' (by omega)
      · apply dataAt_congr forest h0 put.valid.content_zero hn hb hg
        · rw [hptr, if_neg hsame]
        · intro hset x hx hreach
          exact above.same_beside (slot_of_field hg hb hset) hsame hx hreach

/-- An inode written back with its pointers unchanged. -/
theorem fileWritten_of_put {s s' : Store} {n : Nat} {b b' : Block} (valid : Valid s)
    (forest : IsForest s.content) (hn : s.content n = some b) (hb : isDat b = false)
    (hb' : isDat b' = false) (ptrs : ∀ i, inodePtr b' i = inodePtr b i)
    (fields : ∀ off k, 16 ≤ off → off + k ≤ 56 → getLE b' off k = getLE b off k)
    (put : Put s s' b' n n) :
    FileWritten s s' n b b' ∧ ∀ o, dataAt s'.content b' o = dataAt s.content b o := by
  have hne := valid.ne_zero (valid.used hn)
  have hforest : IsForest s'.content := by
    rw [put.content, stamp_of_inode hb']
    apply IsForest.put (j := 0) forest (fun h => absurd (h.symm.trans hb') (by decide))
    · exact fun a i k hp => absurd hp (forest.orphan_of_inode hn hb a i k)
    · intro i p k hslot
      obtain ⟨hi, rfl, rfl⟩ := hslot.of_inode hb'
      have hset := hslot.ne_zero
      rw [ptrs] at hset ⊢
      exact Or.inl ⟨b, hn, Slot.field hb hi hset⟩
  refine ⟨⟨put.valid, put.count_le, hforest, by rw [put.at_number, stamp_of_inode hb'], hb', fields,
    fun a x hedge _ => ?_, fun _ => put.stays,
    fun x d hd _ hx => (put.elsewhere hx).symm.trans hd, fun x _ hreach => ?_,
    put.stays, fun {a x} hedge => ?_, fun {x} hx hnone => ?_⟩, fun o => ?_⟩
  · obtain ⟨i, k, hpoint⟩ := hedge
    rw [put.content, stamp_of_inode hb'] at hpoint
    rcases pointsTo_update.mp hpoint with ⟨rfl, hslot⟩ | ⟨_, hold⟩
    · obtain ⟨hi, rfl, rfl⟩ := hslot.of_inode hb'
      have hset := hslot.ne_zero
      rw [ptrs] at hset ⊢
      exact ⟨i, i - 9, b, hn, Slot.field hb hi hset⟩
    · exact ⟨i, k, hold⟩
  · apply put.elsewhere
    rintro rfl
    exact hreach Relation.ReflTransGen.refl
  · obtain ⟨i, k, hpoint⟩ := hedge
    by_cases ha : a = n
    · subst ha
      obtain ⟨d, hd, hslot⟩ := hpoint
      obtain rfl := Option.some.inj (hn.symm.trans hd)
      obtain ⟨hi, rfl, rfl⟩ := hslot.of_inode hb
      have hset := hslot.ne_zero
      rw [← ptrs] at hset ⊢
      exact ⟨i, i - 9, b', by rw [put.at_number, stamp_of_inode hb'], Slot.field hb' hi hset⟩
    · exact ⟨i, k, by rw [put.content]; exact pointsTo_update.mpr (Or.inr ⟨ha, hpoint⟩)⟩
  · by_cases hxn : x = n
    · exact hxn ▸ Relation.ReflTransGen.refl
    · exact absurd ((put.elsewhere hxn).trans hnone) hx
  · cases hg : fieldOf o with
    | none => rw [dataAt_none hg put.valid.content_zero, dataAt_none hg valid.content_zero]
    | some g =>
      apply dataAt_congr forest valid.content_zero put.valid.content_zero hn hb hg (ptrs _)
      intro hset x hx hreach
      apply put.elsewhere
      rintro rfl
      -- an inode is reached only from itself, and the pointer is not the inode
      have heq := eq_of_reach_root (forest.orphan_of_inode hn hb).no_edge hreach
      have hholds := forest.target ⟨b, hn, slot_of_field hg hb hset⟩
      obtain ⟨d, hd, hlevel⟩ := hholds
      rw [heq, hn] at hd
      obtain rfl := Option.some.inj hd
      exact absurd (hlevel.dat.symm.trans hb) (by decide)

theorem FileWritten.refl {s : Store} {n : Nat} {b : Block} (valid : Valid s)
    (forest : IsForest s.content) (hn : s.content n = some b) (hb : isDat b = false) :
    FileWritten s s n b b :=
  ⟨valid, Nat.le_refl _, forest, hn, hb, fun _ _ _ _ => rfl, fun _ _ hedge _ => hedge,
    fun _ hx => hx, fun _ _ hd _ _ => hd, fun _ _ _ => rfl, Grown.refl _ _⟩

/-- A file comes to own only blocks that are new. -/
theorem FileWritten.reach {s s' : Store} {n : Nat} {b b' : Block} (h : FileWritten s s' n b b')
    {x : Nat} (hx : s.content x ≠ none) (hreach : Reach (Edge s'.content) n x) :
    Reach (Edge s.content) n x := by
  induction hreach with
  | refl => exact Relation.ReflTransGen.refl
  | tail _ hedge ih =>
    have hedge' := h.edges _ _ hedge hx
    obtain ⟨i, k, d, hd, _⟩ := hedge'
    exact (ih (by rw [hd]; exact Option.some_ne_none d)).tail (h.edges _ _ hedge hx)

theorem FileWritten.trans {s s' s'' : Store} {n : Nat} {b b' b'' : Block}
    (h : FileWritten s s' n b b') (h' : FileWritten s' s'' n b' b'') :
    FileWritten s s'' n b b'' where
  valid := h'.valid
  count_le := Nat.le_trans h.count_le h'.count_le
  forest := h'.forest
  inode := h'.inode
  isInode := h'.isInode
  fields off k hlo hhi := (h'.fields off k hlo hhi).trans (h.fields off k hlo hhi)
  edges a x hedge hx := h.edges a x (h'.edges a x hedge (h.stays x hx)) hx
  stays x hx := h'.stays x (h.stays x hx)
  inodes x d hd hinode hx := h.inodes x d (h'.inodes x d hd hinode hx) hinode hx
  frame x hx hreach :=
    (h'.frame x (h.stays x hx) fun hreach' => hreach (h.reach hx hreach')).trans
      (h.frame x hx hreach)
  growth := h.growth.trans h'.growth

/-- `i_size_write`. -/
structure Resized (m m' : Machine Store) (ref : Nat) (size : Int) : Prop where
  inodes : m'.inodes = update m.inodes ref { m.inodes ref with iSize := size }
  inodeCount : m'.inodeCount = m.inodeCount

/-- The request after `IOCB_APPEND` has been looked at. -/
def positioned (m : Machine Store) (iocb : Kiocb) : Kiocb :=
  if iocb.append then { iocb with kiPos := (m.inodes iocb.inode).iSize } else iocb

inductive BlockResult (m : Machine Store) (iocb : Kiocb) (iter : IovIter) (n : Nat) (b : Block) :
    Int × Kiocb × IovIter → Machine Store → Prop
  | tooBig {m' : Machine Store} : fieldOf (dataBlockIndex iocb) = none → m'.disk = m.disk →
      SameInodes m m' → BlockResult m iocb iter n b (eFBig, iocb, iter) m'
  | fault {m' : Machine Store} {iter' : IovIter} {b' : Block} :
      iter.readable < pieceLen iocb iter → FileWritten m.disk m'.disk n b b' →
      (∀ o, dataAt m'.disk.content b' o = dataAt m.disk.content b o) →
      fileLen b' = u64 (iocb.kiPos + eFault) → Resized m m' iocb.inode (iocb.kiPos + eFault) →
      (∃ f, fieldOf (dataBlockIndex iocb) = some f) →
      BlockResult m iocb iter n b
        (eFault, { iocb with kiPos := iocb.kiPos + eFault }, iter') m'
  | written {m' : Machine Store} {b' : Block} {f : Field} :
      fieldOf (dataBlockIndex iocb) = some f → pieceLen iocb iter ≤ iter.readable →
      PieceWritten m.disk m'.disk n b b' (dataBlockIndex iocb)
        (pieceByte (dataByte (dataAt m.disk.content b (dataBlockIndex iocb))) iocb iter) →
      fileLen b' = u64 (iocb.kiPos + pieceLen iocb iter) →
      Resized m m' iocb.inode (iocb.kiPos + pieceLen iocb iter) →
      BlockResult m iocb iter n b
        ((pieceLen iocb iter : Int), { iocb with kiPos := iocb.kiPos + pieceLen iocb iter },
          IovIter.advance iter (pieceLen iocb iter)) m'

variable {D : Disk Store} [KeepsBlocks D] {clock : Nat → Timespec} {E : Env} {m : Machine Store}

theorem wp_field_write {iocb : Kiocb} {iter : IovIter} {f : Field} {p : Nat} {current : Block}
    (hf : fieldOf (dataBlockIndex iocb) = some f) (count : 0 < iter.count) (valid : Valid m.disk)
    (forest : IsForest m.disk.content)
    (buffers : Buffers m.disk.content (Field.depth f) p current) :
    wp (plain D clock) (f.write iocb iter p current)
      (PieceResult m iocb iter (Field.depth f) p (dataBlockIndex iocb - Field.start f)) m := by
  have hoff := (fieldOf_spec hf).2.2.2
  have hindirect : ∀ {k}, Field.depth f = k + 1 →
      wp (plain D clock) (writeOneBlockByIndirectBlock callDepth iocb iter p current)
        (PieceResult m iocb iter (Field.depth f) p (dataBlockIndex iocb - Field.start f)) m := by
    intro k hk
    rw [← Nat.mod_eq_of_lt hoff]
    rw [hk] at buffers hoff ⊢
    have hle := buffers.level.le
    exact wp_writeOneBlockByIndirectBlock (by simp [callDepth]; omega) hf (by omega) count valid
      forest buffers
  cases f with
  | direct i =>
    have hzero : dataBlockIndex iocb - Field.start (.direct i) = 0 := by
      simp only [Field.depth, pow_zero] at hoff
      omega
    rw [hzero]
    exact wp_writeOneBlockByDirectBlock valid forest buffers
  | singleIndirect => exact hindirect rfl
  | doubleIndirect => exact hindirect rfl
  | tripleIndirect => exact hindirect rfl

theorem iIno_of_inode {s : Store} {n : Nat} {b : Block} (valid : Valid s)
    (hn : s.content n = some b) (hb : isDat b = false) : iIno b = n := by
  have h := valid.names hn
  rwa [ownNumber, if_neg (by rw [hb]; decide)] at h

theorem u64_lt (x : Int) : u64 x < 2 ^ 64 := by
  rw [u64]
  omega

omit [KeepsBlocks D] in
theorem wp_startPos (iocb : Kiocb) (Q : Kiocb → Machine Store → Prop) :
    wp (machine D E) (startPos iocb) Q m ↔ Q (positioned m iocb) m := by
  simp only [startPos, positioned]
  split <;> simp

theorem used_mono {s s' : Store} {n : Nat} (valid : Valid s) (valid' : Valid s')
    (hle : s.count ≤ s'.count) (hn : s.used n) : s'.used n := by
  obtain ⟨hlo, hhi⟩ := hn
  rw [valid.base] at hlo hhi
  rw [Store.used, valid'.base]
  omega

/-- `write_one_block` from the read of the inode on. -/
def writeStored (iocb : Kiocb) (iter : IovIter) (number : Nat) (stack : Block) :
    Program (Int × Kiocb × IovIter) := do
  let inode ← hodoRead number stack
  let iocb ← startPos iocb
  match ← kmalloc with
  | none => pure (eNoMem, iocb, iter)
  | some block =>
    match fieldOf (dataBlockIndex iocb) with
    | none => pure (eFBig, iocb, iter)
    | some field => do
      let block ← readOrMake (field.get inode) field.digit block
      let (written, iter, q) ← field.write iocb iter (field.get inode) block
      let _ ← hodoWrite (putFileLen (field.put inode q) (u64 (iocb.kiPos + written))) number
      let kiPos := iocb.kiPos + written
      setInode iocb.inode fun i => { i with iSize := kiPos }
      pure (written, { iocb with kiPos := kiPos }, iter)

theorem writeOneBlock_eq (iocb : Kiocb) (iter : IovIter) :
    writeOneBlock iocb iter = (do
      let target ← getInode iocb.inode
      let stack ← auto
      writeStored iocb iter (target.iIno % 2 ^ 32) stack) :=
  rfl

theorem wp_writeStored {iocb : Kiocb} {iter : IovIter} {n : Nat} {b stack : Block}
    (count : 0 < iter.count) (valid : Valid m.disk) (forest : IsForest m.disk.content)
    (hn : m.disk.content n = some b) (hb : isDat b = false) :
    wp (plain D clock) (writeStored iocb iter n stack)
      (BlockResult m (positioned m iocb) iter n b) m := by
  simp only [writeStored, wp_bind]
  apply (wp_hodoRead_some valid hn _ _).mpr
  simp only [wp_startPos, wp_kmalloc]
  generalize positioned m iocb = iocb
  cases hf : fieldOf (dataBlockIndex iocb) with
  | none =>
    simp only [wp_pure]
    exact BlockResult.tooBig hf rfl ⟨rfl, rfl⟩
  | some f =>
    obtain ⟨hnumber, _, _, _⟩ := fieldOf_spec hf
    have hroot := rootOf_field forest hn hf hb
    have hdepth : Field.depth f ≤ 3 := by cases f <;> simp [Field.depth]
    have there : m.disk.content n ≠ none := by rw [hn]; exact Option.some_ne_none b
    simp only [wp_bind, digit_field, field_get]
    apply wp_readOrMake (m := Machine.later m) valid hroot hdepth
    intro t ht
    apply wp_mono _ (wp_field_write (m := Machine.later m) hf count valid forest ht)
    intro r m' hr
    simp only [wp_setInode, wp_pure]
    have own : ∀ q len, iIno (rewritten b f q len) = n := fun q len =>
      (iIno_rewritten b f q len).trans (iIno_of_inode valid hn hb)
    cases hr.of_later with
    | fault hshort hdisk hinodes =>
      apply wp_hodoRewrite_inode (by rw [hdisk]; exact valid) (by rw [hdisk]; exact there)
        (own _ _)
      intro s' put
      rw [hdisk] at put
      have hptr := inodePtr_rewritten b hnumber (u64 (iocb.kiPos + eFault))
        (inodePtr_lt b (Field.number f))
      obtain ⟨hwritten, hdata⟩ := fileWritten_of_put valid forest hn hb
        ((isDat_rewritten _ _ _ _).trans hb) (fun i => (hptr i).trans (by split <;> simp_all))
        (fun off k hlo hhi => getLE_rewritten _ _ _ _ hlo (by omega)) put
      refine BlockResult.fault hshort hwritten hdata (fileLen_rewritten _ _ _ (u64_lt _))
        ⟨?_, hinodes.inodeCount⟩ ⟨f, hf⟩
      simp only [updateInode_inodes, setDisk_inodes, hinodes.inodes]
    | @written q m' hread tree hinodes =>
      apply wp_hodoRewrite_inode tree.valid (tree.stays n there) (own _ _)
      intro s' put
      have hdata : dataAt m.disk.content b (dataBlockIndex iocb) = _ := dataAt_field hf
      rw [← hdata] at tree
      refine BlockResult.written hf hread (pieceWritten_of_tree valid forest hn hb hf tree put)
        (fileLen_rewritten _ _ _ (u64_lt _)) ⟨?_, hinodes.inodeCount⟩
      simp only [updateInode_inodes, setDisk_inodes, hinodes.inodes]

theorem BlockResult.of_later {m m' : Machine Store} {iocb : Kiocb} {iter : IovIter} {n : Nat}
    {b : Block} {r : Int × Kiocb × IovIter} (h : BlockResult (Machine.later m) iocb iter n b r m') :
    BlockResult m iocb iter n b r m' := by
  cases h with
  | tooBig hnone hdisk hsame => exact .tooBig hnone hdisk ⟨hsame.inodes, hsame.inodeCount⟩
  | fault hshort hwritten hdata hlen hresized hfield =>
    exact .fault hshort hwritten hdata hlen ⟨hresized.inodes, hresized.inodeCount⟩ hfield
  | written hf hread hwritten hlen hresized =>
    exact .written hf hread hwritten hlen ⟨hresized.inodes, hresized.inodeCount⟩

theorem wp_writeOneBlock {iocb : Kiocb} {iter : IovIter} {n : Nat} {b : Block}
    (hino : (m.inodes iocb.inode).iIno % 2 ^ 32 = n) (count : 0 < iter.count)
    (valid : Valid m.disk) (forest : IsForest m.disk.content) (hn : m.disk.content n = some b)
    (hb : isDat b = false) :
    wp (plain D clock) (writeOneBlock iocb iter)
      (BlockResult m (positioned m iocb) iter n b) m := by
  simp only [writeOneBlock_eq, wp_bind, wp_getInode, wp_auto, hino]
  exact wp_mono (fun _ _ hr => BlockResult.of_later hr)
    (wp_writeStored (m := Machine.later m) count valid forest hn hb)

omit [KeepsBlocks D] in
/-- The invariant rule for the loop over the blocks of a request. -/
theorem wp_writeBlocks {len : Nat} (Inv : Nat → Kiocb → IovIter → Machine Store → Prop)
    (Post : Int × Kiocb × IovIter → Machine Store → Prop)
    (bounded : ∀ total iocb iter m, Inv total iocb iter m → total ≤ len)
    (goesOn : ∀ total iocb iter m, Inv total iocb iter m → total < len →
      wp (plain D clock) (writeOneBlock iocb iter) (fun r m' =>
        if r.1 < 0 then Post r m'
        else 0 < r.1 ∧ Inv (total + r.1.toNat) r.2.1 r.2.2 m') m)
    (leaves : ∀ iocb iter m, Inv len iocb iter m → Post ((len : Int), iocb, iter) m)
    {turns total : Nat} {iocb : Kiocb} {iter : IovIter} (enough : len < total + turns)
    (inv : Inv total iocb iter m) :
    wp (plain D clock) (writeBlocks len turns total iocb iter) Post m := by
  induction turns generalizing total iocb iter m with
  | zero =>
    have := bounded _ _ _ _ inv
    omega
  | succ turns ih =>
    simp only [writeBlocks, wp_ite, wp_bind, wp_pure]
    split
    case isTrue hlt =>
      apply wp_mono _ (goesOn total iocb iter m inv hlt)
      intro r m' hr
      split at hr
      case isTrue hneg =>
        rw [if_pos hneg]
        exact hr
      case isFalse hnonneg =>
        rw [if_neg hnonneg]
        exact ih (by omega) hr.2
    case isFalse hge =>
      obtain rfl : total = len := Nat.le_antisymm (bounded _ _ _ _ inv) (Nat.not_lt.mp hge)
      exact leaves iocb iter m inv

/-- Only the size of one VFS inode changed. -/
def OnlySize (m m' : Machine Store) (ref : Nat) : Prop := ∃ size, Resized m m' ref size

theorem OnlySize.of_same {m m' : Machine Store} (h : SameInodes m m') (ref : Nat) :
    OnlySize m m' ref := by
  refine ⟨(m.inodes ref).iSize, ?_, h.inodeCount⟩
  rw [h.inodes]
  funext r
  by_cases hr : r = ref
  · rw [hr, update_same]
  · rw [update_other _ _ hr]

theorem OnlySize.trans {m m' m'' : Machine Store} {ref : Nat} (h : OnlySize m m' ref)
    (h' : OnlySize m' m'' ref) : OnlySize m m'' ref := by
  obtain ⟨size, hinodes, hcount⟩ := h
  obtain ⟨size', hinodes', hcount'⟩ := h'
  refine ⟨size', ?_, hcount'.trans hcount⟩
  rw [hinodes', hinodes]
  funext r
  by_cases hr : r = ref
  · simp only [hr, update_same]
  · simp only [update_other _ _ hr]

theorem OnlySize.iIno {m m' : Machine Store} {ref : Nat} (h : OnlySize m m' ref) (r : Nat) :
    (m'.inodes r).iIno = (m.inodes r).iIno := by
  obtain ⟨size, hinodes, _⟩ := h
  rw [hinodes]
  by_cases hr : r = ref
  · simp only [hr, update_same]
  · simp only [update_other _ _ hr]

theorem positioned_inode (m : Machine Store) (iocb : Kiocb) :
    (positioned m iocb).inode = iocb.inode := by
  rw [positioned]
  split <;> rfl

/-- Whatever a block's write returns, the file was rewritten in place. -/
theorem BlockResult.fileWritten {m m' : Machine Store} {iocb : Kiocb} {iter : IovIter} {n : Nat}
    {b : Block} {r : Int × Kiocb × IovIter} (h : BlockResult m iocb iter n b r m')
    (valid : Valid m.disk) (forest : IsForest m.disk.content) (hn : m.disk.content n = some b)
    (hb : isDat b = false) :
    (∃ b', FileWritten m.disk m'.disk n b b') ∧ OnlySize m m' iocb.inode := by
  cases h with
  | tooBig _ hdisk hinodes =>
    rw [hdisk]
    exact ⟨⟨b, FileWritten.refl valid forest hn hb⟩, OnlySize.of_same hinodes _⟩
  | fault _ hwritten _ _ hresized => exact ⟨⟨_, hwritten⟩, _, hresized⟩
  | written _ _ hwritten _ hresized => exact ⟨⟨_, hwritten.toFileWritten⟩, _, hresized⟩

/-- A write to a file, at any position and with any outcome, rewrites the file in place. -/
theorem wp_hodoSubFileWriteIter {iocb : Kiocb} {iter : IovIter} {n : Nat} {b : Block}
    (hino : (m.inodes iocb.inode).iIno % 2 ^ 32 = n) (valid : Valid m.disk)
    (forest : IsForest m.disk.content) (hn : m.disk.content n = some b) (hb : isDat b = false) :
    wp (plain D clock) (hodoSubFileWriteIter iocb iter)
      (fun _ m' => (∃ b', FileWritten m.disk m'.disk n b b') ∧ OnlySize m m' iocb.inode) m := by
  apply wp_writeBlocks (fun total iocb' iter' m' => total + iter'.count = iter.count ∧
      iocb'.inode = iocb.inode ∧ (∃ b', FileWritten m.disk m'.disk n b b') ∧
      OnlySize m m' iocb.inode)
  · rintro total _ _ _ ⟨hcount, _⟩
    omega
  · rintro total iocb' iter' m' ⟨hcount, hinode, ⟨b', hwritten⟩, hsize⟩ hlt
    have hino' : (m'.inodes iocb'.inode).iIno % 2 ^ 32 = n := by
      rw [hinode, hsize.iIno]
      exact hino
    apply wp_mono _ (wp_writeOneBlock hino' (by omega) hwritten.valid hwritten.forest
      hwritten.inode hwritten.isInode)
    intro r m'' hr
    obtain ⟨⟨b'', hwritten'⟩, hsize'⟩ :=
      hr.fileWritten hwritten.valid hwritten.forest hwritten.inode hwritten.isInode
    rw [positioned_inode, hinode] at hsize'
    have hdone : (∃ b', FileWritten m.disk m''.disk n b b') ∧ OnlySize m m'' iocb.inode :=
      ⟨⟨b'', hwritten.trans hwritten'⟩, hsize.trans hsize'⟩
    cases hr with
    | tooBig => exact hdone
    | fault => exact hdone
    | written =>
      have hpos := pieceLen_pos (positioned m' iocb') (show 0 < iter'.count by omega)
      have hle := pieceLen_le (positioned m' iocb') iter'
      rw [if_neg (by simp)]
      refine ⟨by simpa using hpos, ?_, (positioned_inode m' iocb').trans hinode, hdone⟩
      simp only [IovIter.advance, IovIter.count, List.length_drop, Int.toNat_natCast] at hcount ⊢
      omega
  · rintro _ _ _ ⟨_, _, hdone⟩
    exact hdone
  · omega
  · exact ⟨by omega, rfl, ⟨b, FileWritten.refl valid forest hn hb⟩,
      OnlySize.of_same (SameInodes.refl m) _⟩

end FileWrites
