import HodoZns.SlotUpdates

/-!
# Writing one block of a file

What `write_one_block` and its helpers do to the tree below a pointer: the data
block at the position is there afterwards with the new piece in it, and every
other data block is found with the data it had.
-/

namespace TreeWrites

open ByteBlock Layout BlockLog ZoneLog LogStore Programs Kernel StoreMachine FileBlocks Ancestry
open BlockForest BlockFields SlotUpdates

def dataByte (o : Option Block) (j : Nat) : UInt8 :=
  match o with
  | some b => byteAt b (hodoDataStart + j)
  | none => 0

/-- The bytes that one block takes. -/
def pieceLen (iocb : Kiocb) (iter : IovIter) : Nat :=
  min (hodoDataSize - u64 iocb.kiPos % hodoDataSize) iter.count

/-- The block is kept up to the position, and what was behind it is gone. -/
def pieceByte (old : Nat → UInt8) (iocb : Kiocb) (iter : IovIter) (j : Nat) : UInt8 :=
  let leftLen := u64 iocb.kiPos % hodoDataSize
  if j < leftLen then old j else (iter.bytes.take (pieceLen iocb iter)).getD (j - leftLen) 0

def IovIter.advance (iter : IovIter) (len : Nat) : IovIter :=
  ⟨iter.bytes.drop len, iter.readable - len⟩

theorem pieceLen_eq (iocb : Kiocb) (iter : IovIter) :
    (if hodoDataSize ≤ iter.count + u64 iocb.kiPos % hodoDataSize
      then hodoDataSize - u64 iocb.kiPos % hodoDataSize else iter.count) = pieceLen iocb iter := by
  simp only [pieceLen, hodoDataSize_eq]
  split <;> omega

theorem pieceLen_le (iocb : Kiocb) (iter : IovIter) : pieceLen iocb iter ≤ iter.bytes.length :=
  Nat.min_le_right _ _

theorem pieceLen_pos (iocb : Kiocb) {iter : IovIter} (h : 0 < iter.count) :
    0 < pieceLen iocb iter := by
  simp only [pieceLen, hodoDataSize_eq]
  omega

/-- The block that `write_one_block_by_direct_block` puts together. -/
def pieceBlock (current : Block) (leftLen : Nat) (piece : List UInt8) : Block :=
  copyIn
    (copyIn (putMagic zeros (chr 'D') (chr 'A') (chr 'T') (chr '0')) hodoDataStart leftLen fun i =>
      byteAt current (hodoDataStart + i))
    (hodoDataStart + leftLen) piece.length fun i => piece.getD i 0

theorem hasLevel_pieceBlock (current : Block) (leftLen : Nat) (piece : List UInt8) :
    HasLevel (pieceBlock current leftLen piece) 0 := by
  have hmagic : HasLevel (putMagic zeros (chr 'D') (chr 'A') (chr 'T') (chr '0')) 0 :=
    hasLevel_putMagic zeros (Nat.zero_le 3)
  apply HasLevel.congr hmagic
  intro i hi
  simp only [pieceBlock, hodoDataStart_eq]
  rw [byteAt_copyIn_outside _ _ (by omega), byteAt_copyIn_outside _ _ (by omega)]

theorem dataByte_pieceBlock (current : Block) {leftLen : Nat} (piece : List UInt8) {j : Nat}
    (hj : j < 4088) :
    byteAt (pieceBlock current leftLen piece) (hodoDataStart + j) =
      if j < leftLen then byteAt current (hodoDataStart + j) else piece.getD (j - leftLen) 0 := by
  simp only [pieceBlock, hodoDataStart_eq]
  by_cases hleft : j < leftLen
  · rw [if_pos hleft, byteAt_copyIn_outside _ _ (by omega),
      byteAt_copyIn_inside _ _ (by omega) (by omega) (by omega), Nat.add_sub_cancel_left]
  · rw [if_neg hleft]
    by_cases hin : j - leftLen < piece.length
    · rw [byteAt_copyIn_inside _ _ (by omega) (by omega) (by omega)]
      congr 1
      omega
    · rw [byteAt_copyIn_outside _ _ (by omega), byteAt_copyIn_outside _ _ (by omega),
        byteAt_putMagic _ _ _ _ _ (by omega), byteAt_zeros,
        List.getD_eq_getElem?_getD, List.getElem?_eq_none (by omega), Option.getD_none]

/-- The data block at `off` of the tree of depth `k` was rewritten. -/
structure TreeWritten (s s' : Store) (k p q off : Nat) (new : Nat → UInt8) : Prop
    extends Below s s' k p q where
  grown : s.content (walk s.content k p off) = none → s.count < s'.count
  there : s'.content (walk s'.content k q off) ≠ none
  data : ∀ j, j < 4088 → dataByte (s'.content (walk s'.content k q off)) j = new j
  others : ∀ o, o < numOfBlockPoses ^ k → o ≠ off →
    s'.content (walk s'.content k q o) = s.content (walk s.content k p o)

structure SameInodes (m m' : Machine Store) : Prop where
  inodes : m'.inodes = m.inodes
  inodeCount : m'.inodeCount = m.inodeCount

theorem SameInodes.refl (m : Machine Store) : SameInodes m m := ⟨rfl, rfl⟩

theorem SameInodes.trans {m m' m'' : Machine Store} (h : SameInodes m m')
    (h' : SameInodes m' m'') : SameInodes m m'' :=
  ⟨h'.inodes.trans h.inodes, h'.inodeCount.trans h.inodeCount⟩

/-- What the helpers of `write_one_block` return: an unreadable buffer leaves
the disk alone. -/
inductive PieceResult (m : Machine Store) (iocb : Kiocb) (iter : IovIter) (k p off : Nat) :
    Int × IovIter × Nat → Machine Store → Prop
  | fault {iter' : IovIter} {m' : Machine Store} : iter.readable < pieceLen iocb iter →
      m'.disk = m.disk → SameInodes m m' → PieceResult m iocb iter k p off (eFault, iter', p) m'
  | written {q : Nat} {m' : Machine Store} : pieceLen iocb iter ≤ iter.readable →
      TreeWritten m.disk m'.disk k p q off
        (pieceByte (dataByte (m.disk.content (walk m.disk.content k p off))) iocb iter) →
      SameInodes m m' →
      PieceResult m iocb iter k p off
        ((pieceLen iocb iter : Int), IovIter.advance iter (pieceLen iocb iter), q) m'

theorem PieceResult.of_later {m m' : Machine Store} {iocb : Kiocb} {iter : IovIter} {k p off : Nat}
    {r : Int × IovIter × Nat} (h : PieceResult (Machine.later m) iocb iter k p off r m') :
    PieceResult m iocb iter k p off r m' := by
  cases h with
  | fault hshort hdisk hinodes =>
    exact PieceResult.fault hshort hdisk ⟨hinodes.inodes, hinodes.inodeCount⟩
  | written hread tree hinodes =>
    exact PieceResult.written hread tree ⟨hinodes.inodes, hinodes.inodeCount⟩

/-- The buffer for the block under `p`: its contents, or an empty block of its level. -/
structure Buffers (c : Nat → Option Block) (k p : Nat) (current : Block) : Prop where
  level : HasLevel current k
  present : p ≠ 0 → c p = some current
  absent : p = 0 → current = template k

theorem Buffers.rootOf {c : Nat → Option Block} {k p : Nat} {current : Block}
    (h : Buffers c k p current) : RootOf c p k := by
  by_cases hp : p = 0
  · exact Or.inl hp
  · exact Or.inr ⟨current, h.present hp, h.level⟩

theorem Buffers.no_slot {c : Nat → Option Block} {k p : Nat} {current : Block}
    (h : Buffers c k p current) (hp : p = 0) (j r l : Nat) : ¬ Slot current j r l := by
  rw [h.absent hp]
  exact no_slot_of_template

theorem Buffers.child {c : Nat → Option Block} {k p : Nat} {current : Block}
    (h : Buffers c k p current) (h0 : c 0 = none) (i : Nat) :
    child c p i = blockPtr current i := by
  by_cases hp : p = 0
  · rw [hp, child_of_none h0, h.absent hp, blockPtr_template]
  · rw [BlockForest.child, h.present hp]

theorem Buffers.data {c : Nat → Option Block} {p : Nat} {current : Block}
    (h : Buffers c 0 p current) (h0 : c 0 = none) (j : Nat) :
    byteAt current (hodoDataStart + j) = dataByte (c p) j := by
  by_cases hp : p = 0
  · rw [hp, h0, h.absent hp, byteAt_template 0 (by simp; omega)]
    rfl
  · rw [h.present hp]
    rfl

theorem treeWritten_data {s s' : Store} {p q : Nat} {current : Block} {iocb : Kiocb}
    {iter : IovIter} (valid : Valid s) (forest : IsForest s.content)
    (buffers : Buffers s.content 0 p current)
    (put : Put s s' (pieceBlock current (u64 iocb.kiPos % hodoDataSize)
      (iter.bytes.take (pieceLen iocb iter))) p q) :
    TreeWritten s s' 0 p q 0 (pieceByte (dataByte (s.content p)) iocb iter) := by
  have level : HasLevel (stamp (pieceBlock current (u64 iocb.kiPos % hodoDataSize)
      (iter.bytes.take (pieceLen iocb iter))) q) 0 :=
    hasLevel_stamp (hasLevel_pieceBlock _ _ _) q
  refine ⟨below_of_put valid forest buffers.rootOf level put, fun hnone => ?_, ?_,
    fun j hj => ?_, fun o ho hne => ?_⟩
  · have hp : p = 0 := by
      by_contra hp
      rw [walk, buffers.present hp] at hnone
      cases hnone
    exact put.count_lt hp
  · rw [walk, put.at_number]
    exact Option.some_ne_none _
  · rw [walk, put.at_number, dataByte, byteAt_stamp _ _ (by simp),
      dataByte_pieceBlock current _ hj, buffers.data valid.content_zero j]
    rfl
  · rw [Nat.pow_zero] at ho
    omega

theorem treeWritten_index {s s₁ s₂ : Store} {k n L off q : Nat} {current : Block}
    {new : Nat → UInt8} (valid : Valid s) (forest : IsForest s.content)
    (buffers : Buffers s.content (k + 1) n current) (hoff : off < numOfBlockPoses ^ (k + 1))
    (below : TreeWritten s s₁ k (blockPtr current (off / numOfBlockPoses ^ k)) q
      (off % numOfBlockPoses ^ k) new)
    (put : Put s₁ s₂ (putBlockPtr current (off / numOfBlockPoses ^ k) q) n L) :
    TreeWritten s s₂ (k + 1) n L off new := by
  have hi := index_lt hoff
  have h0 := valid.content_zero
  have hchild := buffers.child h0
  have above : Above s s₁ s₂ k n L (off / numOfBlockPoses ^ k)
      (blockPtr current (off / numOfBlockPoses ^ k)) q current
      (putBlockPtr current (off / numOfBlockPoses ^ k) q) :=
    ⟨valid, forest, buffers.present, buffers.no_slot, below.toBelow,
      replaces_index buffers.level hi below.lt L, put⟩
  have hchild₂ : ∀ j, child s₂.content L j =
      if j = off / numOfBlockPoses ^ k then q else blockPtr current j := by
    intro j
    rw [BlockForest.child, put.at_number]
    exact (blockPtr_stamp _ _ _).trans (blockPtr_putBlockPtr current hi below.lt j)
  -- the tree below the rewritten pointer is the one of the first write
  have hbelow : ∀ {o}, o < numOfBlockPoses ^ k →
      s₂.content (walk s₂.content k q o) = s₁.content (walk s₁.content k q o) := by
    intro o ho
    obtain ⟨hwalk, hsame⟩ := walk_congr below.forest below.valid.content_zero
      put.valid.content_zero (Or.inr below.holds) ho fun x hx hreach => above.same_below hx hreach
    rw [hwalk, hsame]
  have hhere : s₂.content (walk s₂.content (k + 1) L off) =
      s₁.content (walk s₁.content k q (off % numOfBlockPoses ^ k)) := by
    rw [walk, hchild₂, if_pos rfl, hbelow (rest_lt off k)]
  refine ⟨above.toBelow (hasLevel_stamp (hasLevel_putBlockPtr buffers.level _ q) L),
    fun hnone => ?_, ?_, fun j hj => ?_, fun o ho hne => ?_⟩
  · rw [walk, hchild] at hnone
    exact Nat.lt_of_lt_of_le (below.grown hnone) put.count_le
  · rw [hhere]
    exact below.there
  · rw [hhere]
    exact below.data j hj
  · have hrest := rest_lt o k
    rw [walk, walk, hchild₂, hchild]
    by_cases hj : o / numOfBlockPoses ^ k = off / numOfBlockPoses ^ k
    · rw [if_pos hj, hbelow hrest, hj]
      apply below.others _ hrest
      intro hmod
      apply hne
      rw [← Nat.div_add_mod o (numOfBlockPoses ^ k), hj, hmod, Nat.div_add_mod]
    · rw [if_neg hj]
      by_cases hr : blockPtr current (o / numOfBlockPoses ^ k) = 0
      · rw [hr, walk_zero h0, walk_zero put.valid.content_zero, h0, put.valid.content_zero]
      · have hslot := Slot.index buffers.level (index_lt ho) hr
        obtain ⟨hwalk, hsame⟩ := walk_congr forest h0 put.valid.content_zero
          (Or.inr (forest.target (above.edge_of_slot hslot).2)) hrest
          fun x hx hreach => above.same_beside hslot hj hx hreach
        rw [hwalk, hsame]

variable {D : Disk Store} [KeepsBlocks D] {clock : Nat → Timespec} {E : Env} {m : Machine Store}

theorem wp_writeOneBlockByDirectBlock {iocb : Kiocb} {iter : IovIter} {p : Nat} {current : Block}
    (valid : Valid m.disk) (forest : IsForest m.disk.content)
    (buffers : Buffers m.disk.content 0 p current) :
    wp (plain D clock) (writeOneBlockByDirectBlock iocb iter p current)
      (PieceResult m iocb iter 0 p 0) m := by
  have hle := pieceLen_le iocb iter
  simp only [writeOneBlockByDirectBlock, wp_bind, wp_kmalloc, IovIter.copyFrom, pieceLen_eq,
    List.length_take, wp_ite, wp_pure]
  split
  case isTrue hshort =>
    exact PieceResult.fault (by omega) rfl ⟨rfl, rfl⟩
  case isFalse hfull =>
    have hread : pieceLen iocb iter ≤ iter.readable := by omega
    have hmin : min (pieceLen iocb iter) iter.readable = pieceLen iocb iter := by omega
    have hlen : min (pieceLen iocb iter) iter.bytes.length = pieceLen iocb iter := by omega
    have hblock : pieceBlock current (u64 iocb.kiPos % hodoDataSize)
        (iter.bytes.take (pieceLen iocb iter)) =
        copyIn (copyIn (putMagic zeros (chr 'D') (chr 'A') (chr 'T') (chr '0')) hodoDataStart
          (u64 iocb.kiPos % hodoDataSize) fun i => byteAt current (hodoDataStart + i))
          (hodoDataStart + u64 iocb.kiPos % hodoDataSize) (pieceLen iocb iter)
          fun i => (iter.bytes.take (pieceLen iocb iter)).getD i 0 := by
      rw [pieceBlock, List.length_take, hlen]
    simp only [hmin, hlen, ← hblock]
    apply wp_hodoRewrite_dat (m := Machine.later m) valid
      (fun hp => by rw [later_disk, buffers.present hp]; exact Option.some_ne_none _)
      (hasLevel_pieceBlock _ _ _).dat
    intro q s' put
    exact PieceResult.written hread (treeWritten_data valid forest buffers put) ⟨rfl, rfl⟩

theorem isIndexBlock_iff {b : Block} {k : Nat} (level : HasLevel b k) {j : Nat} (hj : j ≤ 3)
    {d : Char} (hd : chr d = digit j) : isIndexBlock b d = true ↔ k = j := by
  simp only [isIndexBlock, level.dat, level.eq, hd, Bool.true_and, beq_iff_eq]
  exact ⟨fun h => digit_inj level.le hj h, fun h => by rw [h]⟩

theorem isDirectblock_iff {b : Block} {k : Nat} (level : HasLevel b k) :
    isDirectblock b = true ↔ k = 0 := by
  have hzero : chr '0' = digit 0 := rfl
  simp only [isDirectblock, level.eq, hzero, beq_iff_eq]
  exact ⟨fun h => digit_inj level.le (Nat.zero_le 3) h, fun h => by rw [h]⟩

theorem level_pred {b : Block} {k : Nat} (level : HasLevel b (k + 1)) :
    Layout.level b - 1 = digit k := by
  have hle := level.le
  rw [level.eq]
  have hcases : k = 0 ∨ k = 1 ∨ k = 2 := by omega
  rcases hcases with rfl | rfl | rfl <;> rfl

/-- The regions and the digits of the source agree on the way down the tree. -/
theorem blockPosIndex_ok {index k : Nat} {f : Field} {current : Block}
    (hf : fieldOf index = some f) (level : HasLevel current (k + 1))
    (hk : k + 1 ≤ Field.depth f) :
    blockPosIndex index current =
      .ok ((index - Field.start f) % numOfBlockPoses ^ (k + 1) / numOfBlockPoses ^ k) := by
  have h1 := isIndexBlock_iff level (by omega) (show chr '1' = digit 1 from rfl)
  have h2 := isIndexBlock_iff level (by omega) (show chr '2' = digit 2 from rfl)
  have h3 := isIndexBlock_iff level (by omega) (show chr '3' = digit 3 from rfl)
  obtain ⟨_, _, hstart, hlt⟩ := fieldOf_spec hf
  cases f with
  | direct i => simp [Field.depth] at hk
  | singleIndirect =>
    obtain rfl : k = 0 := by simp [Field.depth] at hk; omega
    simp only [Field.start, Field.depth, singleStart_eq, numOfBlockPoses_eq] at hstart hlt ⊢
    simp only [blockPosIndex, singleStart_eq, doubleStart_eq]
    rw [if_neg (by omega), if_pos (by omega)]
    simp only [Nat.zero_add, pow_one, pow_zero, Nat.div_one]
    rw [Nat.mod_eq_of_lt (by omega)]
  | doubleIndirect =>
    have hcases : k = 0 ∨ k = 1 := by simp [Field.depth] at hk; omega
    simp only [Field.start, Field.depth, doubleStart_eq, numOfBlockPoses_eq] at hstart hlt ⊢
    simp only [blockPosIndex, singleStart_eq, doubleStart_eq, tripleStart_eq, numOfBlockPoses_eq]
    rw [if_neg (by omega), if_neg (by omega), if_pos (by omega)]
    rcases hcases with rfl | rfl
    · rw [if_neg (by simp [h2]), if_pos (by simp [h1])]
      simp
    · rw [if_pos (by simp [h2]), Nat.mod_eq_of_lt (by simpa using hlt), pow_one]
  | tripleIndirect =>
    have hcases : k = 0 ∨ k = 1 ∨ k = 2 := by simp [Field.depth] at hk; omega
    simp only [Field.start, Field.depth, tripleStart_eq, numOfBlockPoses_eq] at hstart hlt ⊢
    simp only [blockPosIndex, singleStart_eq, doubleStart_eq, tripleStart_eq, blocksPerFile_eq,
      numOfBlockPoses_eq]
    rw [if_neg (by omega), if_neg (by omega), if_neg (by omega), if_pos (by omega)]
    rcases hcases with rfl | rfl | rfl
    · rw [if_neg (by simp [h3]), if_neg (by simp [h2]), if_pos (by simp [h1])]
      simp
    · rw [if_neg (by simp [h3]), if_pos (by simp [h2]), pow_succ, pow_one,
        Nat.mod_mul_right_div_self]
    · rw [if_pos (by simp [h3]), Nat.mod_eq_of_lt (by simpa using hlt), Nat.div_div_eq_div_mul,
        ← pow_two]

theorem wp_readOrMake {p k : Nat} {Q : Block → Machine Store → Prop} (valid : Valid m.disk)
    (root : RootOf m.disk.content p k) (hk : k ≤ 3)
    (post : ∀ t, Buffers m.disk.content k p t → Q t m) :
    wp (machine D E) (readOrMake p (digit k) zeros) Q m := by
  rw [readOrMake]
  rcases root with rfl | ⟨t, ht, level⟩
  · rw [if_neg (by simp), wp_pure]
    exact post _ ⟨hasLevel_template hk, fun h => absurd rfl h, fun _ => rfl⟩
  · have hp := valid.ne_zero (valid.used ht)
    rw [if_pos hp]
    apply (wp_hodoRead_some valid ht zeros Q).mpr
    exact post t ⟨level, fun _ => ht, fun h => absurd h hp⟩

/-- What an index block's writer does once the block below is written. -/
theorem wp_writeIndexBlock {iocb : Kiocb} {iter : IovIter} {p off k : Nat} {current : Block}
    {m' : Machine Store} {r : Int × IovIter × Nat} (valid : Valid m.disk)
    (forest : IsForest m.disk.content) (count : 0 < iter.count)
    (buffers : Buffers m.disk.content (k + 1) p current)
    (hoff : off < numOfBlockPoses ^ (k + 1))
    (below : PieceResult m iocb iter k (blockPtr current (off / numOfBlockPoses ^ k))
      (off % numOfBlockPoses ^ k) r m') :
    wp (plain D clock)
      (if 0 < r.1 ∧ r.2.2 ≠ 0 then do
        let (_, n) ← hodoWrite (putBlockPtr current (off / numOfBlockPoses ^ k) r.2.2) p
        pure (r.1, r.2.1, n)
      else pure (r.1, r.2.1, p))
      (PieceResult m iocb iter (k + 1) p off) m' := by
  have hpos := pieceLen_pos iocb count
  cases below with
  | fault hshort hdisk hinodes =>
    rw [if_neg (by simp [eFault]), wp_pure]
    exact PieceResult.fault hshort hdisk hinodes
  | @written q m' hread tree hinodes =>
    have hcond : 0 < (pieceLen iocb iter : Int) ∧ q ≠ 0 := ⟨by omega, tree.ne_zero⟩
    rw [if_pos hcond]
    simp only [wp_bind, wp_pure]
    have level := hasLevel_putBlockPtr buffers.level (off / numOfBlockPoses ^ k) q
    apply wp_hodoRewrite_dat tree.valid (fun hp => ?_) level.dat
    · intro L s' put
      have hdata : walk m.disk.content k (blockPtr current (off / numOfBlockPoses ^ k))
          (off % numOfBlockPoses ^ k) = walk m.disk.content (k + 1) p off := by
        rw [walk, buffers.child valid.content_zero]
      rw [hdata] at tree
      exact PieceResult.written hread (treeWritten_index valid forest buffers hoff tree put)
        ⟨hinodes.inodes, hinodes.inodeCount⟩
    · exact tree.stays p (by rw [buffers.present hp]; exact Option.some_ne_none _)

/-- An index block's writer, once its helper for the block below is known to work. -/
theorem wp_indirect_step {iocb : Kiocb} {iter : IovIter} {f : Field} {k depth p : Nat}
    {current : Block} (hf : fieldOf (dataBlockIndex iocb) = some f) (hk : k + 1 ≤ Field.depth f)
    (count : 0 < iter.count) (valid : Valid m.disk) (forest : IsForest m.disk.content)
    (buffers : Buffers m.disk.content (k + 1) p current)
    (helper : ∀ q t, Buffers m.disk.content k q t →
      wp (plain D clock)
        (if isDirectblock t then writeOneBlockByDirectBlock iocb iter q t
        else writeOneBlockByIndirectBlock depth iocb iter q t)
        (PieceResult (Machine.later m) iocb iter k q
          ((dataBlockIndex iocb - Field.start f) % numOfBlockPoses ^ k)) (Machine.later m)) :
    wp (plain D clock) (writeOneBlockByIndirectBlock (depth + 1) iocb iter p current)
      (PieceResult m iocb iter (k + 1) p
        ((dataBlockIndex iocb - Field.start f) % numOfBlockPoses ^ (k + 1))) m := by
  have hoff := rest_lt (dataBlockIndex iocb - Field.start f) (k + 1)
  have hmod : (dataBlockIndex iocb - Field.start f) % numOfBlockPoses ^ (k + 1) %
      numOfBlockPoses ^ k = (dataBlockIndex iocb - Field.start f) % numOfBlockPoses ^ k :=
    Nat.mod_mod_of_dvd _ (Nat.pow_dvd_pow _ (Nat.le_succ k))
  have hlevel := buffers.level.le
  have hroot := child_rootOf forest valid.content_zero buffers.rootOf (index_lt hoff)
  rw [buffers.child valid.content_zero] at hroot
  simp only [writeOneBlockByIndirectBlock, blockPosIndex_ok hf buffers.level hk, wp_bind,
    wp_kmalloc, level_pred buffers.level]
  apply wp_readOrMake (m := Machine.later m) valid hroot (by omega)
  intro t ht
  have hhelper := helper _ t ht
  rw [← hmod] at hhelper
  split at hhelper
  case isTrue hdirect =>
    rw [if_pos hdirect, wp_bind]
    exact wp_mono (fun r m' hr => wp_writeIndexBlock valid forest count buffers hoff hr.of_later)
      hhelper
  case isFalse hindex =>
    rw [if_neg hindex, wp_bind]
    exact wp_mono (fun r m' hr => wp_writeIndexBlock valid forest count buffers hoff hr.of_later)
      hhelper

theorem wp_writeOneBlockByIndirectBlock {iocb : Kiocb} {iter : IovIter} {f : Field}
    {k depth p : Nat}
    {current : Block} (hdepth : k < depth) (hf : fieldOf (dataBlockIndex iocb) = some f)
    (hk : k + 1 ≤ Field.depth f) (count : 0 < iter.count) (valid : Valid m.disk)
    (forest : IsForest m.disk.content) (buffers : Buffers m.disk.content (k + 1) p current) :
    wp (plain D clock) (writeOneBlockByIndirectBlock depth iocb iter p current)
      (PieceResult m iocb iter (k + 1) p
        ((dataBlockIndex iocb - Field.start f) % numOfBlockPoses ^ (k + 1))) m := by
  induction k generalizing m depth p current with
  | zero =>
    obtain ⟨depth, rfl⟩ : ∃ d, depth = d + 1 := ⟨depth - 1, by omega⟩
    apply wp_indirect_step hf hk count valid forest buffers
    intro q t ht
    rw [if_pos ((isDirectblock_iff ht.level).mpr rfl), pow_zero, Nat.mod_one]
    exact wp_writeOneBlockByDirectBlock (m := Machine.later m) valid forest ht
  | succ k ih =>
    obtain ⟨depth, rfl⟩ : ∃ d, depth = d + 1 := ⟨depth - 1, by omega⟩
    apply wp_indirect_step hf hk count valid forest buffers
    intro q t ht
    have hindex : ¬ isDirectblock t = true := fun h => by
      have := (isDirectblock_iff ht.level).mp h
      omega
    rw [if_neg hindex]
    exact ih (m := Machine.later m) (by omega) (by omega) valid forest ht

end TreeWrites
