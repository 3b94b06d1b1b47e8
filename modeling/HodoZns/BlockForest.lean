import HodoZns.Ancestry
import HodoZns.FileBlocks

/-!
# The forest of blocks

The blocks under an inode are reached through the pointers of the inode and of
index blocks. In a forest every pointer leads to a block of the level it is
meant for, and no two pointers lead to the same block.
-/

namespace BlockForest

open ByteBlock Layout Kernel FileBlocks Ancestry

def digit (k : Nat) : UInt8 := UInt8.ofNat (48 + k)

/-- A block that calls itself an index block of level `k`, or a data block for `k = 0`. -/
structure HasLevel (b : Block) (k : Nat) : Prop where
  dat : isDat b = true
  le : k ≤ 3
  eq : level b = digit k

theorem digit_inj {j k : Nat} (hj : j ≤ 3) (hk : k ≤ 3) (h : digit j = digit k) : j = k := by
  have hnat := congrArg UInt8.toNat h
  simp only [digit, UInt8.toNat_ofNat'] at hnat
  omega

theorem HasLevel.unique {b : Block} {j k : Nat} (hj : HasLevel b j) (hk : HasLevel b k) : j = k :=
  digit_inj hj.le hk.le (hj.eq.symm.trans hk.eq)

/-- The pointer fields of an inode, numbered: ten direct ones and three index trees. -/
def inodePtr (b : Block) (i : Nat) : Nat := getLE b (104 + 4 * i) 4

/-- `Slot b i p k`: pointer `i` of the block is set to `p`, for a block of level `k`. -/
inductive Slot (b : Block) : Nat → Nat → Nat → Prop
  | field {i : Nat} : isDat b = false → i < 13 → inodePtr b i ≠ 0 → Slot b i (inodePtr b i) (i - 9)
  | index {i k : Nat} : HasLevel b (k + 1) → i < numOfBlockPoses → blockPtr b i ≠ 0 →
      Slot b i (blockPtr b i) k

theorem Slot.ne_zero {b : Block} {i p k : Nat} (h : Slot b i p k) : p ≠ 0 := by
  cases h with
  | field _ _ hp => exact hp
  | index _ _ hp => exact hp

theorem Slot.of_inode {b : Block} {i p k : Nat} (h : Slot b i p k) (hb : isDat b = false) :
    i < 13 ∧ inodePtr b i = p ∧ k = i - 9 := by
  cases h with
  | field _ hi _ => exact ⟨hi, rfl, rfl⟩
  | index hlevel _ _ => exact absurd (hlevel.dat.symm.trans hb) (by decide)

theorem Slot.of_dat {b : Block} {i p k : Nat} (h : Slot b i p k) (hb : isDat b = true) :
    HasLevel b (k + 1) ∧ i < numOfBlockPoses ∧ blockPtr b i = p := by
  cases h with
  | field hdat _ _ => exact absurd (hb.symm.trans hdat) (by decide)
  | index hlevel hi _ => exact ⟨hlevel, hi, rfl⟩

theorem no_slot_of_data {b : Block} (hb : HasLevel b 0) {i p k : Nat} : ¬ Slot b i p k := by
  intro h
  have := (h.of_dat hb.dat).1.unique hb
  omega

section Contents

variable {c c' : Nat → Option Block} {a i k n p x : Nat}

def PointsTo (c : Nat → Option Block) (a i p k : Nat) : Prop := ∃ b, c a = some b ∧ Slot b i p k

def Edge (c : Nat → Option Block) (a p : Nat) : Prop := ∃ i k, PointsTo c a i p k

def Orphan (c : Nat → Option Block) (p : Nat) : Prop := ∀ a i k, ¬ PointsTo c a i p k

def Holds (c : Nat → Option Block) (p k : Nat) : Prop := ∃ d, c p = some d ∧ HasLevel d k

/-- Blocks and pointers stay, and the blocks that are new are below `n`. -/
structure Grown (c c' : Nat → Option Block) (n : Nat) : Prop where
  stays : ∀ {x}, c x ≠ none → c' x ≠ none
  edges : ∀ {a x}, Edge c a x → Edge c' a x
  added : ∀ {x}, c' x ≠ none → c x = none → Reach (Edge c') n x

theorem Grown.reach (h : Grown c c' n) {x y : Nat} (hxy : Reach (Edge c) x y) :
    Reach (Edge c') x y :=
  Relation.ReflTransGen.mono (fun _ _ hedge => h.edges hedge) _ _ hxy

theorem Grown.refl (c : Nat → Option Block) (n : Nat) : Grown c c n :=
  ⟨fun hx => hx, fun hedge => hedge, fun hx hnone => absurd hnone hx⟩

theorem Grown.trans {c'' : Nat → Option Block} (h : Grown c c' n) (h' : Grown c' c'' n) :
    Grown c c'' n := by
  refine ⟨fun hx => h'.stays (h.stays hx), fun hedge => h'.edges (h.edges hedge),
    fun {x} hx hnone => ?_⟩
  by_cases hnone' : c' x = none
  · exact h'.added hx hnone'
  · exact h'.reach (h.added hnone' hnone)

structure IsForest (c : Nat → Option Block) : Prop where
  levels : ∀ {a b}, c a = some b → isDat b = true → ∃ k, HasLevel b k
  target : ∀ {a i p k}, PointsTo c a i p k → Holds c p k
  owner : ∀ {a i p k a' i' k'}, PointsTo c a i p k → PointsTo c a' i' p k' → a = a' ∧ i = i'

/-- Inodes stand above all index blocks. -/
def rank (c : Nat → Option Block) (a : Nat) : Nat :=
  match c a with
  | none => 0
  | some b => if isDat b then (level b).toNat - 48 else 4

theorem rank_of_level {b : Block} (hb : c a = some b) (hlevel : HasLevel b k) : rank c a = k := by
  have hle := hlevel.le
  simp only [rank, hb, hlevel.dat, if_true, hlevel.eq, digit, UInt8.toNat_ofNat']
  omega

theorem rank_lt_of_slot {b : Block} (hb : c a = some b) (h : Slot b i p k) : k < rank c a := by
  cases h with
  | field hdat hi _ =>
    simp only [rank, hb, hdat, Bool.false_eq_true, if_false]
    omega
  | index hlevel _ _ =>
    rw [rank_of_level hb hlevel]
    exact Nat.lt_succ_self _

theorem IsForest.forest (h : IsForest c) : Forest (Edge c) (rank c) where
  owner := by
    rintro a b d ⟨i, k, had⟩ ⟨j, l, hbd⟩
    exact (h.owner had hbd).1
  falls := by
    rintro a b ⟨i, k, hab⟩
    obtain ⟨d, hd, hlevel⟩ := h.target hab
    obtain ⟨b', hb', hslot⟩ := hab
    rw [rank_of_level hd hlevel]
    exact rank_lt_of_slot hb' hslot

theorem pointsTo_of_none (hc : c a = none) : ¬ PointsTo c a i p k := by
  rintro ⟨b, hb, _⟩
  rw [hc] at hb
  cases hb

theorem IsForest.orphan_of_none (h : IsForest c) (hc : c p = none) : Orphan c p := by
  intro a i k hp
  obtain ⟨d, hd, _⟩ := h.target hp
  rw [hc] at hd
  cases hd

theorem IsForest.orphan_of_inode (h : IsForest c) {b : Block} (hb : c p = some b)
    (hdat : isDat b = false) : Orphan c p := by
  intro a i k hp
  obtain ⟨d, hd, hlevel⟩ := h.target hp
  obtain rfl := Option.some.inj (hb.symm.trans hd)
  exact absurd (hlevel.dat.symm.trans hdat) (by decide)

theorem Orphan.no_edge (h : Orphan c p) (a : Nat) : ¬ Edge c a p := fun ⟨i, k, hp⟩ => h a i k hp

/-- What is reached from a block is there. -/
theorem IsForest.reach_some (h : IsForest c) (hx : Reach (Edge c) n x) (hn : c n ≠ none) :
    c x ≠ none := by
  induction hx with
  | refl => exact hn
  | tail _ hedge _ =>
    obtain ⟨i, k, hp⟩ := hedge
    obtain ⟨d, hd, _⟩ := h.target hp
    rw [hd]
    exact Option.some_ne_none d

theorem eq_of_reach_none (hn : c n = none) (hx : Reach (Edge c) n x) : x = n := by
  rcases Relation.ReflTransGen.cases_head hx with heq | ⟨d, ⟨i, k, hp⟩, _⟩
  · exact heq.symm
  · exact absurd hp (pointsTo_of_none hn)

theorem pointsTo_update {b : Block} {L : Nat} :
    PointsTo (update c L (some b)) a i p k ↔
      a = L ∧ Slot b i p k ∨ a ≠ L ∧ PointsTo c a i p k := by
  by_cases ha : a = L
  · subst ha
    simp [PointsTo]
  · simp [PointsTo, ha]

/-- Writing a block keeps the forest when the block keeps its level and its
pointers, except for one that now leads to a block nothing else leads to. -/
theorem IsForest.put {b : Block} {L j : Nat} (h : IsForest c)
    (levels : isDat b = true → ∃ k, HasLevel b k)
    (kept : ∀ a i k, PointsTo c a i L k → HasLevel b k)
    (slots : ∀ i p k, Slot b i p k →
      PointsTo c L i p k ∨ i = j ∧ p ≠ L ∧ Orphan c p ∧ Holds c p k) :
    IsForest (update c L (some b)) := by
  have target : ∀ {p k}, (p = L → HasLevel b k) → Holds c p k →
      Holds (update c L (some b)) p k := by
    rintro p k hL ⟨d, hd, hlevel⟩
    by_cases hp : p = L
    · subst hp
      exact ⟨b, update_same _ _ _, hL rfl⟩
    · exact ⟨d, by rw [update_other _ _ hp, hd], hlevel⟩
  refine ⟨?_, ?_, ?_⟩
  · intro a b' hb' hdat
    simp only [update] at hb'
    split at hb'
    · obtain rfl := Option.some.inj hb'
      exact levels hdat
    · exact h.levels hb' hdat
  · intro a i p k hp
    rcases pointsTo_update.mp hp with ⟨rfl, hslot⟩ | ⟨ha, hold⟩
    · rcases slots i p k hslot with hold | ⟨_, hpL, _, hholds⟩
      · exact target (fun heq => kept _ _ _ (heq ▸ hold)) (h.target hold)
      · exact target (fun heq => absurd heq hpL) hholds
    · exact target (fun heq => kept _ _ _ (heq ▸ hold)) (h.target hold)
  · intro a i p k a' i' k' hp hp'
    rcases pointsTo_update.mp hp with ⟨rfl, hslot⟩ | ⟨ha, hold⟩
    · rcases pointsTo_update.mp hp' with ⟨rfl, hslot'⟩ | ⟨ha', hold'⟩
      · rcases slots i p k hslot with hold | ⟨hi, _, horphan, _⟩
        · rcases slots i' p k' hslot' with hold' | ⟨_, _, horphan', _⟩
          · exact h.owner hold hold'
          · exact absurd hold (horphan' _ _ _)
        · rcases slots i' p k' hslot' with hold' | ⟨hi', _⟩
          · exact absurd hold' (horphan _ _ _)
          · exact ⟨rfl, hi.trans hi'.symm⟩
      · rcases slots i p k hslot with hold | ⟨_, _, horphan, _⟩
        · exact h.owner hold hold'
        · exact absurd hold' (horphan _ _ _)
    · rcases pointsTo_update.mp hp' with ⟨rfl, hslot'⟩ | ⟨ha', hold'⟩
      · rcases slots i' p k' hslot' with hold' | ⟨_, _, horphan', _⟩
        · exact h.owner hold hold'
        · exact absurd hold (horphan' _ _ _)
      · exact h.owner hold hold'

/-- A block under a new number takes no pointer away. -/
theorem grown_of_new {b : Block} (hn : c n = none) : Grown c (update c n (some b)) n := by
  refine ⟨fun {x} hx => ?_, ?_, fun {x} hx hnone => ?_⟩
  · have hne : x ≠ n := fun heq => hx (heq ▸ hn)
    rwa [update_other _ _ hne]
  · rintro a x ⟨i, k, hpoint⟩
    have ha : a ≠ n := by
      rintro rfl
      exact pointsTo_of_none hn hpoint
    exact ⟨i, k, pointsTo_update.mpr (Or.inr ⟨ha, hpoint⟩)⟩
  · by_cases hxn : x = n
    · exact hxn ▸ Relation.ReflTransGen.refl
    · rw [update_other _ _ hxn] at hx
      exact absurd hnone hx

def child (c : Nat → Option Block) (n i : Nat) : Nat :=
  match c n with
  | some b => blockPtr b i
  | none => 0

/-- The data block at offset `off` of the tree of depth `k` at `n`. -/
def walk (c : Nat → Option Block) : Nat → Nat → Nat → Nat
  | 0, n, _ => n
  | k + 1, n, off =>
    walk c k (child c n (off / numOfBlockPoses ^ k)) (off % numOfBlockPoses ^ k)

/-- An unset pointer, or one to a block of level `k`. -/
def RootOf (c : Nat → Option Block) (n k : Nat) : Prop := n = 0 ∨ Holds c n k

theorem IsForest.rootOf (h : IsForest c) (hp : n ≠ 0 → PointsTo c a i n k) : RootOf c n k := by
  by_cases hn : n = 0
  · exact Or.inl hn
  · exact Or.inr (h.target (hp hn))

theorem child_of_none (hn : c n = none) (i : Nat) : child c n i = 0 := by
  rw [child, hn]

theorem walk_zero (h0 : c 0 = none) (k off : Nat) : walk c k 0 off = 0 := by
  induction k generalizing off with
  | zero => rfl
  | succ k ih => rw [walk, child_of_none h0, ih]

theorem child_pointsTo (hn : Holds c n (k + 1)) (hi : i < numOfBlockPoses)
    (hne : child c n i ≠ 0) : PointsTo c n i (child c n i) k := by
  obtain ⟨b, hb, hlevel⟩ := hn
  simp only [child, hb] at hne ⊢
  exact ⟨b, hb, Slot.index hlevel hi hne⟩

theorem child_rootOf (h : IsForest c) (h0 : c 0 = none) (hn : RootOf c n (k + 1))
    (hi : i < numOfBlockPoses) : RootOf c (child c n i) k := by
  rcases hn with rfl | hn
  · exact Or.inl (child_of_none h0 i)
  · exact h.rootOf (child_pointsTo hn hi)

theorem index_lt {off k : Nat} (hoff : off < numOfBlockPoses ^ (k + 1)) :
    off / numOfBlockPoses ^ k < numOfBlockPoses := by
  apply Nat.div_lt_of_lt_mul
  rwa [← Nat.pow_succ]

theorem rest_lt (off k : Nat) : off % numOfBlockPoses ^ k < numOfBlockPoses ^ k :=
  Nat.mod_lt _ (Nat.pow_pos (by simp))

/-- A walk depends only on what it can reach. -/
theorem walk_congr (h : IsForest c) (h0 : c 0 = none) (h0' : c' 0 = none) {off : Nat}
    (hn : RootOf c n k) (hoff : off < numOfBlockPoses ^ k)
    (same : ∀ x, c x ≠ none → Reach (Edge c) n x → c' x = c x) :
    walk c' k n off = walk c k n off ∧ c' (walk c k n off) = c (walk c k n off) := by
  induction k generalizing n off with
  | zero =>
    rcases hn with rfl | ⟨d, hd, _⟩
    · exact ⟨rfl, h0'.trans h0.symm⟩
    · exact ⟨rfl, same n (by rw [hd]; exact Option.some_ne_none d) Relation.ReflTransGen.refl⟩
  | succ k ih =>
    simp only [walk]
    rcases hn with rfl | hn
    · rw [child_of_none h0, child_of_none h0', walk_zero h0, walk_zero h0']
      exact ⟨rfl, h0'.trans h0.symm⟩
    · have hsome : c n ≠ none := by
        obtain ⟨d, hd, _⟩ := hn
        rw [hd]
        exact Option.some_ne_none d
      have hchild : child c' n = child c n := by
        funext i
        rw [child, child, same n hsome Relation.ReflTransGen.refl]
      rw [hchild]
      apply ih (child_rootOf h h0 (Or.inr hn) (index_lt hoff)) (rest_lt off k)
      intro x hx hreach
      by_cases hzero : child c n (off / numOfBlockPoses ^ k) = 0
      · rw [hzero] at hreach
        obtain rfl := eq_of_reach_none h0 hreach
        exact absurd h0 hx
      · exact same x hx (hreach.head ⟨_, _, child_pointsTo hn (index_lt hoff) hzero⟩)

end Contents

end BlockForest
