import HodoZns.BlockFields
import HodoZns.StoreMachine

/-!
# Rewriting a block and its owner

Every write of a file or a directory goes upwards: a block is rewritten, or
made, and then the block that points to it. One step of this keeps the forest
and leaves alone all that is not below the rewritten block.
-/

namespace SlotUpdates

open ByteBlock Layout BlockLog ZoneLog LogStore Kernel StoreMachine FileBlocks Ancestry BlockForest
open BlockFields

/-- From `s` to `s'` the block of level `k` under `p`, or a new one if `p` is
unset, was rewritten and is now found under `q`. -/
structure Below (s s' : Store) (k p q : Nat) : Prop where
  valid : Valid s'
  count_le : s.count ≤ s'.count
  forest : IsForest s'.content
  kept : p ≠ 0 → q = p
  fresh : p = 0 → s.content q = none ∧ Orphan s'.content q
  holds : Holds s'.content q k
  edges : ∀ a x, Edge s'.content a x → s.content x ≠ none → Edge s.content a x
  stays : ∀ x, s.content x ≠ none → s'.content x ≠ none
  inodes : ∀ x d, s'.content x = some d → isDat d = false → s.content x = some d
  frame : ∀ x, s.content x ≠ none → ¬ Reach (Edge s.content) p x → s'.content x = s.content x
  growth : Grown s.content s'.content q

theorem Below.ne_zero {s s' : Store} {k p q : Nat} (h : Below s s' k p q) : q ≠ 0 := by
  obtain ⟨d, hd, _⟩ := h.holds
  exact h.valid.ne_zero (h.valid.used hd)

theorem Below.lt {s s' : Store} {k p q : Nat} (h : Below s s' k p q) : q < 2 ^ 32 := by
  obtain ⟨d, hd, _⟩ := h.holds
  exact h.valid.number_lt (h.valid.used hd)

/-- A data block is written. -/
theorem below_of_put {s s' : Store} {b : Block} {p q : Nat} (valid : Valid s)
    (forest : IsForest s.content) (root : RootOf s.content p 0) (level : HasLevel (stamp b q) 0)
    (put : Put s s' b p q) : Below s s' 0 p q := by
  have leaf : ∀ i r l, ¬ Slot (stamp b q) i r l := fun _ _ _ => no_slot_of_data level
  have hforest : IsForest s'.content := by
    rw [put.content]
    refine IsForest.put (j := 0) forest (fun _ => ⟨0, level⟩) (fun a i l hp => ?_)
      fun i r l hslot => absurd hslot (leaf i r l)
    by_cases hp0 : p = 0
    · exact absurd hp (forest.orphan_of_none (put.fresh_none valid hp0) a i l)
    · obtain rfl := put.number hp0
      obtain ⟨d, hd, hlevel⟩ := root.resolve_left hp0
      obtain ⟨d', hd', hlevel'⟩ := forest.target hp
      obtain rfl := Option.some.inj (hd.symm.trans hd')
      exact hlevel.unique hlevel' ▸ level
  refine ⟨put.valid, put.count_le, hforest, fun hp => put.number hp, fun hp => ?_,
    ⟨_, put.at_number, level⟩, fun a x hedge _ => ?_, fun _ => put.stays,
    fun x d hd hinode => ?_, fun x hx hreach => ?_,
    put.stays, fun {a x} hedge => ?_, fun {x} hx hnone => ?_⟩
  · have hnone := put.fresh_none valid hp
    refine ⟨hnone, fun a i l hpoint => ?_⟩
    rw [put.content] at hpoint
    rcases pointsTo_update.mp hpoint with ⟨_, hslot⟩ | ⟨_, hold⟩
    · exact leaf _ _ _ hslot
    · exact forest.orphan_of_none hnone _ _ _ hold
  · obtain ⟨i, l, hpoint⟩ := hedge
    rw [put.content] at hpoint
    rcases pointsTo_update.mp hpoint with ⟨_, hslot⟩ | ⟨_, hold⟩
    · exact absurd hslot (leaf _ _ _)
    · exact ⟨i, l, hold⟩
  · exact put.inode_elsewhere level.dat hd hinode
  · apply put.elsewhere
    rintro rfl
    by_cases hp : p = 0
    · exact hx (put.fresh_none valid hp)
    · exact hreach (put.number hp ▸ Relation.ReflTransGen.refl)
  · obtain ⟨i, l, hpoint⟩ := hedge
    refine ⟨i, l, ?_⟩
    rw [put.content]
    refine pointsTo_update.mpr (Or.inr ⟨?_, hpoint⟩)
    rintro rfl
    by_cases hp : p = 0
    · exact pointsTo_of_none (put.fresh_none valid hp) hpoint
    · obtain ⟨d, hd, hlevel⟩ := root.resolve_left hp
      obtain ⟨d', hd', hslot⟩ := hpoint
      rw [put.number hp, hd] at hd'
      obtain rfl := Option.some.inj hd'
      exact no_slot_of_data hlevel hslot
  · by_cases hxq : x = q
    · exact hxq ▸ Relation.ReflTransGen.refl
    · exact absurd ((put.elsewhere hxq).trans hnone) hx

/-- `b'` is `b` but for pointer `i`, which is meant for a block of level `k` and
goes from `p` to `q`. -/
structure Replaces (b b' : Block) (i p q k : Nat) : Prop where
  levels : isDat b' = true → ∃ j, HasLevel b' j
  same : ∀ j, HasLevel b j → HasLevel b' j
  above : ∀ c a, c a = some b → k < rank c a
  old : p ≠ 0 → Slot b i p k
  slots : ∀ j r l, Slot b' j r l → j = i ∧ r = q ∧ l = k ∨ j ≠ i ∧ Slot b j r l
  kept : ∀ j r l, Slot b j r l → j = i ∧ r = p ∨ Slot b' j r l
  points : q ≠ 0 → Slot b' i q k

/-- A block below was rewritten and then its owner: the block `b` under `n`, or
one without pointers if `n` is 0, became `b'` under `L`. -/
structure Above (s s₁ s₂ : Store) (k n L i p q : Nat) (b b' : Block) : Prop where
  valid : Valid s
  forest : IsForest s.content
  present : n ≠ 0 → s.content n = some b
  absent : n = 0 → ∀ j r l, ¬ Slot b j r l
  below : Below s s₁ k p q
  replaces : Replaces b (stamp b' L) i p q k
  put : Put s₁ s₂ b' n L

section Above

variable {s s₁ s₂ : Store} {k n L i p q x : Nat} {b b' : Block}

theorem Above.edge_of_slot (h : Above s s₁ s₂ k n L i p q b b') {j r l : Nat} (hr : Slot b j r l) :
    n ≠ 0 ∧ PointsTo s.content n j r l := by
  have hn : n ≠ 0 := fun hn => h.absent hn _ _ _ hr
  exact ⟨hn, b, h.present hn, hr⟩

/-- The owner is not below the block rewritten first. -/
theorem Above.not_reach (h : Above s s₁ s₂ k n L i p q b b') (hn : n ≠ 0) :
    ¬ Reach (Edge s.content) p n := by
  intro hreach
  by_cases hp : p = 0
  · subst hp
    exact hn (eq_of_reach_none h.valid.content_zero hreach)
  · exact h.forest.forest.acyclic ⟨i, k, (h.edge_of_slot (h.replaces.old hp)).2⟩ hreach

theorem Above.present₁ (h : Above s s₁ s₂ k n L i p q b b') (hn : n ≠ 0) :
    s₁.content n = some b := by
  rw [h.below.frame n (by rw [h.present hn]; exact Option.some_ne_none b) (h.not_reach hn)]
  exact h.present hn

/-- The place of the owner is old, or nothing knew it. -/
theorem Above.place (h : Above s s₁ s₂ k n L i p q b b') :
    (n ≠ 0 ∧ L = n) ∨ (n = 0 ∧ s.content L = none ∧ s₁.content L = none) := by
  by_cases hn : n = 0
  · have hnone := h.put.fresh_none h.below.valid hn
    refine Or.inr ⟨hn, ?_, hnone⟩
    cases hc : s.content L with
    | none => rfl
    | some d =>
      obtain ⟨_, hlt⟩ := h.valid.used hc
      have hle := h.below.count_le
      have hfresh := h.put.fresh hn
      rw [h.valid.base] at hlt
      rw [h.below.valid.base] at hfresh
      omega
  · exact Or.inl ⟨hn, h.put.number hn⟩

theorem Above.ne_place (h : Above s s₁ s₂ k n L i p q b b') (hx : s.content x ≠ none)
    (hne : x ≠ n) : x ≠ L := by
  rcases h.place with ⟨_, hL⟩ | ⟨_, hnone, _⟩
  · rwa [hL]
  · rintro rfl
    exact hx hnone

/-- The blocks below `q` are not the owner. -/
theorem Above.ne_place_of_reach (h : Above s s₁ s₂ k n L i p q b b') (hx : s₁.content x ≠ none)
    (hreach : Reach (Edge s₁.content) q x) : x ≠ L := by
  rcases h.place with ⟨hn, hL⟩ | ⟨_, _, hnone⟩
  · rintro rfl
    obtain ⟨d, hd, hlevel⟩ := h.below.holds
    have hle := h.below.forest.forest.rank_le hreach
    have hlt := h.replaces.above s₁.content n (h.present₁ hn)
    rw [hL, rank_of_level hd hlevel] at hle
    exact absurd (Nat.lt_of_lt_of_le hlt hle) (Nat.lt_irrefl _)
  · rintro rfl
    exact hx hnone

theorem Above.q_ne_place (h : Above s s₁ s₂ k n L i p q b b') : q ≠ L := by
  obtain ⟨d, hd, _⟩ := h.below.holds
  exact h.ne_place_of_reach (by rw [hd]; exact Option.some_ne_none d) Relation.ReflTransGen.refl

theorem Above.forest₂ (h : Above s s₁ s₂ k n L i p q b b') : IsForest s₂.content := by
  rw [h.put.content]
  apply IsForest.put (j := i) h.below.forest h.replaces.levels
  · intro a j l hp
    rcases h.place with ⟨hn, rfl⟩ | ⟨_, _, hnone⟩
    · obtain ⟨d, hd, hlevel⟩ := h.below.forest.target hp
      obtain rfl := Option.some.inj (hd.symm.trans (h.present₁ hn))
      exact h.replaces.same _ hlevel
    · exact absurd hp (h.below.forest.orphan_of_none hnone a j l)
  · intro j r l hslot
    rcases h.replaces.slots j r l hslot with ⟨rfl, rfl, rfl⟩ | ⟨_, hold⟩
    · by_cases hp : p = 0
      · exact Or.inr ⟨rfl, h.q_ne_place, (h.below.fresh hp).2, h.below.holds⟩
      · obtain ⟨hn, _⟩ := h.edge_of_slot (h.replaces.old hp)
        obtain rfl := h.put.number hn
        exact Or.inl ⟨b, h.present₁ hn, h.below.kept hp ▸ h.replaces.old hp⟩
    · obtain ⟨hn, _⟩ := h.edge_of_slot hold
      obtain rfl := h.put.number hn
      exact Or.inl ⟨b, h.present₁ hn, hold⟩

theorem Above.frame (h : Above s s₁ s₂ k n L i p q b b') (hx : s.content x ≠ none)
    (hreach : ¬ Reach (Edge s.content) n x) : s₂.content x = s.content x := by
  have hne : x ≠ n := by
    rintro rfl
    exact hreach Relation.ReflTransGen.refl
  rw [h.put.elsewhere (h.ne_place hx hne)]
  apply h.below.frame x hx
  intro hpx
  by_cases hp : p = 0
  · subst hp
    obtain rfl := eq_of_reach_none h.valid.content_zero hpx
    exact hx h.valid.content_zero
  · exact hreach (hpx.head ⟨i, k, (h.edge_of_slot (h.replaces.old hp)).2⟩)

/-- No pointer leads anew to a block that was there before. -/
theorem Above.edges (h : Above s s₁ s₂ k n L i p q b b') {a : Nat}
    (hedge : Edge s₂.content a x) (hx : s.content x ≠ none) : Edge s.content a x := by
  obtain ⟨j, l, hpoint⟩ := hedge
  rw [h.put.content] at hpoint
  rcases pointsTo_update.mp hpoint with ⟨rfl, hslot⟩ | ⟨_, hold⟩
  · rcases h.replaces.slots j x l hslot with ⟨_, rfl, _⟩ | ⟨_, hslot'⟩
    · have hp : p ≠ 0 := fun hp => hx (h.below.fresh hp).1
      obtain ⟨hn, hpoint'⟩ := h.edge_of_slot (h.replaces.old hp)
      rw [h.put.number hn, h.below.kept hp]
      exact ⟨i, k, hpoint'⟩
    · obtain ⟨hn, hpoint'⟩ := h.edge_of_slot hslot'
      rw [h.put.number hn]
      exact ⟨j, l, hpoint'⟩
  · exact h.below.edges a x ⟨j, l, hold⟩ hx

/-- No pointer is lost, and what is new is below the owner. -/
theorem Above.growth (h : Above s s₁ s₂ k n L i p q b b') : Grown s.content s₂.content L := by
  have here : Edge s₂.content L q :=
    ⟨i, k, _, h.put.at_number, h.replaces.points h.below.ne_zero⟩
  have stay : ∀ a x, Edge s₁.content a x → Edge s₂.content a x := by
    rintro a x ⟨j, l, hpoint⟩
    by_cases ha : a = L
    · subst ha
      rcases h.place with ⟨hn, rfl⟩ | ⟨_, _, hnone⟩
      · obtain ⟨d, hd, hslot⟩ := hpoint
        obtain rfl := Option.some.inj ((h.present₁ hn).symm.trans hd)
        rcases h.replaces.kept j x l hslot with ⟨_, rfl⟩ | hslot'
        · rwa [h.below.kept hslot.ne_zero] at here
        · exact ⟨j, l, _, h.put.at_number, hslot'⟩
      · exact absurd hpoint (pointsTo_of_none hnone)
    · refine ⟨j, l, ?_⟩
      rw [h.put.content]
      exact pointsTo_update.mpr (Or.inr ⟨ha, hpoint⟩)
  refine ⟨fun hx => h.put.stays (h.below.stays _ hx),
    fun hedge => stay _ _ (h.below.growth.edges hedge), fun {x} hx hnone => ?_⟩
  by_cases hxL : x = L
  · exact hxL ▸ Relation.ReflTransGen.refl
  · have hx₁ : s₁.content x ≠ none := by rwa [h.put.elsewhere hxL] at hx
    exact (Relation.ReflTransGen.mono stay _ _ (h.below.growth.added hx₁ hnone)).head here

/-- The owner counts as a block below its own owner. -/
theorem Above.toBelow (h : Above s s₁ s₂ k n L i p q b b') {l : Nat}
    (level : HasLevel (stamp b' L) l) : Below s s₂ l n L where
  valid := h.put.valid
  count_le := Nat.le_trans h.below.count_le h.put.count_le
  forest := h.forest₂
  kept hn := h.put.number hn
  fresh hn := by
    rcases h.place with ⟨hne, _⟩ | ⟨_, hnone, hnone₁⟩
    · exact absurd hn hne
    · refine ⟨hnone, fun a j r hp => ?_⟩
      have hforest := h.forest₂.forest
      have hedge : Edge s₂.content a L := ⟨j, r, hp⟩
      rw [h.put.content] at hp
      rcases pointsTo_update.mp hp with ⟨rfl, _⟩ | ⟨_, hold⟩
      · exact hforest.acyclic hedge Relation.ReflTransGen.refl
      · exact h.below.forest.orphan_of_none hnone₁ _ _ _ hold
  holds := ⟨_, h.put.at_number, level⟩
  edges _ _ hedge hx := h.edges hedge hx
  stays x hx := h.put.stays (h.below.stays x hx)
  inodes x d hd hinode := h.below.inodes x d (h.put.inode_elsewhere level.dat hd hinode) hinode
  frame _ hx hreach := h.frame hx hreach
  growth := h.growth

/-- Below the rewritten pointer nothing changed after it was rewritten. -/
theorem Above.same_below (h : Above s s₁ s₂ k n L i p q b b') (hx : s₁.content x ≠ none)
    (hreach : Reach (Edge s₁.content) q x) : s₂.content x = s₁.content x :=
  h.put.elsewhere (h.ne_place_of_reach hx hreach)

/-- Below the other pointers nothing changed at all. -/
theorem Above.same_beside (h : Above s s₁ s₂ k n L i p q b b') {j r l : Nat} (hr : Slot b j r l)
    (hji : j ≠ i) (hx : s.content x ≠ none) (hreach : Reach (Edge s.content) r x) :
    s₂.content x = s.content x := by
  obtain ⟨hn, hpoint⟩ := h.edge_of_slot hr
  have hedge : Edge s.content n r := ⟨j, l, hpoint⟩
  have hne : x ≠ n := by
    rintro rfl
    exact h.forest.forest.acyclic hedge hreach
  rw [h.put.elsewhere (h.ne_place hx hne)]
  apply h.below.frame x hx
  intro hpx
  by_cases hp : p = 0
  · subst hp
    obtain rfl := eq_of_reach_none h.valid.content_zero hpx
    exact hx h.valid.content_zero
  · have hpoint' := (h.edge_of_slot (h.replaces.old hp)).2
    refine h.forest.forest.siblings_disjoint ⟨i, k, hpoint'⟩ hedge ?_ hpx hreach
    rintro rfl
    exact hji (h.forest.owner hpoint hpoint').2

end Above

theorem replaces_index {b : Block} {k i q : Nat} (level : HasLevel b (k + 1))
    (hi : i < numOfBlockPoses) (hq : q < 2 ^ 32) (L : Nat) :
    Replaces b (stamp (putBlockPtr b i q) L) i (blockPtr b i) q k := by
  have level' : HasLevel (stamp (putBlockPtr b i q) L) (k + 1) :=
    hasLevel_stamp (hasLevel_putBlockPtr level i q) L
  refine ⟨fun _ => ⟨k + 1, level'⟩, fun j hj => hj.unique level ▸ level', fun c a ha => ?_,
    fun hp => Slot.index level hi hp, fun j r l hslot => ?_, fun j r l hslot => ?_, fun hne => ?_⟩
  · rw [rank_of_level ha level]
    exact Nat.lt_succ_self k
  · obtain ⟨hlevel, hj, hr⟩ := hslot.of_dat level'.dat
    have hl : l = k := Nat.succ.inj (hlevel.unique level')
    rw [blockPtr_stamp, blockPtr_putBlockPtr b hi hq] at hr
    subst hl
    split at hr
    · exact Or.inl ⟨‹_›, hr.symm, rfl⟩
    · have hne : blockPtr b j ≠ 0 := hr ▸ hslot.ne_zero
      exact Or.inr ⟨‹_›, hr ▸ Slot.index level hj hne⟩
  · obtain ⟨hlevel, hj, hr⟩ := hslot.of_dat level.dat
    obtain rfl : l = k := Nat.succ.inj (hlevel.unique level)
    by_cases hji : j = i
    · exact Or.inl ⟨hji, by rw [← hr, hji]⟩
    · have hptr : blockPtr (stamp (putBlockPtr b i q) L) j = r := by
        rw [blockPtr_stamp, blockPtr_putBlockPtr b hi hq, if_neg hji, hr]
      exact Or.inr (hptr ▸ Slot.index level' hj (by rw [hptr]; exact hslot.ne_zero))
  · have hptr : blockPtr (stamp (putBlockPtr b i q) L) i = q := by
      rw [blockPtr_stamp, blockPtr_putBlockPtr b hi hq, if_pos rfl]
    have hslot := Slot.index level' hi (hptr.symm ▸ hne)
    rwa [hptr] at hslot

theorem replaces_inode {b b' : Block} {i q : Nat} (hb : isDat b = false) (hb' : isDat b' = false)
    (hi : i < 13) (ptrs : ∀ j, inodePtr b' j = if j = i then q else inodePtr b j) (L : Nat) :
    Replaces b (stamp b' L) i (inodePtr b i) q (i - 9) := by
  rw [stamp_of_inode hb']
  refine ⟨fun h => absurd (h.symm.trans hb') (by decide),
    fun j h => absurd (h.dat.symm.trans hb) (by decide), fun c a ha => ?_,
    fun hp => Slot.field hb hi hp, fun j r l hslot => ?_, fun j r l hslot => ?_, fun hne => ?_⟩
  · simp only [rank, ha, hb, Bool.false_eq_true, if_false]
    omega
  · obtain ⟨hj, hr, hl⟩ := hslot.of_inode hb'
    rw [ptrs j] at hr
    split at hr
    · subst j
      exact Or.inl ⟨rfl, hr.symm, hl⟩
    · have hne : inodePtr b j ≠ 0 := hr ▸ hslot.ne_zero
      exact Or.inr ⟨‹_›, hr ▸ hl ▸ Slot.field hb hj hne⟩
  · obtain ⟨hj, hr, rfl⟩ := hslot.of_inode hb
    by_cases hji : j = i
    · exact Or.inl ⟨hji, by rw [← hr, hji]⟩
    · have hptr : inodePtr b' j = r := by rw [ptrs, if_neg hji, hr]
      exact Or.inr (hptr ▸ Slot.field hb' hj (by rw [hptr]; exact hslot.ne_zero))
  · have hptr : inodePtr b' i = q := by rw [ptrs, if_pos rfl]
    have hslot := Slot.field hb' hi (hptr.symm ▸ hne)
    rwa [hptr] at hslot

end SlotUpdates
