import Mathlib.Data.List.Flatten
import HodoZns.DirectoryWrites

/-!
# Directories with index blocks

The walkers go through the index blocks of a directory as a file's blocks are
reached, except that their loop ends one pointer early: of the 1022 pointers
that an index block holds they follow the first 1021.
-/

namespace IndexWalks

open ByteBlock Layout BlockLog ZoneLog LogStore Programs Kernel StoreMachine FileBlocks BlockForest
open BlockFields TreeWrites FileWrites Directories Operations DirectoryWrites

/-- The data blocks under `p`, which is `k` levels above them, in the order of the pointers,
when the first `slots` pointers of each index block are followed. -/
def leafBlocks (c : Nat → Option Block) (slots : Nat) : Nat → Nat → List Block
  | 0, p => (c p).toList
  | k + 1, p => (List.range slots).flatMap fun i => leafBlocks c slots k (child c p i)

def dirBlocks (c : Nat → Option Block) (slots : Nat) (b : Block) : List Block :=
  (List.range 13).flatMap fun i => leafBlocks c slots (i - 9) (inodePtr b i)

/-- The pointers that an index block holds, and those that the walkers follow. -/
def allSlots : Nat := 1022
def walkedSlots : Nat := 1021

section

variable {P : Cmd → Prop} {σ β : Type} {failed : σ → σ ⊕ β}
  {fromDirect : Block → σ → Program (σ ⊕ β)}

theorem only_walkBlocks (reads : ∀ n buf, P (.read n buf))
    {visit : Nat → Nat → Block → σ → Program (σ ⊕ β)} (h : ∀ i p b s, (visit i p b s).Only P)
    (ptrs : List (Nat × Nat)) (buf : Block) (s : σ) : (walkBlocks visit ptrs buf s).Only P := by
  induction ptrs generalizing buf s with
  | nil => exact only_pure _ _
  | cons ptr ptrs ih =>
    refine only_ite (ih buf s) ?_
    refine only_bind (only_bind (only_cmd (reads _ _)) fun _ => only_pure _ _) fun buf => ?_
    refine only_bind (h _ _ _ _) fun r => ?_
    cases r with
    | inl s => exact ih buf s
    | inr r => exact only_pure _ _

theorem only_walkIndexBlock (reads : ∀ n buf, P (.read n buf)) (allocates : P .kmalloc)
    (h : ∀ b s, (fromDirect b s).Only P) (depth : Nat) (b : Block) (s : σ) :
    (walkIndexBlock failed fromDirect depth b s).Only P := by
  induction depth generalizing b s with
  | zero => exact .crash
  | succ depth ih =>
    refine only_bind (p := kmalloc) (only_cmd allocates) fun temp => ?_
    cases temp with
    | none => exact only_pure _ _
    | some temp =>
      refine only_bind (only_walkBlocks reads (fun _ _ b s => only_ite (h b s) (ih b s)) _ _ _) ?_
      intro r
      cases r with
      | inl r => exact only_pure _ _
      | inr r => exact only_pure _ _

/-- A walk gives the commands of its visits, reads blocks and takes buffers. -/
theorem only_walkDirectory (reads : ∀ n buf, P (.read n buf)) (allocates : P .kmalloc)
    (h : ∀ b s, (fromDirect b s).Only P) (inode buf : Block) (s : σ) :
    (walkDirectory failed fromDirect inode buf s).Only P := by
  refine only_bind (only_walkBlocks reads (fun _ _ b s => h b s) _ _ _) fun r => ?_
  cases r with
  | inr r => exact only_pure _ _
  | inl r =>
    exact only_walkBlocks reads (fun _ _ b s => only_walkIndexBlock reads allocates h _ b s) _ _ _

theorem only_checkDirectoryEmpty {P : Cmd → Prop} (reads : ∀ n buf, P (.read n buf))
    (allocates : P .kmalloc) (inode : Block) : (checkDirectoryEmpty inode).Only P := by
  refine only_bind (p := kmalloc) (only_cmd allocates) fun buf => ?_
  cases buf with
  | none => exact only_pure _ _
  | some buf =>
    refine only_bind
      (only_walkDirectory reads allocates (fun _ _ => only_pure _ _) _ _ _) fun r => ?_
    cases r with
    | inl r => exact only_pure _ _
    | inr r => exact only_pure _ _

end

section Walks

variable {D : Disk Store} [LikeStore D] {clock : Nat → Timespec} {s : Store} {σ β : Type}

/-- A walk over blocks as far as the visits let it go. -/
def visitEach {α : Type} (g : α → σ → σ ⊕ β) : List α → σ → σ ⊕ β
  | [], s => .inl s
  | t :: ts, s =>
    match g t s with
    | .inl s => visitEach g ts s
    | .inr r => .inr r

theorem visitEach_append {α : Type} (g : α → σ → σ ⊕ β) (ts ts' : List α) (s : σ) :
    visitEach g (ts ++ ts') s =
      match visitEach g ts s with
      | .inl s => visitEach g ts' s
      | .inr r => .inr r := by
  induction ts generalizing s with
  | nil => rfl
  | cons t ts ih =>
    rw [List.cons_append, visitEach, visitEach]
    cases g t s with
    | inl s => exact ih s
    | inr r => rfl

theorem visitEach_flatMap {α γ : Type} (g : α → σ → σ ⊕ β) (f : γ → List α) (ps : List γ) (s : σ) :
    visitEach g (ps.flatMap f) s = visitEach (fun p => visitEach g (f p)) ps s := by
  induction ps generalizing s with
  | nil => rfl
  | cons p ps ih =>
    rw [List.flatMap_cons, visitEach_append, visitEach]
    cases visitEach g (f p) s with
    | inl s => exact ih s
    | inr r => rfl

/-- A rule for walks over pointers to blocks of the map `s`. What a visit does when it goes on
has to fit before what the rest of the walk does. -/
theorem wp_walkBlocks {visit : Nat → Nat → Block → σ → Program (σ ⊕ β)}
    (Post : List (Nat × Nat) → σ → (Block × σ) ⊕ β → Machine Store → Prop) (valid : Valid s)
    (nil : ∀ st buf m, m.disk = s → Post [] st (.inl (buf, st)) m)
    (skip : ∀ i rest st r m, Post rest st r m → Post ((i, 0) :: rest) st r m)
    {ptrs : List (Nat × Nat)}
    (visits : ∀ i p rest st m, (i, p) ∈ ptrs → p ≠ 0 → m.disk = s →
      ∃ t, s.content p = some t ∧ wp (plain D clock) (visit i p t st) (fun r m' =>
        match r with
        | .inl st' => m'.disk = s ∧ ∀ r m'', Post rest st' r m'' → Post ((i, p) :: rest) st r m''
        | .inr r => Post ((i, p) :: rest) st (.inr r) m') m)
    (buf : Block) (st : σ) (m : Machine Store) (hm : m.disk = s) :
    wp (plain D clock) (walkBlocks visit ptrs buf st) (Post ptrs st) m := by
  induction ptrs generalizing buf st m with
  | nil =>
    rw [walkBlocks, wp_pure]
    exact nil st buf m hm
  | cons ptr rest ih =>
    obtain ⟨i, p⟩ := ptr
    have hrest := ih fun i p rest' st m hmem => visits i p rest' st m (List.mem_cons_of_mem _ hmem)
    simp only [walkBlocks, wp_ite]
    split
    case isTrue hzero =>
      subst hzero
      exact wp_mono (fun r m' => skip i rest st r m') (hrest buf st m hm)
    case isFalse hset =>
      obtain ⟨t, ht, hvisit⟩ := visits i p rest st m List.mem_cons_self hset hm
      rw [wp_bind]
      apply (wp_hodoRead_some (by rwa [hm]) (by rwa [hm]) _ _).mpr
      rw [wp_bind]
      apply wp_mono _ hvisit
      intro r m' hr
      cases r with
      | inl st' => exact wp_mono (hr.2) (hrest t st' m' hr.1)
      | inr r =>
        rw [wp_pure]
        exact hr

/-- Without the buffer. -/
def walkedOff : (Block × σ) ⊕ β → σ ⊕ β
  | .inl (_, s) => .inl s
  | .inr r => .inr r

theorem wp_walkPure {visit : Nat → Nat → Block → σ → Program (σ ⊕ β)}
    {g : Nat × Nat → σ → σ ⊕ β} (valid : Valid s) {ptrs : List (Nat × Nat)}
    (zero : ∀ i st, g (i, 0) st = .inl st)
    (visits : ∀ i p st m, (i, p) ∈ ptrs → p ≠ 0 → m.disk = s → ∃ t, s.content p = some t ∧
      wp (plain D clock) (visit i p t st) (fun r m' => r = g (i, p) st ∧ m'.disk = s) m)
    (buf : Block) (st : σ) (m : Machine Store) (hm : m.disk = s) :
    wp (plain D clock) (walkBlocks visit ptrs buf st)
      (fun r m' => walkedOff r = visitEach g ptrs st ∧ m'.disk = s) m := by
  refine wp_walkBlocks (fun ptrs st r m' => walkedOff r = visitEach g ptrs st ∧ m'.disk = s) valid
    (fun st buf m hm => ⟨rfl, hm⟩) (fun i rest st r m h => ?_)
    (fun i p rest st m hmem hp hm => ?_) buf st m hm
  · rw [visitEach, zero]
    exact h
  · obtain ⟨t, ht, hvisit⟩ := visits i p st m hmem hp hm
    refine ⟨t, ht, wp_mono (fun r m' hr => ?_) hvisit⟩
    rw [visitEach, ← hr.1]
    cases r with
    | inl st' => exact ⟨hr.2, fun r m'' h => h⟩
    | inr r => exact ⟨rfl, hr.2⟩

end Walks

theorem indexPtrs_eq (t : Block) :
    indexPtrs t = (List.range walkedSlots).map fun i => (8 + i * 4, blockPtr t i) := by
  rw [indexPtrs, ptrOffsets, offsets, List.map_map]
  apply List.map_congr_left
  intro i _
  simp only [Function.comp, hodoDataStart_eq, blockPtrSz_eq, blockPtr]

theorem leafBlocks_zero {c : Nat → Option Block} (h0 : c 0 = none) (slots k : Nat) :
    leafBlocks c slots k 0 = [] := by
  induction k with
  | zero => rw [leafBlocks, h0, Option.toList_none]
  | succ k ih =>
    rw [leafBlocks, List.flatMap_eq_nil_iff]
    intro i _
    rw [child_of_none h0, ih]

theorem leafBlocks_some {c : Nat → Option Block} {p : Nat} {t : Block}
    (hp : c p = some t) (k : Nat) :
    leafBlocks c walkedSlots (k + 1) p =
      (indexPtrs t).flatMap fun ip => leafBlocks c walkedSlots k ip.2 := by
  rw [leafBlocks, indexPtrs_eq, List.flatMap_map]
  apply List.flatMap_congr
  intro i _
  rw [child, hp]

theorem le_of_indexPtr {t : Block} {j q : Nat} (h : (j, q) ∈ indexPtrs t) : 8 ≤ j := by
  rw [indexPtrs_eq, List.mem_map] at h
  obtain ⟨i, _, heq⟩ := h
  obtain ⟨rfl, -⟩ := Prod.mk.inj heq
  exact Nat.le_add_right 8 _

/-- What a pointer of an index block that the walkers follow leads to. -/
theorem holds_of_indexPtr {c : Nat → Option Block} (forest : IsForest c) {k p j q : Nat} {t : Block}
    (hp : c p = some t) (level : HasLevel t (k + 1)) (hmem : (j, q) ∈ indexPtrs t) (hq : q ≠ 0) :
    Holds c q k := by
  rw [indexPtrs_eq, List.mem_map] at hmem
  obtain ⟨i, hi, heq⟩ := hmem
  obtain ⟨-, rfl⟩ := Prod.mk.inj heq
  have hlt : i < numOfBlockPoses := by
    have := List.mem_range.mp hi
    simp only [walkedSlots] at this
    simp only [numOfBlockPoses_eq]
    omega
  exact forest.target ⟨t, hp, Slot.index level hlt hq⟩

section Indexed

variable {D : Disk Store} [LikeStore D] {clock : Nat → Timespec} {s : Store} {σ β : Type}
  {failed : σ → σ ⊕ β} {fromDirect : Block → σ → Program (σ ⊕ β)} {g : Block → σ → σ ⊕ β}
  {k depth p q : Nat} {t : Block}

/-- An index block, when the blocks under it are visited as they should be. -/
theorem wp_walkIndexBlock_step (depth : Nat) (valid : Valid s) (forest : IsForest s.content)
    (visits : ∀ q st m, Holds s.content q k → m.disk = s → ∃ t, s.content q = some t ∧
      wp (plain D clock)
        (if isDirectblock t then fromDirect t st else walkIndexBlock failed fromDirect depth t st)
        (fun r m' => r = visitEach g (leafBlocks s.content walkedSlots k q) st ∧ m'.disk = s) m)
    (hp : s.content p = some t) (level : HasLevel t (k + 1)) (st : σ) (m : Machine Store)
    (hm : m.disk = s) :
    wp (plain D clock) (walkIndexBlock failed fromDirect (depth + 1) t st) (fun r m' =>
      r = visitEach g (leafBlocks s.content walkedSlots (k + 1) p) st ∧ m'.disk = s) m := by
  simp only [walkIndexBlock, wp_bind, wp_kmalloc]
  apply wp_mono _ (wp_walkPure (m := Machine.later m)
    (g := fun ip st => visitEach g (leafBlocks s.content walkedSlots k ip.2) st) valid
    (fun i st => by rw [leafBlocks_zero valid.content_zero]; rfl)
    (fun i q st m hmem hq hm => visits q st m (holds_of_indexPtr forest hp level hmem hq) hm)
    zeros st hm)
  intro r m' hr
  rw [leafBlocks_some hp, visitEach_flatMap, ← hr.1]
  cases r with
  | inl r =>
    rw [wp_pure]
    exact ⟨rfl, hr.2⟩
  | inr r =>
    rw [wp_pure]
    exact ⟨rfl, hr.2⟩

theorem wp_visitBlock (visit : ∀ t st, fromDirect t st = pure (g t st)) (valid : Valid s)
    (forest : IsForest s.content) (hk : k ≤ depth) (hq : Holds s.content q k) (st : σ)
    (m : Machine Store) (hm : m.disk = s) : ∃ t, s.content q = some t ∧
      wp (plain D clock)
        (if isDirectblock t then fromDirect t st else walkIndexBlock failed fromDirect depth t st)
        (fun r m' =>
          r = visitEach g (leafBlocks s.content walkedSlots k q) st ∧ m'.disk = s) m := by
  induction k generalizing depth q st m with
  | zero =>
    obtain ⟨t, ht, level⟩ := hq
    refine ⟨t, ht, ?_⟩
    rw [if_pos ((isDirectblock_iff level).mpr rfl), visit, wp_pure, leafBlocks, ht,
      Option.toList_some, visitEach]
    refine ⟨?_, hm⟩
    cases g t st with
    | inl st' => rfl
    | inr r => rfl
  | succ k ih =>
    obtain ⟨t, ht, level⟩ := hq
    refine ⟨t, ht, ?_⟩
    obtain ⟨depth, rfl⟩ : ∃ d, depth = d + 1 := ⟨depth - 1, by omega⟩
    have hindex : ¬ isDirectblock t = true := fun h => by
      have := (isDirectblock_iff level).mp h
      omega
    rw [if_neg hindex]
    exact wp_walkIndexBlock_step depth valid forest
      (fun q st m hq hm => ih (by omega) hq st m hm) ht level
      st m hm

end Indexed

theorem dirBlocks_eq (c : Nat → Option Block) (slots : Nat) (b : Block) :
    dirBlocks c slots b = (directPtrs b).flatMap (fun ip => leafBlocks c slots 0 ip.2) ++
      (indirectPtrs b).flatMap fun ip => leafBlocks c slots (ip.1 + 1) ip.2 := by
  rw [dirBlocks, show (List.range 13) = List.range 10 ++ [10, 11, 12] from rfl, List.flatMap_append,
    directPtrs, List.flatMap_map]
  rfl

section Whole

variable {D : Disk Store} [LikeStore D] {clock : Nat → Timespec} {s : Store} {n : Nat} {b : Block}
  {σ β : Type} {failed : σ → σ ⊕ β} {fromDirect : Block → σ → Program (σ ⊕ β)}
  {g : Block → σ → σ ⊕ β}

theorem holds_of_directPtr (forest : IsForest s.content) (hn : s.content n = some b)
    (hb : isDat b = false) {i p : Nat} (hmem : (i, p) ∈ directPtrs b) (hp : p ≠ 0) :
    Holds s.content p 0 := by
  obtain ⟨i', hi, heq⟩ := List.mem_map.mp hmem
  obtain ⟨-, rfl⟩ := Prod.mk.inj heq
  exact (rootOf_direct forest hn hb (List.mem_range.mp hi)).resolve_left hp

theorem holds_of_indirectPtr (forest : IsForest s.content) (hn : s.content n = some b)
    (hb : isDat b = false) {i p : Nat} (hmem : (i, p) ∈ indirectPtrs b) (hp : p ≠ 0) :
    Holds s.content p (i + 1) ∧ i < 3 := by
  have hfield : ∀ j, j < 13 → inodePtr b j ≠ 0 → Holds s.content (inodePtr b j) (j - 9) :=
    fun j hj hne => forest.target ⟨b, hn, Slot.field hb hj hne⟩
  simp only [indirectPtrs, List.mem_cons, Prod.mk.injEq, List.not_mem_nil, or_false] at hmem
  rcases hmem with ⟨rfl, rfl⟩ | ⟨rfl, rfl⟩ | ⟨rfl, rfl⟩
  · exact ⟨hfield 10 (by omega) hp, by omega⟩
  · exact ⟨hfield 11 (by omega) hp, by omega⟩
  · exact ⟨hfield 12 (by omega) hp, by omega⟩

/-- A walk goes through the blocks under the first 1021 pointers of each index block. -/
theorem wp_walkAll (visit : ∀ t st, fromDirect t st = pure (g t st)) (valid : Valid s)
    (forest : IsForest s.content) (hn : s.content n = some b) (hb : isDat b = false) (buf : Block)
    (st : σ) (m : Machine Store) (hm : m.disk = s) :
    wp (plain D clock) (walkDirectory failed fromDirect b buf st) (fun r m' =>
      walkedOff r = visitEach g (dirBlocks s.content walkedSlots b) st ∧ m'.disk = s) m := by
  simp only [walkDirectory, wp_bind, dirBlocks_eq, visitEach_append, visitEach_flatMap]
  apply wp_mono _ (wp_walkPure
    (g := fun ip st => visitEach g (leafBlocks s.content walkedSlots 0 ip.2) st) valid
    (fun i st => by rw [leafBlocks_zero valid.content_zero]; rfl)
    (fun i p st m hmem hp hm => ?_) buf st m hm)
  · intro r m' hr
    rw [← hr.1]
    cases r with
    | inr r =>
      rw [wp_pure]
      exact ⟨rfl, hr.2⟩
    | inl r =>
      refine wp_walkPure (g := fun ip st => visitEach g (leafBlocks s.content walkedSlots (ip.1 + 1)
        ip.2) st) valid (fun i st => by rw [leafBlocks_zero valid.content_zero]; rfl)
        (fun i p st m hmem hp hm => ?_) r.1 r.2 m' hr.2
      obtain ⟨⟨t, ht, level⟩, hi⟩ := holds_of_indirectPtr forest hn hb hmem hp
      exact ⟨t, ht, wp_walkIndexBlock_step 15 valid forest (fun q st m hq hm =>
        wp_visitBlock visit valid forest (by omega) hq st m hm) ht level st m hm⟩
  · obtain ⟨t, ht, level⟩ := holds_of_directPtr forest hn hb hmem hp
    refine ⟨t, ht, ?_⟩
    rw [visit, wp_pure, leafBlocks, ht, Option.toList_some, visitEach]
    refine ⟨?_, hm⟩
    cases g t st with
    | inl st' => rfl
    | inr r => rfl

/-- One of the blocks has a slot with the name. -/
def Found (ts : List Block) (name : Name) : Prop := ∃ t ∈ ts, findName t name ≠ none

/-- The map goes on as one, with the numbers it had. -/
structure Kept (s s' : Store) : Prop where
  valid : Valid s'
  used : ∀ {n}, s.used n → s'.used n

theorem kept_refl (valid : Valid s) : Kept s s := ⟨valid, id⟩

theorem Kept.put {s s₁ s₂ : Store} {t : Block} {p q : Nat} (h : Kept s s₁)
    (put : Put s₁ s₂ t p q) : Kept s s₂ :=
  ⟨put.valid, fun hn => used_mono h.valid put.valid put.count_le (h.used hn)⟩

/-- What became of a removal from blocks of the map `s`. -/
def RemovedFrom (s : Store) (ts : List Block) (name : Name) (p : Nat) :
    Option Nat → Machine Store → Prop
  | none, m => ¬ Found ts name ∧ m.disk = s
  | some q, m => q = p ∧ Found ts name ∧ Kept s m.disk

theorem found_append (ts ts' : List Block) (name : Name) :
    Found (ts ++ ts') name ↔ Found ts name ∨ Found ts' name := by
  simp only [Found, List.mem_append, or_and_right, exists_or]

theorem wp_removeFromDirect (valid : Valid s) {p : Nat} {t : Block} (hp : s.content p = some t)
    (level : HasLevel t 0) (name : Name) (m : Machine Store) (hm : m.disk = s) :
    wp (plain D clock) (removeDirentFromDirectBlock t name p) (RemovedFrom s [t] name p) m := by
  have hfound : Found [t] name ↔ findName t name ≠ none := by
    simp only [Found, List.mem_singleton, exists_eq_left]
  cases hfind : findName t name with
  | none =>
    simp only [removeDirentFromDirectBlock, hfind, wp_pure]
    exact ⟨fun h => hfound.mp h hfind, hm⟩
  | some j =>
    have hset := valid.ne_zero (valid.used hp)
    simp only [removeDirentFromDirectBlock, hfind, compactDatablock, wp_bind,
      wp_kmallocUnchecked, wp_pure]
    apply wp_hodoWrite_dat (m := Machine.later m) (b := compacted t j) (by rwa [later_disk, hm])
      (fun _ => by rw [later_disk, hm]; exact valid.used hp)
      (hasLevel_compacted level (findName_ge hfind)).dat
    intro q s₁ put
    rw [later_disk, hm] at put
    refine ⟨put.number hset, hfound.mpr ?_, (kept_refl valid).put put⟩
    rw [hfind]
    exact Option.some_ne_none j

theorem ite_bind {α γ : Type} {c : Prop} [Decidable c] (x y : Program α) (f : α → Program γ) :
    (if c then x >>= f else y >>= f) = (if c then x else y) >>= f := by
  split
  · rfl
  · rfl

/-- An index block, when the removal from the blocks under it is as it should be. -/
theorem wp_removeFromIndex_step (depth : Nat) {k p : Nat} {t : Block} {name : Name}
    (valid : Valid s)
    (forest : IsForest s.content)
    (visits : ∀ q m, Holds s.content q k → m.disk = s → ∃ t, s.content q = some t ∧
      wp (plain D clock)
        (if isDirectblock t then removeDirentFromDirectBlock t name q
          else removeDirentFromIndirectBlock name depth t q)
        (RemovedFrom s (leafBlocks s.content walkedSlots k q) name q) m)
    (hp : s.content p = some t) (level : HasLevel t (k + 1)) (m : Machine Store) (hm : m.disk = s) :
    wp (plain D clock) (removeDirentFromIndirectBlock name (depth + 1) t p)
      (RemovedFrom s (leafBlocks s.content walkedSlots (k + 1) p) name p) m := by
  have hset := valid.ne_zero (valid.used hp)
  simp only [removeDirentFromIndirectBlock, wp_bind, wp_kmalloc, leafBlocks_some hp]
  apply wp_mono _ (wp_walkBlocks (m := Machine.later m) (fun ptrs _ r m' => RemovedFrom s
    (ptrs.flatMap fun ip => leafBlocks s.content walkedSlots k ip.2) name p r.getRight? m') valid
    (fun _ _ m hm => ⟨by simp [Found], hm⟩) (fun i rest _ r m h => ?_)
    (fun j q rest _ m hmem hq hm => ?_) zeros () hm)
  · intro r m' hr
    cases r with
    | inl r =>
      rw [wp_pure]
      exact hr
    | inr r =>
      rw [wp_pure]
      exact hr
  · rw [List.flatMap_cons, leafBlocks_zero valid.content_zero]
    exact h
  · obtain ⟨t', ht', hvisit⟩ := visits q m (holds_of_indexPtr forest hp level hmem hq) hm
    refine ⟨t', ht', ?_⟩
    rw [ite_bind, wp_bind, List.flatMap_cons]
    apply wp_mono _ hvisit
    intro removed m' hr
    cases removed with
    | none =>
      rw [wp_pure]
      refine ⟨hr.2, fun r m'' h => ?_⟩
      cases r with
      | inl r =>
        obtain ⟨hno, hm''⟩ := h
        exact ⟨fun hf => (found_append _ _ name |>.mp hf).elim hr.1 hno, hm''⟩
      | inr r =>
        obtain ⟨heq, hf, kept⟩ := h
        exact ⟨heq, (found_append _ _ name).mpr (Or.inr hf), kept⟩
    | some q' =>
      obtain ⟨rfl, hf, kept⟩ := hr
      have hdat : isDat (putLE t j blockPtrSz q') = true := by
        rw [← level.dat]
        have hj := le_of_indexPtr hmem
        exact isDat_congr fun i hi => byteAt_putLE_outside t _ (by omega)
      simp only [if_neg hq, wp_bind, wp_pure]
      apply wp_hodoWrite_dat kept.valid (fun _ => kept.used (valid.used hp)) hdat
      intro L s₁ put
      exact ⟨put.number hset, (found_append _ _ name).mpr (Or.inl hf), kept.put put⟩

theorem wp_removeFromBlock {k depth q : Nat} {name : Name} (valid : Valid s)
    (forest : IsForest s.content) (hk : k ≤ depth) (hq : Holds s.content q k) (m : Machine Store)
    (hm : m.disk = s) : ∃ t, s.content q = some t ∧
      wp (plain D clock)
        (if isDirectblock t then removeDirentFromDirectBlock t name q
          else removeDirentFromIndirectBlock name depth t q)
        (RemovedFrom s (leafBlocks s.content walkedSlots k q) name q) m := by
  induction k generalizing depth q m with
  | zero =>
    obtain ⟨t, ht, level⟩ := hq
    refine ⟨t, ht, ?_⟩
    rw [if_pos ((isDirectblock_iff level).mpr rfl), leafBlocks, ht]
    exact wp_removeFromDirect valid ht level name m hm
  | succ k ih =>
    obtain ⟨t, ht, level⟩ := hq
    refine ⟨t, ht, ?_⟩
    obtain ⟨depth, rfl⟩ : ∃ d, depth = d + 1 := ⟨depth - 1, by omega⟩
    have hindex : ¬ isDirectblock t = true := fun h => by
      have := (isDirectblock_iff level).mp h
      omega
    rw [if_neg hindex]
    exact wp_removeFromIndex_step depth valid forest
      (fun q m hq hm => ih (by omega) hq m hm) ht level m hm

theorem lacks_iff (ts : List Block) (name : Name) :
    ¬ Found ts name ↔ ∀ t ∈ ts, findName t name = none := by
  simp only [Found, not_exists, not_and, not_not]

/-- The direct blocks of a directory in which no slot has the name. -/
theorem not_found_direct {name : Name} (lacks : ∀ i, i < 10 → Lacks s.content b name i) :
    ¬ Found ((directPtrs b).flatMap fun ip => leafBlocks s.content walkedSlots 0 ip.2) name := by
  rw [lacks_iff]
  intro t ht
  obtain ⟨⟨i, p⟩, hmem, ht⟩ := List.mem_flatMap.mp ht
  obtain ⟨i', hi, heq⟩ := List.mem_map.mp hmem
  obtain ⟨-, rfl⟩ := Prod.mk.inj heq
  have hi := List.mem_range.mp hi
  rw [leafBlocks, Option.mem_toList, ← dataAt_direct s.content b hi] at ht
  exact lacks i' hi t ht

theorem found_direct {m' : Machine Store} {m : Machine Store} {name : Name}
    (h : Removed m n b name 0 m') :
    Found ((directPtrs b).flatMap fun ip => leafBlocks m.disk.content walkedSlots 0 ip.2) name := by
  obtain @⟨_, t, i, j, _, hi, _, ht, hfind, _⟩ := h
  refine ⟨t,
    List.mem_flatMap.mpr ⟨(i, direct b i), List.mem_map.mpr ⟨i, List.mem_range.mpr hi, rfl⟩,
    ?_⟩, ?_⟩
  · rw [leafBlocks, Option.mem_toList, ← dataAt_direct m.disk.content b hi]
    exact ht
  · rw [hfind]
    exact Option.some_ne_none j

omit [LikeStore D] in
theorem wp_touchedInode (b : Block) (Q : Block → Machine Store → Prop) (m : Machine Store) :
    wp (plain D clock) (touched b) Q m ↔
      Q (uncounted b 0 (direct b 0) (clock m.tick) (clock (m.tick + 1)) (clock (m.tick + 2)))
        (Machine.later (Machine.later (Machine.later m))) := by
  have hback : putDirect b 0 (direct b 0) = b := putLE_getLE b _ 4
  have h := @wp_touched D clock m b 0 (direct b 0) Q
  rwa [hback] at h

theorem wp_removeWhole (valid : Valid s) (forest : IsForest s.content) (hn : s.content n = some b)
    (hb : isDat b = false) (name : Name) (m : Machine Store) (hm : m.disk = s) :
    wp (plain D clock) (removeDirent b name n)
      (fun r _ => r.1 = 1 ↔ Found (dirBlocks s.content walkedSlots b) name) m := by
  subst hm
  simp only [removeDirent, wp_bind, wp_kmalloc, dirBlocks_eq, found_append]
  have hwalk :=
    @wp_removeFrom D _ clock (Machine.later m) n 10 0 b zeros name rfl valid forest hn hb
  rw [← List.range_eq_range'] at hwalk
  apply wp_mono _ hwalk
  intro r m' hr
  cases r with
  | inr n' =>
    rw [wp_pure]
    exact ⟨fun _ => Or.inl (found_direct hr.2.of_later), fun _ => rfl⟩
  | inl u =>
    obtain ⟨lacks, rfl⟩ := hr
    have hno := not_found_direct fun i hi => lacks i (Nat.zero_le i) hi
    have hown := iIno_of_inode valid hn hb
    have hused := valid.used hn
    simp only [wp_bind]
    apply wp_mono _ (wp_walkBlocks (fun ptrs _ r m' => r.elim
      (fun _ =>
        ¬ Found (ptrs.flatMap fun ip => leafBlocks m.disk.content walkedSlots (ip.1 + 1) ip.2)
        name)
      (fun _ => Found (ptrs.flatMap fun ip => leafBlocks m.disk.content walkedSlots (ip.1 + 1) ip.2)
        name)) valid (fun _ _ m hm => by simp [Found]) (fun i rest _ r m h => ?_)
      (fun i p rest _ m hmem hp hm => ?_) u.1 u.2 (Machine.later m) rfl)
    · intro r m' hr
      cases r with
      | inr n' =>
        rw [wp_pure]
        exact ⟨fun _ => Or.inr hr, fun _ => rfl⟩
      | inl u' =>
        rw [wp_pure]
        exact ⟨fun h => absurd (show (0 : Int) = 1 from h) (by decide),
          fun h => absurd (h.resolve_left hno) hr⟩
    · rw [List.flatMap_cons, leafBlocks_zero valid.content_zero]
      exact h
    · obtain ⟨⟨t, ht, level⟩, hi⟩ := holds_of_indirectPtr forest hn hb hmem hp
      refine ⟨t, ht, ?_⟩
      simp only [wp_bind, List.flatMap_cons]
      apply wp_mono _ (wp_removeFromIndex_step 15 valid forest (fun q m hq hm =>
        wp_removeFromBlock valid forest (by omega) hq m hm) ht level _ hm)
      intro removed m' hr
      cases removed with
      | none =>
        rw [wp_pure]
        refine ⟨hr.2, fun r m'' h => ?_⟩
        cases r with
        | inl r => exact fun hf => ((found_append _ _ name).mp hf).elim hr.1 h
        | inr r => exact (found_append _ _ name).mpr (Or.inr h)
      | some q =>
        obtain ⟨-, hf, kept⟩ := hr
        simp only [wp_bind, wp_touchedInode, wp_pure]
        refine wp_hodoWrite_inode kept.valid (kept.used hused) ?_ fun s₁ put => ?_
        · exact (getLE_uncounted b 0 (direct b 0) _ _ _ (by omega) (by omega)).trans hown
        · exact (found_append _ _ name).mpr (Or.inl hf)

end Whole

end IndexWalks
