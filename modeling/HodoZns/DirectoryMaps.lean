import Mathlib.Algebra.Order.BigOperators.Group.List
import Mathlib.Data.List.Perm.Basic
import HodoZns.DirectoryBlocks

/-!
# A directory as a list of entries

The data blocks of a directory lie under its first pointers, without a gap, and
each of them holds a list of entries. Additions and removals change one of the
lists; the lookup and the listing go through all of them in order.
-/

namespace DirectoryMaps

open ByteBlock Layout BlockLog ZoneLog LogStore Programs Kernel StoreMachine FileBlocks BlockForest
open BlockFields FileWrites TreeWrites Directories Operations DirectoryWrites DirectoryBlocks

/-- The directory inode `b` under `n` has the entries `ds`, block by block. -/
structure HasEntries (s : Store) (n : Nat) (b : Block) (ds : List (List Entry)) : Prop where
  inode : s.content n = some b
  isInode : isDat b = false
  noIndex : NoIndex b
  len : ds.length ≤ 10
  block : ∀ i (h : i < ds.length), ∃ t, dataAt s.content b i = some t ∧ BlockHolds t ds[i]
  beyond : ∀ i, ds.length ≤ i → i < 10 → dataAt s.content b i = none
  unique : (ds.flatten.map Entry.name).Nodup

/-- The same without the last line: a name may come up more than once. -/
structure HasBlocks (s : Store) (n : Nat) (b : Block) (ds : List (List Entry)) : Prop where
  inode : s.content n = some b
  isInode : isDat b = false
  noIndex : NoIndex b
  len : ds.length ≤ 10
  block : ∀ i (h : i < ds.length), ∃ t, dataAt s.content b i = some t ∧ BlockHolds t ds[i]
  beyond : ∀ i, ds.length ≤ i → i < 10 → dataAt s.content b i = none

theorem HasEntries.blocks {s : Store} {n : Nat} {b : Block} {ds : List (List Entry)}
    (h : HasEntries s n b ds) : HasBlocks s n b ds :=
  ⟨h.inode, h.isInode, h.noIndex, h.len, h.block, h.beyond⟩

theorem HasBlocks.entries {s : Store} {n : Nat} {b : Block} {ds : List (List Entry)}
    (h : HasBlocks s n b ds) (unique : (ds.flatten.map Entry.name).Nodup) : HasEntries s n b ds :=
  ⟨h.inode, h.isInode, h.noIndex, h.len, h.block, h.beyond, unique⟩

theorem flatten_set_perm {α : Type} {ds : List (List α)} {i : Nat} (hi : i < ds.length)
    (es : List α) : (ds[i] ++ (ds.set i es).flatten).Perm (es ++ ds.flatten) := by
  induction ds generalizing i with
  | nil => exact absurd hi (Nat.not_lt_zero i)
  | cons d ds ih =>
    cases i with
    | zero =>
      simp only [List.getElem_cons_zero, List.set_cons_zero, List.flatten_cons]
      rw [← List.append_assoc, ← List.append_assoc]
      exact List.Perm.append_right _ List.perm_append_comm
    | succ i =>
      have hlt : i < ds.length := by simpa using hi
      simp only [List.getElem_cons_succ, List.set_cons_succ, List.flatten_cons]
      have swap : ∀ xs ys zs : List α, (xs ++ (ys ++ zs)).Perm (ys ++ (xs ++ zs)) := by
        intro xs ys zs
        rw [← List.append_assoc, ← List.append_assoc]
        exact List.Perm.append_right _ List.perm_append_comm
      exact ((swap _ _ _).trans (List.Perm.append_left d (ih hlt))).trans (swap _ _ _)

theorem flatten_append_perm {α : Type} {ds : List (List α)} {i : Nat} (hi : i < ds.length)
    (e : α) : (ds.set i (ds[i] ++ [e])).flatten.Perm (e :: ds.flatten) := by
  have h := flatten_set_perm hi (ds[i] ++ [e])
  rw [List.append_assoc] at h
  exact (List.perm_append_left_iff ds[i]).mp h

theorem flatten_erase_perm {α : Type} {ds : List (List α)} {i k : Nat} (hi : i < ds.length)
    (hk : k < ds[i].length) :
    (ds[i][k] :: (ds.set i (ds[i].eraseIdx k)).flatten).Perm ds.flatten := by
  have hsplit : ds[i].Perm (ds[i].eraseIdx k ++ [ds[i][k]]) :=
    (List.getElem_cons_eraseIdx_perm hk).symm.trans
      (show ([ds[i][k]] ++ ds[i].eraseIdx k).Perm _ from List.perm_append_comm)
  have h := (List.Perm.append_right _ hsplit.symm).trans (flatten_set_perm hi (ds[i].eraseIdx k))
  rw [List.append_assoc] at h
  exact (List.perm_append_left_iff (ds[i].eraseIdx k)).mp h

theorem index_of_name {es : List Entry} (unique : (es.map Entry.name).Nodup) {k k' : Nat}
    (hk : k < es.length) (hk' : k' < es.length) (he : es[k'].name = es[k].name) : k' = k := by
  have hlen : (es.map Entry.name).length = es.length := List.length_map _
  have hinj : (es.map Entry.name)[k'] = (es.map Entry.name)[k] → k' = k :=
    (List.Nodup.getElem_inj_iff unique).mp
  exact hinj (by simpa using he)

section

variable {s s' : Store} {n i : Nat} {b b' d : Block} {ds : List (List Entry)}

theorem HasBlocks.block_len (h : HasBlocks s n b ds) (hi : i < ds.length) : ds[i].length ≤ 102 := by
  obtain ⟨t, _, ht⟩ := h.block i hi
  exact ht.len

theorem HasBlocks.count_le (h : HasBlocks s n b ds) : ds.flatten.length ≤ 1020 := by
  have hlen := h.len
  have hle := List.sum_le_card_nsmul (ds.map List.length) 102 fun k hk => by
    obtain ⟨d, hd, rfl⟩ := List.mem_map.mp hk
    obtain ⟨i, hi, rfl⟩ := List.getElem_of_mem hd
    exact h.block_len hi
  rw [← List.length_flatten, List.length_map, Nat.nsmul_eq_mul] at hle
  omega

theorem HasBlocks.lt_of_some (h : HasBlocks s n b ds) (hi : i < 10)
    (hd : dataAt s.content b i = some d) : i < ds.length := by
  by_contra hge
  rw [h.beyond i (by omega) hi] at hd
  cases hd

theorem HasBlocks.at_block (h : HasBlocks s n b ds) {t : Block} (hi : i < ds.length)
    (ht : dataAt s.content b i = some t) : BlockHolds t ds[i] := by
  obtain ⟨t', ht', hold⟩ := h.block i hi
  obtain rfl := Option.some.inj (ht.symm.trans ht')
  exact hold

/-- Names differ within a block. -/
theorem HasEntries.unique_in (h : HasEntries s n b ds) (hi : i < ds.length) :
    (ds[i].map Entry.name).Nodup :=
  h.unique.sublist (List.Sublist.map _ (List.sublist_flatten_of_mem (List.getElem_mem hi)))

/-- One block of the directory was rewritten. -/
theorem HasBlocks.set (h : HasBlocks s n b ds) (hi : i < ds.length) {es : List Entry}
    (hw : DirectWritten s s' n b b' i d) (hd : BlockHolds d es)
    (hptrs : ∀ k, 10 ≤ k → inodePtr b' k = inodePtr b k) : HasBlocks s' n b' (ds.set i es) where
  inode := hw.inode
  isInode := hw.isInode
  noIndex k hlo hhi := (hptrs k hlo).trans (h.noIndex k hlo hhi)
  len := by
    rw [List.length_set]
    exact h.len
  block j hj := by
    rw [List.length_set] at hj
    by_cases heq : j = i
    · subst heq
      obtain ⟨q, hq⟩ := hw.here
      exact ⟨_, hq, by rw [List.getElem_set_self]; exact hd.stamp q⟩
    · obtain ⟨t, ht, hold⟩ := h.block j hj
      refine ⟨t, (hw.others j heq).trans ht, ?_⟩
      rwa [List.getElem_set_ne (Ne.symm heq)]
  beyond j hj hlt := by
    rw [List.length_set] at hj
    rw [hw.others j (by omega)]
    exact h.beyond j hj hlt

/-- A first block, or one more, was linked to the directory. -/
theorem HasBlocks.push (h : HasBlocks s n b ds) (hlt : ds.length < 10) {es : List Entry}
    (hw : DirectWritten s s' n b b' ds.length d) (hd : BlockHolds d es)
    (hptrs : ∀ k, 10 ≤ k → inodePtr b' k = inodePtr b k) : HasBlocks s' n b' (ds ++ [es]) where
  inode := hw.inode
  isInode := hw.isInode
  noIndex k hlo hhi := (hptrs k hlo).trans (h.noIndex k hlo hhi)
  len := by
    rw [List.length_append, List.length_singleton]
    exact hlt
  block j hj := by
    rw [List.length_append, List.length_singleton] at hj
    by_cases heq : j = ds.length
    · subst heq
      obtain ⟨q, hq⟩ := hw.here
      exact ⟨_, hq, by rw [List.getElem_concat_length rfl]; exact hd.stamp q⟩
    · have hin : j < ds.length := by omega
      obtain ⟨t, ht, hold⟩ := h.block j hin
      refine ⟨t, (hw.others j heq).trans ht, ?_⟩
      rwa [List.getElem_append_left hin]
  beyond j hj hlt := by
    rw [List.length_append, List.length_singleton] at hj
    rw [hw.others j (by omega)]
    exact h.beyond j (by omega) hlt

theorem nodup_of_perm {es es' : List Entry} (h : es'.Perm es) (unique : (es.map Entry.name).Nodup) :
    (es'.map Entry.name).Nodup :=
  (h.map Entry.name).nodup_iff.mpr unique

/-- The entries left are those with other names. -/
theorem toFinset_of_perm_cons {es es' : List Entry} {e : Entry} (h : es.Perm (e :: es'))
    (unique : (es.map Entry.name).Nodup) :
    es'.toFinset = es.toFinset.filter fun e' => e'.name ≠ e.name := by
  have unique' := nodup_of_perm h.symm unique
  rw [List.map_cons, List.nodup_cons] at unique'
  rw [List.toFinset_eq_of_perm _ _ h, List.toFinset_cons]
  ext e'
  simp only [Finset.mem_filter, Finset.mem_insert, List.mem_toFinset]
  constructor
  · exact fun he' => ⟨Or.inr he', fun heq => unique'.1 (heq ▸ List.mem_map_of_mem he')⟩
  · rintro ⟨rfl | he', hne⟩
    · exact absurd rfl hne
    · exact he'

/-- What became of the blocks when an entry was to be added. -/
inductive BlocksAdded (s s' : Store) (n : Nat) (b : Block) (ds : List (List Entry)) (e : Entry) :
    Int → Prop
  | inserted {b' : Block} {ds' : List (List Entry)} : HasBlocks s' n b' ds' →
      ds'.flatten.Perm (e :: ds.flatten) → fileLen b' = u64 (fileLen b + 1) →
      BlocksAdded s s' n b ds e 0
  | full : s' = s → ds.flatten.length = 1020 → BlocksAdded s s' n b ds e (-1)

theorem HasBlocks.full_iff (h : HasBlocks s n b ds) (hi : i < ds.length) :
    Full s.content b i ↔ ds[i].length = 102 := by
  obtain ⟨t, ht, hold⟩ := h.block i hi
  have hle := hold.len
  constructor
  · rintro ⟨t', ht', hfree⟩
    obtain rfl := Option.some.inj (ht.symm.trans ht')
    by_contra hne
    rw [freeOffset_eq_some hold (by omega)] at hfree
    cases hfree
  · exact fun hfull => ⟨t, ht, freeOffset_eq_none hold hfull⟩

theorem HasBlocks.added {m m' : Machine Store} {sub : Block} {e : Entry} {r : Int}
    (h : HasBlocks m.disk n b ds) (desc : Describes sub e) (hr : AddResult m n b sub 0 r m') :
    BlocksAdded m.disk m'.disk n b ds e r := by
  cases hr with
  | full hfull hdisk _ =>
    refine BlocksAdded.full hdisk ?_
    have hten : ds.length = 10 := by
      by_contra hne
      have hle := h.len
      obtain ⟨t, ht, _⟩ := hfull ds.length (Nat.zero_le _) (by omega)
      rw [h.beyond ds.length (Nat.le_refl _) (by omega)] at ht
      cases ht
    have hlen := List.sum_eq_card_nsmul (ds.map List.length) 102 fun k hk => by
      obtain ⟨d, hd, rfl⟩ := List.mem_map.mp hk
      obtain ⟨i, hi, rfl⟩ := List.getElem_of_mem hd
      exact (h.full_iff hi).mp (hfull i (Nat.zero_le _) (by omega))
    rw [List.length_flatten, hlen, List.length_map, hten, Nat.nsmul_eq_mul]
  | @slot _ b' t i j _ hi _ ht hfree hw hlen hptrs _ =>
    have hin := h.lt_of_some hi ht
    have hold := h.at_block hin ht
    have hlt : ds[i].length < 102 := by
      have hle := hold.len
      by_contra hge
      rw [freeOffset_eq_none hold (by omega)] at hfree
      cases hfree
    rw [freeOffset_eq_some hold hlt] at hfree
    obtain rfl := Option.some.inj hfree
    rw [hold.free (Nat.le_refl _), fillDirent_zeros desc] at hw
    exact BlocksAdded.inserted (h.set hin hw (hold.put hlt e) hptrs)
      (flatten_append_perm hin e) hlen
  | @block _ b' i _ hi hfull hnone hw hlen hptrs _ =>
    have hlast : i = ds.length := by
      rcases Nat.lt_trichotomy i ds.length with hlt | heq | hgt
      · obtain ⟨t, ht, _⟩ := h.block i hlt
        rw [hnone] at ht
        cases ht
      · exact heq
      · obtain ⟨t, ht, _⟩ := hfull ds.length (Nat.zero_le _) hgt
        rw [h.beyond ds.length (Nat.le_refl _) (by omega)] at ht
        cases ht
    subst hlast
    have hperm : (ds ++ [[e]]).flatten.Perm (e :: ds.flatten) := by
      rw [List.flatten_append, List.flatten_cons, List.flatten_nil, List.append_nil]
      exact List.perm_append_comm
    exact BlocksAdded.inserted (h.push hi hw (blockHolds_firstBlock desc) hptrs) hperm hlen

/-- What became of the entries when one with a new name was to be added. -/
inductive Added (s s' : Store) (n : Nat) (b : Block) (ds : List (List Entry)) (e : Entry) :
    Int → Prop
  | inserted {b' : Block} {ds' : List (List Entry)} : HasEntries s' n b' ds' →
      ds'.flatten.Perm (e :: ds.flatten) → fileLen b' = u64 (fileLen b + 1) →
      Added s s' n b ds e 0
  | full : s' = s → ds.flatten.length = 1020 → Added s s' n b ds e (-1)

theorem HasEntries.added {m m' : Machine Store} {sub : Block} {e : Entry} {r : Int}
    (h : HasEntries m.disk n b ds) (desc : Describes sub e)
    (fresh : ∀ e' ∈ ds.flatten, e'.name ≠ e.name)
    (hr : AddResult m n b sub 0 r m') : Added m.disk m'.disk n b ds e r := by
  have unique : ((e :: ds.flatten).map Entry.name).Nodup := by
    rw [List.map_cons, List.nodup_cons]
    refine ⟨fun hmem => ?_, h.unique⟩
    obtain ⟨e', he', heq⟩ := List.mem_map.mp hmem
    exact fresh e' he' heq
  cases h.blocks.added desc hr with
  | full hdisk hfull => exact Added.full hdisk hfull
  | inserted h' hperm hlen =>
    exact Added.inserted (h'.entries (nodup_of_perm hperm unique)) hperm hlen

/-- What became of the blocks when an entry was to be removed. -/
inductive BlocksTaken (s s' : Store) (n : Nat) (b : Block) (ds : List (List Entry))
    (name : FileName) : Int → Prop
  | removed {b' : Block} {ds' : List (List Entry)} {e : Entry} : e.name = name →
      HasBlocks s' n b' ds' → ds.flatten.Perm (e :: ds'.flatten) →
        fileLen b' = u64 (fileLen b - 1) →
      (∀ k, inodePtr b' k = inodePtr b k) → BlocksTaken s s' n b ds name 1
  | absent : s' = s → (∀ e ∈ ds.flatten, e.name ≠ name) → BlocksTaken s s' n b ds name 0

theorem HasBlocks.lacks_iff (h : HasBlocks s n b ds) (hi : i < ds.length) (name : FileName) :
    Lacks s.content b name.arg i ↔ ∀ e ∈ ds[i], e.name ≠ name := by
  obtain ⟨t, ht, hold⟩ := h.block i hi
  constructor
  · intro lacks e he hname
    obtain ⟨k, _, _, hfind⟩ := findName_of_mem hold ⟨e, he, hname⟩
    rw [lacks t ht] at hfind
    cases hfind
  · intro hno t' ht'
    obtain rfl := Option.some.inj (ht.symm.trans ht')
    exact findName_eq_none hold hno

theorem HasBlocks.taken {m m' : Machine Store} {name : FileName} {r : Int × Nat}
    (h : HasBlocks m.disk n b ds) (hr : RemoveResult m n b name.arg r m') :
    BlocksTaken m.disk m'.disk n b ds name r.1 := by
  cases hr with
  | absent hlacks hdisk _ =>
    refine BlocksTaken.absent hdisk fun e he => ?_
    obtain ⟨d, hd, he⟩ := List.mem_flatten.mp he
    obtain ⟨i, hi, rfl⟩ := List.getElem_of_mem hd
    have hlen := h.len
    exact (h.lacks_iff hi name).mp (hlacks i (by omega)) e he
  | removed hremoved =>
    obtain @⟨b', t, i, j, _, hi, _, ht, hfind, hw, hlen, hptrs, _⟩ := hremoved
    have hin := h.lt_of_some hi ht
    have hold := h.at_block hin ht
    have hmem : ∃ e ∈ ds[i], e.name = name := by
      by_contra hno
      rw [findName_eq_none hold fun e he heq => hno ⟨e, he, heq⟩] at hfind
      cases hfind
    obtain ⟨k, hk, hname, hfirst⟩ := findName_of_mem hold hmem
    obtain rfl := Option.some.inj (hfirst.symm.trans hfind)
    exact BlocksTaken.removed hname (h.set hin hw (hold.remove hk) fun k _ => hptrs k)
      (flatten_erase_perm hin hk).symm hlen hptrs

/-- What became of the entries when one was to be removed. -/
inductive Taken (s s' : Store) (n : Nat) (b : Block) (ds : List (List Entry)) (name : FileName) :
    Int → Prop
  | removed {b' : Block} {ds' : List (List Entry)} {e : Entry} : e.name = name →
      HasEntries s' n b' ds' → ds.flatten.Perm (e :: ds'.flatten) →
        fileLen b' = u64 (fileLen b - 1) →
      (∀ k, inodePtr b' k = inodePtr b k) → Taken s s' n b ds name 1
  | absent : s' = s → (∀ e ∈ ds.flatten, e.name ≠ name) → Taken s s' n b ds name 0

theorem HasEntries.taken {m m' : Machine Store} {name : FileName} {r : Int × Nat}
    (h : HasEntries m.disk n b ds) (hr : RemoveResult m n b name.arg r m') :
    Taken m.disk m'.disk n b ds name r.1 := by
  have htaken := h.blocks.taken hr
  generalize r.1 = x at htaken ⊢
  cases htaken with
  | absent hdisk hno => exact Taken.absent hdisk hno
  | removed hname h' hperm hlen hptrs =>
    have unique := nodup_of_perm hperm.symm h.unique
    rw [List.map_cons, List.nodup_cons] at unique
    exact Taken.removed hname (h'.entries unique.2) hperm hlen hptrs

end

section

variable {D : Disk Store} [LikeStore D] {σ β : Type} {clock : Nat → Timespec} {E : Env}
  {m : Machine Store} {n : Nat} {b : Block}
  {ds : List (List Entry)}

/-- A walk over the blocks as far as the visits let it go. -/
def visitAll (g : List Entry → σ → σ ⊕ β) : List (List Entry) → σ → σ ⊕ β
  | [], s => .inl s
  | es :: ds, s =>
    match g es s with
    | .inl s => visitAll g ds s
    | .inr r => .inr r

theorem wp_walkFrom {fromDirect : Block → σ → Program (σ ⊕ β)} {g : List Entry → σ → σ ⊕ β}
    (visit : ∀ es ∈ ds, ∀ t, BlockHolds t es → ∀ s, fromDirect t s = pure (g es s))
    (valid : Valid m.disk) (forest : IsForest m.disk.content) (h : HasBlocks m.disk n b ds)
    {i blocks : Nat} (hi : i + blocks = 10) (buf : Block) (s : σ) :
    wp (machine D E) (walkBlocks (fun _ _ t s => fromDirect t s)
      ((List.range' i blocks).map fun i => (i, direct b i)) buf s)
      (fun r m' => m' = m ∧ match r with
        | .inl (_, s') => visitAll g (ds.drop i) s = .inl s'
        | .inr r => visitAll g (ds.drop i) s = .inr r) m := by
  have hle := h.len
  induction blocks generalizing i buf s with
  | zero =>
    simp only [List.range'_zero, List.map_nil, walkBlocks, wp_pure]
    rw [List.drop_eq_nil_of_le (by omega)]
    exact ⟨trivial, rfl⟩
  | succ blocks ih =>
    have hlt : i < 10 := by omega
    have hnone := dataAt_eq_none_iff valid forest h.inode h.isInode hlt
    simp only [List.range'_succ, List.map_cons, walkBlocks, wp_ite]
    split
    case isTrue hzero =>
      have hge : ds.length ≤ i := by
        by_contra hlt'
        obtain ⟨t, ht, _⟩ := h.block i (by omega)
        rw [hnone.mpr hzero] at ht
        cases ht
      rw [List.drop_eq_nil_of_le hge]
      have hrest := ih (i := i + 1) (by omega) buf s
      rwa [List.drop_eq_nil_of_le (by omega)] at hrest
    case isFalse hset =>
      cases ht : dataAt m.disk.content b i with
      | none => exact absurd (hnone.mp ht) hset
      | some t =>
        have hin := h.lt_of_some hlt ht
        rw [wp_bind]
        apply (wp_hodoRead_some valid ((dataAt_direct _ _ hlt).symm.trans ht) _ _).mpr
        rw [wp_bind, visit ds[i] (List.getElem_mem hin) t (h.at_block hin ht), wp_pure,
          List.drop_eq_getElem_cons hin, visitAll]
        cases hg : g ds[i] s with
        | inl s' => exact ih (by omega) t s'
        | inr r =>
          rw [wp_pure]
          exact ⟨rfl, rfl⟩

/-- The walk over a directory, which has no index blocks. -/
theorem wp_walkDirectory {failed : σ → σ ⊕ β} {fromDirect : Block → σ → Program (σ ⊕ β)}
    {g : List Entry → σ → σ ⊕ β}
    (visit : ∀ es ∈ ds, ∀ t, BlockHolds t es → ∀ s, fromDirect t s = pure (g es s))
    (valid : Valid m.disk) (forest : IsForest m.disk.content) (h : HasBlocks m.disk n b ds)
    (buf : Block) (s : σ) {Q : (Block × σ) ⊕ β → Machine Store → Prop}
    (goesOn : ∀ buf s', visitAll g ds s = .inl s' → Q (.inl (buf, s')) m)
    (ends : ∀ r, visitAll g ds s = .inr r → Q (.inr r) m) :
    wp (machine D E) (walkDirectory failed fromDirect b buf s) Q m := by
  have hsingle : singleIndirect b = 0 := h.noIndex 10 (by omega) (by omega)
  have hdouble : doubleIndirect b = 0 := h.noIndex 11 (by omega) (by omega)
  have htriple : tripleIndirect b = 0 := h.noIndex 12 (by omega) (by omega)
  simp only [walkDirectory, wp_bind, directPtrs, List.range_eq_range']
  apply wp_mono _ (wp_walkFrom visit valid forest h rfl buf s)
  rintro r m' ⟨rfl, hr⟩
  rw [List.drop_zero] at hr
  cases r with
  | inr r =>
    rw [wp_pure]
    exact ends r hr
  | inl r =>
    simp only [indirectPtrs, hsingle, hdouble, htriple, walkBlocks, if_true, wp_pure]
    exact goesOn r.1 r.2 hr

/-- The number of the entry with the name, or `NOTHING_FOUND`. -/
def numberOf (es : List Entry) (name : FileName) : Nat :=
  ((es.find? fun e => e.name = name).map Entry.iIno).getD nothingFound

theorem numberOf_of_mem {es : List Entry} {e : Entry} (unique : (es.map Entry.name).Nodup)
    (he : e ∈ es) : numberOf es e.name = e.iIno := by
  cases hfind : es.find? fun e' => e'.name = e.name with
  | none => exact absurd (List.find?_eq_none.mp hfind e he) (by simp)
  | some e' =>
    have hname := List.find?_some hfind
    have heq : e' = e := List.inj_on_of_nodup_map unique (List.mem_of_find?_eq_some hfind) he
      (by simpa using hname)
    rw [numberOf, hfind, heq]
    rfl

theorem numberOf_of_absent {es : List Entry} {name : FileName} (h : ∀ e ∈ es, e.name ≠ name) :
    numberOf es name = nothingFound := by
  have hfind : es.find? (fun e => e.name = name) = none :=
    List.find?_eq_none.mpr fun e he => by simpa using h e he
  rw [numberOf, hfind]
  rfl

theorem numberOf_append (es es' : List Entry) (name : FileName) :
    numberOf (es ++ es') name =
      if numberOf es name ≠ nothingFound then numberOf es name else numberOf es' name := by
  cases hfind : es.find? fun e => e.name = name with
  | none =>
    have hnumber : numberOf es name = nothingFound := by
      rw [numberOf, hfind]
      rfl
    rw [hnumber, if_neg (not_not.mpr rfl), numberOf, List.find?_append, hfind, Option.none_or,
      numberOf]
  | some e =>
    have hnumber : numberOf es name = e.iIno := by
      rw [numberOf, hfind]
      rfl
    rw [hnumber, if_pos (show e.iIno ≠ nothingFound from Nat.pos_iff_ne_zero.mp e.iIno_pos),
      numberOf, List.find?_append, hfind]
    rfl

theorem findInodeNumber_block {t : Block} {es : List Entry} (h : BlockHolds t es)
    (unique : (es.map Entry.name).Nodup) (name : FileName) :
    findInodeNumberFromDirectBlock t name.arg = numberOf es name := by
  by_cases hmem : ∃ e ∈ es, e.name = name
  · obtain ⟨e, he, rfl⟩ := hmem
    rw [numberOf_of_mem unique he]
    obtain ⟨k, hk, rfl⟩ := List.getElem_of_mem he
    have hfind := findName_eq_some h hk fun k' h' heq => index_of_name unique hk h' heq
    rw [findInodeNumberFromDirectBlock, hfind]
    simp only [h.slot k hk, iIno_record]
  · have hno : ∀ e ∈ es, e.name ≠ name := fun e he heq => hmem ⟨e, he, heq⟩
    rw [numberOf_of_absent hno, findInodeNumberFromDirectBlock, findName_eq_none h hno]

theorem wp_findInodeNumber_heap {buf : Block} (heap : E.heap m.tick = some buf)
    (valid : Valid m.disk) (forest : IsForest m.disk.content) (h : HasEntries m.disk n b ds)
    (name : FileName) :
    wp (machine D E) (findInodeNumber b name.arg)
      (fun r m' => r = numberOf ds.flatten name ∧ m' = Machine.later m) m := by
  have hvisit : ∀ ds : List (List Entry), visitAll (fun es (_ : Unit) =>
      if numberOf es name ≠ nothingFound then .inr (numberOf es name) else .inl ()) ds () =
      if numberOf ds.flatten name ≠ nothingFound then .inr (numberOf ds.flatten name)
      else .inl () := by
    intro ds
    induction ds with
    | nil => rfl
    | cons es ds ih =>
      rw [visitAll, List.flatten_cons, numberOf_append]
      by_cases hfound : numberOf es name ≠ nothingFound
      · simp only [if_pos hfound]
      · simp only [if_neg hfound]
        exact ih
  simp only [findInodeNumber, wp_bind, wp_kmalloc_heap, heap]
  apply wp_walkDirectory (m := Machine.later m) (fun es hes t ht s => by
    rw [findInodeNumber_block ht (h.unique.sublist
      (List.Sublist.map _ (List.sublist_flatten_of_mem hes)))]) valid forest h.blocks
  · intro buf s' hr
    rw [hvisit] at hr
    rw [wp_pure]
    refine ⟨?_, rfl⟩
    split at hr
    case isTrue => cases hr
    case isFalse hzero => exact (not_not.mp hzero).symm
  · intro r hr
    rw [hvisit] at hr
    rw [wp_pure]
    refine ⟨?_, rfl⟩
    split at hr
    case isTrue => exact (Sum.inr.inj hr).symm
    case isFalse => cases hr

theorem wp_findInodeNumber (valid : Valid m.disk) (forest : IsForest m.disk.content)
    (h : HasEntries m.disk n b ds) (name : FileName) :
    wp (plain D clock) (findInodeNumber b name.arg)
      (fun r m' => r = numberOf ds.flatten name ∧ m' = Machine.later m) m :=
  wp_findInodeNumber_heap rfl valid forest h name

theorem wp_readAllDirents (valid : Valid m.disk) (forest : IsForest m.disk.content)
    (h : HasBlocks m.disk n b ds) (ctx : DirContext) (count : Nat) :
    wp (plain D clock) (readAllDirents b ctx count)
      (fun r m' => r = listEntries ds.flatten (ctx, count) ∧ m' = Machine.later m) m := by
  have hvisit : ∀ (ds : List (List Entry)) (s : DirContext × Nat),
      visitAll (β := DirContext × Nat) (fun es s => .inl (listEntries es s)) ds s =
        .inl (listEntries ds.flatten s) := by
    intro ds
    induction ds with
    | nil => exact fun s => rfl
    | cons es ds ih =>
      intro s
      rw [List.flatten_cons, listEntries, List.foldl_append]
      exact ih (listEntries es s)
  simp only [readAllDirents, wp_bind, wp_kmalloc]
  apply wp_walkDirectory (m := Machine.later m) (fun es _ t ht s => by rw [readAll_eq ht]) valid
    forest h
  · intro buf s' hr
    rw [hvisit] at hr
    rw [wp_pure]
    exact ⟨(Sum.inl.inj hr).symm, rfl⟩
  · intro r hr
    rw [hvisit] at hr
    cases hr

theorem wp_checkDirectoryEmpty_heap {buf : Block} (heap : E.heap m.tick = some buf)
    (valid : Valid m.disk) (forest : IsForest m.disk.content) (h : HasBlocks m.disk n b ds) :
    wp (machine D E) (checkDirectoryEmpty b)
      (fun r m' => r = ds.flatten.isEmpty ∧ m' = Machine.later m) m := by
  have hvisit : ∀ ds : List (List Entry), visitAll (fun es (_ : Unit) =>
      if es.isEmpty then .inl () else .inr ()) ds () =
      if ds.flatten.isEmpty then .inl () else .inr () := by
    intro ds
    induction ds with
    | nil => rfl
    | cons es ds ih =>
      rw [visitAll, List.flatten_cons]
      cases es with
      | nil => exact ih
      | cons e es => rfl
  simp only [checkDirectoryEmpty, wp_bind, wp_kmalloc_heap, heap]
  apply wp_walkDirectory (m := Machine.later m)
    (fun es _ t ht s => by rw [checkEmpty_block ht]) valid
    forest h
  · intro buf s' hr
    rw [hvisit] at hr
    rw [wp_pure]
    refine ⟨?_, rfl⟩
    split at hr
    case isTrue hempty => exact hempty.symm
    case isFalse => cases hr
  · intro r hr
    rw [hvisit] at hr
    rw [wp_pure]
    refine ⟨?_, rfl⟩
    split at hr
    case isTrue => cases hr
    case isFalse hsome => exact (Bool.eq_false_iff.mpr hsome).symm

theorem wp_checkDirectoryEmpty (valid : Valid m.disk) (forest : IsForest m.disk.content)
    (h : HasBlocks m.disk n b ds) :
    wp (plain D clock) (checkDirectoryEmpty b)
      (fun r m' => r = ds.flatten.isEmpty ∧ m' = Machine.later m) m :=
  wp_checkDirectoryEmpty_heap rfl valid forest h

end

end DirectoryMaps
