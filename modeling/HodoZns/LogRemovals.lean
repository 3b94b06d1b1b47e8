import HodoZns.StoredBlocks
import HodoZns.TreeRuns

/-!
# Removals in the log

What `hodo_unlink` leaves in the log, whatever the memory it is given holds. The
block that `compact_datablock` puts together ends with forty bytes of that memory;
the last slot begins with a zero all the same and is not taken for an entry.
-/

namespace LogRemovals

open ByteBlock Layout BlockLog ZoneLog NumberAllocator LogCalls LogStore Programs Kernel
  StoreMachine
open VolumeMachine FileBlocks BlockForest BlockFields FileWrites TreeWrites Directories Operations
open DirectoryWrites Ownership FileContents DirectoryBlocks DirectoryMaps Erasures Trees TreeCalls
open TreeRuns StoredBlocks

/-- `compacted` in memory that held `fill`. -/
def compactedWith (fill t : Block) (j : Nat) : Block :=
  copyIn (copyIn fill 0 j (byteAt t)) j (hodoDatablockSize - (j + hodoDirentSize)) fun i =>
    byteAt t (j + hodoDirentSize + i)

theorem byteAt_compactedWith (fill t : Block) {i j : Nat} (hj : j + 40 ≤ 4096) (hi : i < 4056) :
    byteAt (compactedWith fill t j) i = byteAt (compacted t j) i := by
  rw [byteAt_compacted t hj]
  simp only [compactedWith, hodoDatablockSize_eq, hodoDirentSize_eq]
  split
  case isTrue hlt =>
    rw [byteAt_copyIn_outside _ _ (Or.inl hlt), byteAt_copyIn_inside _ _ (by omega) (by omega)
      (by omega), Nat.sub_zero]
  case isFalse hge =>
    rw [byteAt_copyIn_inside _ _ (by omega) (by omega) (by omega)]
    congr 1
    omega

theorem not_valid_of_first {d : Dirent} (h : byteAt d 0 = 0) : isDirentValid d = false := by
  simp [isDirentValid, h]

/-- Slots that are the same, or entries in neither block, are not told apart. -/
theorem validDirents_congr {t t' : Block} (h : ∀ o ∈ direntOffsets, direntAt t o = direntAt t' o ∨
    byteAt (direntAt t o) 0 = 0 ∧ byteAt (direntAt t' o) 0 = 0) :
    validDirents t = validDirents t' := by
  rw [validDirents, validDirents]
  generalize direntOffsets = os at h ⊢
  induction os with
  | nil => rfl
  | cons o os ih =>
    have hrest := ih fun o' ho' => h o' (List.mem_cons_of_mem o ho')
    simp only [List.map_cons, List.filter_cons, hrest]
    rcases h o List.mem_cons_self with heq | ⟨hzero, hzero'⟩
    · rw [heq]
    · rw [not_valid_of_first hzero, not_valid_of_first hzero', if_neg Bool.false_ne_true,
        if_neg Bool.false_ne_true]

/-- The entries that are left, whatever the memory held. -/
theorem validDirents_compactedWith {t : Block} {es : List Entry} (h : BlockHolds t es) {k : Nat}
    (hk : k < es.length) (fill : Block) (q : Nat) :
    validDirents (stamp (compactedWith fill t (8 + 40 * k)) q) =
      (es.eraseIdx k).map Entry.record := by
  have hlen := h.len
  rw [← validDirents_eq ((h.remove hk).stamp q)]
  apply validDirents_congr
  intro o ho
  rw [direntOffsets_eq, List.mem_map] at ho
  obtain ⟨r, hr, rfl⟩ := ho
  have hr := List.mem_range.mp hr
  have hbyte : ∀ i, 8 ≤ i → i < 4056 → byteAt (stamp (compactedWith fill t (8 + 40 * k)) q) i =
      byteAt (stamp (compacted t (8 + 40 * k)) q) i := by
    intro i hlo hhi
    rw [byteAt_stamp _ _ (Or.inr hlo), byteAt_stamp _ _ (Or.inr hlo),
      byteAt_compactedWith _ _ (by omega) hhi]
  by_cases hlast : r < 101
  · exact Or.inl (direntAt_congr fun i hi => hbyte _ (by omega) (by omega))
  · have hzero : byteAt (direntAt (stamp (compacted t (8 + 40 * k)) q) (8 + 40 * r)) 0 = 0 := by
      rw [byteAt_direntAt _ _ (by omega), byteAt_stamp _ _ (Or.inr (by omega)),
        byteAt_compacted t (by omega), if_neg (by omega)]
      exact h.rest _ (by omega)
    refine Or.inr ⟨?_, hzero⟩
    rw [byteAt_direntAt _ _ (by omega)] at hzero ⊢
    rw [hbyte _ (by omega) (by omega)]
    exact hzero

section

variable {E : Env} {m m' : Machine Volume} {n p i j : Nat} {b t fill : Block} {name : Name}

theorem exec_kmallocUnchecked (heap : E.heap m.tick = some fill) :
    exec (machine volumeDisk E) kmallocUnchecked m =
      .done (fill, { m with tick := m.tick + 1 }) := by
  simp only [kmallocUnchecked, kmalloc, Cmd.give, exec_bind, exec_cmd, machine, heap, exec_pure]

theorem exec_touched :
    exec (machine volumeDisk E) (touched (putDirect b i p)) m =
      .done (uncounted b i p (E.clock m.tick) (E.clock (m.tick + 1)) (E.clock (m.tick + 2)),
        { m with tick := m.tick + 3 }) := by
  simp only [touched, currentTime, Cmd.give, exec_bind, exec_cmd, machine, exec_pure]
  rfl

theorem removeVisit_eq (n : Nat) (hfind : findName t name = some j) :
    removeVisit b name n i p t () = (do
      let temp ← kmallocUnchecked
      let (_, q) ← hodoWrite (compactedWith temp t j) p
      let inode ← touched (putDirect b i q)
      let (_, n) ← hodoWrite inode n
      let (_, n) ← hodoWrite inode n
      pure (.inr n)) := by
  simp only [removeVisit, removeDirentFromDirectBlock, hfind, compactDatablock,
    bind_assoc, pure_bind]
  rfl

/-- Without memory for the new block the kernel is lost. -/
theorem removeVisit_stuck (heap : E.heap m.tick = none) (hfind : findName t name = some j) :
    exec (machine volumeDisk E) (removeVisit b name n i p t ()) m = .stuck := by
  rw [removeVisit_eq n hfind]
  simp only [kmallocUnchecked, kmalloc, Cmd.give, exec_bind, exec_cmd, machine, heap]
  rfl

/-- What is found in the log after the entry at offset `j` of the block was taken out. -/
structure TakenOut (m m' : Machine Volume) (n i p j : Nat) (b t fill : Block) : Prop where
  ready : Ready m'.disk
  block : Stores m'.disk p (stamp (compactedWith fill t j) p)
  inode : ∃ x y z, Stores m'.disk n (stamp (uncounted b i p x y z) n)
  others : ∀ k c, k ≠ p → k ≠ n → Stores m.disk k c → Stores m'.disk k c

theorem removeVisit_runs (heap : E.heap m.tick = some fill) (hfind : findName t name = some j)
    (ready : Ready m.disk) (hn : Stores m.disk n b) (hp : Stores m.disk p t) (hn0 : n ≠ 0)
    (hp0 : p ≠ 0) (hne : p ≠ n)
    (fits : Guarded (machine volumeDisk E) Fits (removeVisit b name n i p t ()) m) :
    ∃ m', exec (machine volumeDisk E) (removeVisit b name n i p t ()) m = .done (.inr n, m') ∧
      TakenOut m m' n i p j b t fill := by
  rw [removeVisit_eq n hfind] at fits ⊢
  obtain ⟨he₁, fits₁⟩ := after_done (exec_kmallocUnchecked heap) fits
  obtain ⟨m₂, hm₂, he₂, fits₂, ready₂, hp₂, keeps₂⟩ :=
    after_write (m := { m with tick := m.tick + 1 })
    ready hp0 hp.inTable fits₁
  obtain ⟨he₃, fits₃⟩ := after_done exec_touched fits₂
  have hn₂ := keeps₂ n b (Ne.symm hne) hn
  obtain ⟨m₄, hm₄, he₄, fits₄, ready₄, hn₄, keeps₄⟩ :=
    after_write (m := { m₂ with tick := m₂.tick + 3 }) ready₂ hn0 hn₂.inTable fits₃
  obtain ⟨m₅, hm₅, he₅, fits₅, ready₅, hn₅, keeps₅⟩ := after_write ready₄ hn0 hn₄.inTable fits₄
  refine ⟨m₅, ?_, ready₅, keeps₅ p _ hne (keeps₄ p _ hne hp₂), ⟨_, _, _, hn₅⟩,
    fun k c hkp hkn hk => ?_⟩
  · rw [he₁, he₂, he₃, he₄, he₅]
    rfl
  · exact keeps₅ k c hkn (keeps₄ k c hkn (keeps₂ k c hkp hk))

/-- The walk over the direct blocks comes to block `k` when the visits before let it. -/
theorem walk_reaches {σ β : Type} {visit : Nat → Nat → Block → σ → Program (σ ⊕ β)}
    {s : σ} {k : Nat}
    (passes : ∀ i, i < k → direct b i ≠ 0 → ∃ t', Stores m.disk (direct b i) t' ∧
      visit i (direct b i) t' s = pure (.inl s))
    (hset : direct b k ≠ 0) (stores : Stores m.disk (direct b k) t) {i blocks : Nat} (hi : i ≤ k)
    (hk : k < i + blocks) (buf : Block) :
    ∃ f : σ ⊕ β → Program ((Block × σ) ⊕ β), (∀ r, f (.inr r) = pure (.inr r)) ∧
      exec (machine volumeDisk E)
        (walkBlocks visit ((List.range' i blocks).map fun i => (i, direct b i)) buf s) m =
        exec (machine volumeDisk E) (visit k (direct b k) t s >>= f) m ∧
      (Guarded (machine volumeDisk E) Fits
        (walkBlocks visit ((List.range' i blocks).map fun i => (i, direct b i)) buf s) m →
        Guarded (machine volumeDisk E) Fits (visit k (direct b k) t s >>= f) m) := by
  induction blocks generalizing i buf with
  | zero => omega
  | succ blocks ih =>
    simp only [List.range'_succ, List.map_cons, walkBlocks]
    by_cases heq : i = k
    · subst heq
      rw [if_neg hset]
      refine ⟨_, ?_, exec_bind_done (exec_hodoRead stores buf) _,
        fun fits => (after_done (exec_hodoRead stores buf) fits).2⟩
      intro r
      rfl
    · by_cases hzero : direct b i = 0
      · rw [if_pos hzero]
        exact ih (by omega) (by omega) buf
      · obtain ⟨t', stores', hpass⟩ := passes i (by omega) hzero
        obtain ⟨f, hf, hexec, hfits⟩ := ih (i := i + 1) (by omega) (by omega) t'
        have hread := exec_hodoRead (E := E) stores' buf
        rw [if_neg hzero]
        refine ⟨f, hf, ?_, fun fits => hfits ?_⟩
        · rw [exec_bind, hread, ← hexec]
          simp only [hpass, pure_bind]
        · have fits' := (after_done hread fits).2
          simpa only [hpass, pure_bind] using fits'

/-- Block `k` of the directory, which lies in the log, is the first with the name, and has
it at offset `j`. -/
structure FoundAt (v : Volume) (b : Block) (name : Name) (k j : Nat) (t : Block) : Prop where
  lt : k < 10
  set : direct b k ≠ 0
  block : Stores v (direct b k) t
  found : findName t name = some j
  before : ∀ i, i < k → direct b i ≠ 0 → ∃ t', Stores v (direct b i) t' ∧ findName t' name = none

theorem FoundAt.walk {k : Nat} (h : FoundAt m.disk b name k j t) (n : Nat) (buf : Block) :
    ∃ f : Unit ⊕ Nat → Program ((Block × Unit) ⊕ Nat), (∀ r, f (.inr r) = pure (.inr r)) ∧
      exec (machine volumeDisk E) (walkBlocks (removeVisit b name n) (directPtrs b) buf ()) m =
        exec (machine volumeDisk E) (removeVisit b name n k (direct b k) t () >>= f) m ∧
      (Guarded (machine volumeDisk E) Fits
        (walkBlocks (removeVisit b name n) (directPtrs b) buf ()) m →
        Guarded (machine volumeDisk E) Fits
          (removeVisit b name n k (direct b k) t () >>= f) m) := by
  rw [directPtrs, List.range_eq_range']
  refine walk_reaches (fun i hi hset => ?_) h.set h.block (Nat.zero_le k)
    (by have := h.lt; omega) buf
  obtain ⟨t', stores', hnone⟩ := h.before i hi hset
  refine ⟨t', stores', ?_⟩
  simp only [removeVisit, removeDirentFromDirectBlock, hnone, pure_bind]

theorem exec_kmalloc :
    exec (machine volumeDisk E) kmalloc m =
      .done (E.heap m.tick, { m with tick := m.tick + 1 }) := by
  rw [kmalloc, Cmd.give, exec_cmd]
  rfl

theorem removeDirent_failed (heap : E.heap m.tick = none) :
    exec (machine volumeDisk E) (removeDirent b name n) m =
      .done ((nothingFound, n), { m with tick := m.tick + 1 }) := by
  rw [removeDirent, exec_bind, exec_kmalloc, heap]
  rfl

theorem removeDirent_stuck {buf : Block} {k : Nat} (heap : E.heap m.tick = some buf)
    (heap' : E.heap (m.tick + 1) = none) (h : FoundAt m.disk b name k j t) :
    exec (machine volumeDisk E) (removeDirent b name n) m = .stuck := by
  obtain ⟨f, _, hexec, _⟩ := FoundAt.walk (E := E) (m := { m with tick := m.tick + 1 }) h n buf
  rw [exec_bind, removeVisit_stuck heap' h.found] at hexec
  rw [removeDirent, exec_bind, exec_kmalloc, heap]
  refine (exec_bind _ (walkBlocks (removeVisit b name n) (directPtrs b) buf ()) _ _).trans ?_
  rw [hexec]

theorem removeDirent_runs {buf : Block} {k : Nat} (heap : E.heap m.tick = some buf)
    (heap' : E.heap (m.tick + 1) = some fill) (h : FoundAt m.disk b name k j t)
    (ready : Ready m.disk) (hn : Stores m.disk n b) (hn0 : n ≠ 0) (hne : direct b k ≠ n)
    (fits : Guarded (machine volumeDisk E) Fits (removeDirent b name n) m) :
    ∃ m', exec (machine volumeDisk E) (removeDirent b name n) m = .done ((1, n), m') ∧
      TakenOut m m' n k (direct b k) j b t fill := by
  obtain ⟨f, hf, hexec, hfits⟩ := FoundAt.walk (E := E) (m := { m with tick := m.tick + 1 }) h n buf
  obtain ⟨he₁, fits₁⟩ := after_done exec_kmalloc fits
  rw [heap] at he₁ fits₁
  have fits₂ := hfits (guarded_bind.mp fits₁).1
  obtain ⟨m', he', out⟩ :=
    removeVisit_runs (m := { m with tick := m.tick + 1 }) heap' h.found ready hn
    h.block hn0 h.set hne (guarded_bind.mp fits₂).1
  rw [exec_bind, he'] at hexec
  refine ⟨m', ?_, out.ready, out.block, out.inode, out.others⟩
  rw [removeDirent, he₁]
  refine (exec_bind _ (walkBlocks (removeVisit b name n) (directPtrs b) buf ()) _ _).trans ?_
  rw [hexec]
  simp only [hf]
  rfl

end

/-- The number leads to an inode without links, whatever was read, and the others to where
they did. -/
theorem unlinkInode_keeps {E : Env} {m : Machine Volume} {n : Nat} (ready : Ready m.disk)
    (hn0 : n ≠ 0) (hin : InTable m.disk.info n)
    (fits : Guarded (machine volumeDisk E) Fits (unlinkInode n) m) :
    ∃ m' c, exec (machine volumeDisk E) (unlinkInode n) m = .done ((), m') ∧
      m'.tick = m.tick + 1 ∧ Ready m'.disk ∧ Stores m'.disk n c ∧ iNlink c = 0 ∧
      ∀ k d, k ≠ n → Stores m.disk k d → Stores m'.disk k d := by
  let m₁ : Machine Volume := m.setDisk { m.disk with info := hodoEraseTableEntry m.disk.info n }
  let m₂ : Machine Volume := { m₁ with tick := m.tick + 1 }
  have herase : exec (machine volumeDisk E) (eraseTableEntry n) m = .done ((), m₁) :=
    exec_eraseTableEntry (ready.erased hin).inside
  have hauto : exec (machine volumeDisk E) auto m₁ = .done (E.stack m.tick, m₂) := rfl
  obtain ⟨x, hread⟩ :=
    exec_hodoRead_any (E := E) (m := m₂) (erased_inTable.mpr hin) (E.stack m.tick)
  obtain ⟨he₁, fits₁⟩ := after_done herase fits
  obtain ⟨he₂, fits₂⟩ := after_done hauto fits₁
  obtain ⟨he₃, fits₃⟩ := after_done hread fits₂
  have hin' : InTable m₂.disk.info n := erased_inTable.mpr hin
  obtain ⟨m', rfl, he₄, _, ready', stores, keeps⟩ :=
    after_write (m := m₂) (ready.erased hin) hn0 hin' fits₃
  refine ⟨_, stamp (putNlink x 0) n, ?_, rfl, ready', stores, ?_, fun k d hne hd =>
    keeps k d hne (hd.erased hin hne)⟩
  · rw [unlinkInode, he₁, he₂, he₃, he₄]
    rfl
  · rw [iNlink, getLE_stamp _ n (by omega), putNlink, getLE_putLE _ _ (by omega), Nat.zero_mod]

section

variable {s : Store} {v : Volume} {n q i k : Nat} {b t fill : Block} {ds : List (List Entry)}
  {e : Entry}

/-- Without the entry no other has its name. -/
theorem other_names (h : HasEntries s n b ds) (hi : i < ds.length) (hk : k < ds[i].length) :
    ∀ e ∈ (ds.set i (ds[i].eraseIdx k)).flatten, e.name ≠ ds[i][k].name := by
  have unique := nodup_of_perm (flatten_erase_perm hi hk) h.unique
  rw [List.map_cons, List.nodup_cons] at unique
  exact fun e he heq => unique.1 (heq ▸ List.mem_map_of_mem he)

theorem mem_set_flatten {i' : Nat} (hi' : i' < ds.length) (hne : i' ≠ i) (es : List Entry)
    (he : e ∈ ds[i']) : e ∈ (ds.set i es).flatten := by
  have hlt : i' < (ds.set i es).length := by rwa [List.length_set]
  have hsame : (ds.set i es)[i'] = ds[i'] := List.getElem_set_ne (Ne.symm hne) hlt
  exact List.mem_flatten.mpr ⟨ds[i'], hsame ▸ List.getElem_mem hlt, he⟩

/-- The pointers of a directory are different, and none of them is its own number. -/
theorem direct_ne (forest : IsForest s.content) (h : HasEntries s n b ds) {i' : Nat} (hi : i < 10)
    (hi' : i' < 10) (hset : direct b i' ≠ 0) :
    direct b i' ≠ n ∧ (i' ≠ i → direct b i ≠ 0 → direct b i' ≠ direct b i) := by
  have points : ∀ {o}, o < 10 → direct b o ≠ 0 → PointsTo s.content n o (direct b o) 0 :=
    fun {o} ho hset => ⟨b, h.inode, slot_of_field (fieldOf_direct ho) h.isInode hset⟩
  refine ⟨fun heq => ?_, fun hne hset' heq => hne ?_⟩
  · have hpoints := points hi' hset
    rw [heq] at hpoints
    exact forest.orphan_of_inode h.inode h.isInode n i' 0 hpoints
  · have hpoints := points hi' hset
    rw [heq] at hpoints
    exact (forest.owner hpoints (points hi hset')).2

/-- Where the blocks of the directory are found in the log, the entry is. -/
theorem found_of_entries (valid : Valid s) (forest : IsForest s.content) (h : HasEntries s n b ds)
    (has : ∀ x d, s.content x = some d → Stores v x d) (he : e ∈ ds.flatten) :
    ∃ i k t, ∃ hi : i < ds.length, ∃ hk : k < ds[i].length, ds[i][k] = e ∧ BlockHolds t ds[i] ∧
      FoundAt v b e.name.arg i (8 + 40 * k) t := by
  obtain ⟨d, hd, he⟩ := List.mem_flatten.mp he
  obtain ⟨i, hi, rfl⟩ := List.getElem_of_mem hd
  obtain ⟨k, hk, rfl⟩ := List.getElem_of_mem he
  obtain ⟨t, ht, hold⟩ := h.block i hi
  have hlen := h.len
  have hlt : i < 10 := by omega
  refine ⟨i, k, t, hi, hk, rfl, hold, hlt, fun hzero => ?_, ?_, ?_, fun i' hi' hset => ?_⟩
  · rw [(dataAt_eq_none_iff valid forest h.inode h.isInode hlt).mpr hzero] at ht
    cases ht
  · rw [dataAt_direct _ _ hlt] at ht
    exact has _ t ht
  · exact findName_eq_some hold hk fun k' h' heq => index_of_name (h.unique_in hi) hk h' heq
  · obtain ⟨t', ht', hold'⟩ := h.block i' (by omega)
    rw [dataAt_direct _ _ (by omega)] at ht'
    refine ⟨t', has _ t' ht', findName_eq_none hold' fun e' he' => ?_⟩
    exact other_names h hi hk e' (mem_set_flatten (by omega) (by omega) _ he')

/-- The entries that are found when one of them was taken out. -/
theorem direntsOf_taken (valid : Valid s) (forest : IsForest s.content) (h : HasEntries s n b ds)
    (hi : i < ds.length) (hk : k < ds[i].length) (hold : BlockHolds t ds[i])
    {c : Nat → Option Block} (h0 : c 0 = none) {x y z : Timespec}
    (hinode : c n = some (stamp (uncounted b i (direct b i) x y z) n))
    (hblock : c (direct b i) = some (stamp (compactedWith fill t (8 + 40 * k)) q))
    (others : ∀ i' t', i' < 10 → i' ≠ i → s.content (direct b i') = some t' →
      c (direct b i') = some t') :
    direntsOf c n = (ds.set i (ds[i].eraseIdx k)).flatten.map Entry.record := by
  have hlen : (ds.set i (ds[i].eraseIdx k)).length = ds.length := List.length_set
  rw [direntsOf, ← flatMap_getD (ds.set i (ds[i].eraseIdx k)) (hlen.trans_le h.len),
    List.map_flatMap]
  apply List.flatMap_congr
  intro o ho
  have ho := List.mem_range.mp ho
  have hdirect : direct (stamp (uncounted b i (direct b i) x y z) n) o = direct b o :=
    (getLE_stamp _ n (by omega)).trans (inodePtr_uncounted b i x y z o)
  rw [storedBlock_eq hinode, dataAt_direct _ _ ho, hdirect]
  by_cases heq : o = i
  · subst heq
    rw [hblock, Option.map_some, Option.getD_some, validDirents_compactedWith hold hk,
      List.getD_eq_getElem _ _ (by rw [hlen]; exact hi), List.getElem_set_self]
  · by_cases hlt : o < ds.length
    · obtain ⟨t', ht', hold'⟩ := h.block o hlt
      rw [dataAt_direct _ _ ho] at ht'
      rw [others o t' ho heq ht', Option.map_some, Option.getD_some, validDirents_eq hold',
        List.getD_eq_getElem _ _ (by rw [hlen]; exact hlt), List.getElem_set_ne (Ne.symm heq)]
    · have hzero := (dataAt_eq_none_iff valid forest h.inode h.isInode ho).mp
        (h.beyond o (by omega) ho)
      rw [hzero, h0, List.getD_eq_default _ _ (by omega)]
      rfl

end

end LogRemovals
