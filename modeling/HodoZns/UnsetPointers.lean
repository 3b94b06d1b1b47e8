import HodoZns.SystemRuns

/-!
# Pointers that are not set

A reader visits the blocks from the one at the position to the one at the end of the
request and follows their pointers without a look at them. Number 0 stands outside
the mapping table. Where a fetch through it does nothing, every request ends; where
it does not, a request ends exactly when all the blocks it comes to are there.
-/

namespace UnsetPointers

open ByteBlock Layout BlockLog ZoneLog NumberAllocator LogCalls LogStore Programs Kernel
  StoreMachine VolumeMachine
open FileBlocks Ancestry BlockForest BlockFields TreeWrites FileWrites FileContents Erasures
  FileReads TreeCalls SystemRuns

/-- The disk on which a read of number 0 does nothing. -/
def harmless {σ : Type} (D : Disk σ) : Disk σ :=
  { D with read := fun n buf s => if n = 0 then .done ((0, buf), s) else D.read n buf s }

instance {D : Disk Store} [LikeStore D] : LikeStore (harmless D) where
  startingNumber := LikeStore.startingNumber (D := D)
  next := LikeStore.next (D := D)
  write := LikeStore.write (D := D)
  read {s n b} valid hb buf := by
    have hn : n ≠ 0 := valid.ne_zero (valid.used hb)
    simp only [harmless, if_neg hn]
    exact LikeStore.read (D := D) valid hb buf

section Programs

variable {intact : Bool} {E : Env} {α : Type} {p : Program α} {m : Machine Volume}
  {a : Machine Store} {Q : α → Machine Store → Prop}

theorem command_harmless (E : Env) (m : Machine Volume) (a : Machine Store) (c : Cmd)
    (h : Follows intact m a) (fits : Fits m c) :
    Matches (Follows intact) (machine (harmless volumeDisk) E c m)
      (machine (harmless storeDisk) E c a) := by
  cases c with
  | read n buf =>
    by_cases hn : n = 0
    · simp only [machine, harmless, if_pos hn, Outcome.map]
      exact ⟨m, rfl, h⟩
    · simp only [machine, harmless, if_neg hn]
      exact command_follows E m a (.read n buf) h fits
  | startingNumber => exact command_follows E m a .startingNumber h fits
  | next => exact command_follows E m a .next h fits
  | write buf n => exact command_follows E m a (.write buf n) h fits
  | erase n => exact command_follows E m a (.erase n) h fits
  | gc temp => exact command_follows E m a (.gc temp) h fits
  | kmalloc => exact command_follows E m a .kmalloc h fits
  | auto => exact command_follows E m a .auto h fits
  | now => exact command_follows E m a .now h fits
  | newInode => exact command_follows E m a .newInode h fits
  | inode ref => exact command_follows E m a (.inode ref) h fits
  | setInode ref f => exact command_follows E m a (.setInode ref f) h fits

theorem program_harmless (h : Follows intact m a)
    (fits : Guarded (machine (harmless volumeDisk) E) Fits p m)
    (safe : wp (machine (harmless storeDisk) E) p Q a) :
    ∃ r m' a', exec (machine (harmless volumeDisk) E) p m = .done (r, m') ∧
      Follows intact m' a' ∧ Q r a' :=
  exec_simulates Fits (Follows intact) (fun m a c => command_harmless E m a c) h fits safe

/-- No read goes through an unset pointer. -/
def ReadsSet (_ : Machine Volume) : Cmd → Prop
  | .read n _ => n ≠ 0
  | _ => True

/-- `hodo_read_struct` is called for a number that the bitmap says is in use. -/
def ReadsAllocated (m : Machine Volume) : Cmd → Prop
  | .read n _ =>
    n ≠ 0 ∧ InTable m.disk.info n ∧ allocated m.disk.info (tableIndex m.disk.info n) = true
  | _ => True

instance (m : Machine Volume) : (c : Cmd) → Decidable (ReadsAllocated m c)
  | .read n _ => inferInstanceAs (Decidable (n ≠ 0 ∧ InTable m.disk.info n ∧
      allocated m.disk.info (tableIndex m.disk.info n) = true))
  | .startingNumber | .next | .write _ _ | .erase _ | .gc _ | .kmalloc | .auto | .now | .newInode
  | .inode _ | .setInode _ _ => isTrue trivial

theorem readsSet_of_allocated (m : Machine Volume) (c : Cmd) (h : ReadsAllocated m c) :
    ReadsSet m c := by
  cases c with
  | read n buf => exact h.1
  | _ => trivial

/-- A read that is answered is of a number in the table, which 0 is not. -/
theorem readsSet_of_answered {c : Cmd} {r : c.Reply} {m' : Machine Volume}
    (starting : m.disk.info.startingLogicalNumber = 16)
    (hstep : machine volumeDisk E c m = .done (r, m')) : ReadsSet m c := by
  cases c with
  | read n buf =>
    rintro rfl
    have hout : ¬ InTable m.disk.info 0 := by
      rintro ⟨_, hidx⟩
      simp [tableIndex, starting] at hidx
    simp only [machine, volumeDisk, hodoReadStruct_eq, if_neg hout, Outcome.map, reduceCtorEq]
      at hstep
  | _ => trivial

theorem allocated_of_stored (h : Follows intact m a) {n : Nat} {b : Block}
    (hb : a.disk.content n = some b) : n ≠ 0 ∧ InTable m.disk.info n ∧
      allocated m.disk.info (tableIndex m.disk.info n) = true := by
  obtain ⟨w, _, near, rep⟩ := h.near
  have hused := rep.used n b hb
  have hin := rep.inTable_of_used hused
  refine ⟨rep.consistent.ne_zero hin, near.inTable.mpr hin, ?_⟩
  rw [allocated, near.bitmap, near.index_eq, ← allocated]
  apply (rep.allocated_iff _ hin.2).mpr
  have hin' := rep.inTable.mp hin
  obtain ⟨hlo, hhi⟩ := hused
  have hbase := rep.base
  simp only [numberMappingTableEntry_eq] at hin'
  simp only [tableIndex, rep.consistent.starting]
  omega

/-- A command that is answered is answered in the same way by both. -/
theorem matches_cases {σ τ β : Type} {Rel : σ → τ → Prop} {o : Outcome (β × σ)}
    {o' : Outcome (β × τ)} (h : Matches Rel o o') :
    o' = .stuck ∨ ∃ r s t, o = .done (r, s) ∧ o' = .done (r, t) ∧ Rel s t := by
  cases o' with
  | done r =>
    obtain ⟨s, hs, hrel⟩ := h
    exact Or.inr ⟨r.1, s, r.2, hs, rfl, hrel⟩
  | noRoom => exact h.elim
  | stuck => exact Or.inl rfl

/-- What is safe over the plain map reads numbers in use only. -/
theorem guarded_of_safe (h : Follows intact m a) (reads : p.Only Passive)
    (safe : wp (machine storeDisk E) p Q a) :
    Guarded (machine volumeDisk E) ReadsAllocated p m := by
  induction reads generalizing m a with
  | done r => trivial
  | crash => trivial
  | @call c next passive _ ih =>
    rw [Programs.wp_call] at safe
    rcases matches_cases (command_follows E m a c h (fits_of_passive m c passive)) with
      hstuck | ⟨r, m', a', hvolume, hstore, h'⟩
    · rw [hstuck] at safe
      exact safe.elim
    · refine (guarded_call hvolume).mpr ⟨?_, ?_⟩
      · cases c with
        | read n buf =>
          cases hb : a.disk.content n with
          | some b => exact allocated_of_stored h hb
          | none =>
            simp only [machine, storeDisk, hb, Outcome.map, reduceCtorEq] at hstore
        | _ => trivial
      · rw [hstore] at safe
        exact ih r h' safe

theorem harmless_of_set {c : Cmd} (h : ReadsSet m c) :
    machine (harmless storeDisk) E c a = machine storeDisk E c a := by
  cases c with
  | read n buf => simp only [machine, harmless, if_neg (show ¬ n = 0 from h)]
  | _ => rfl

/-- A program that goes through set pointers only does not notice what a read of number 0
would do. -/
theorem safe_of_guarded (h : Follows intact m a) (reads : p.Only Passive)
    (guarded : Guarded (machine volumeDisk E) ReadsSet p m)
    (safe : wp (machine (harmless storeDisk) E) p Q a) : wp (machine storeDisk E) p Q a := by
  induction reads generalizing m a with
  | done r => exact (Programs.wp_pure _ r Q a).mpr ((Programs.wp_pure _ r Q a).mp safe)
  | crash => exact absurd safe (not_wp_crash _ _ _)
  | @call c next passive _ ih =>
    rw [Programs.wp_call] at safe ⊢
    rw [harmless_of_set guarded.1] at safe
    rcases matches_cases (command_follows E m a c h (fits_of_passive m c passive)) with
      hstuck | ⟨r, m', a', hvolume, hstore, h'⟩
    · rw [hstuck] at safe
      exact safe.elim
    · rw [hstore] at safe ⊢
      exact ih r h' (guarded.2 r m' hvolume) safe

/-- Nor does one that comes to an end over the log. -/
theorem safe_of_ended {r : α} {m' : Machine Volume} (h : Follows intact m a)
    (reads : p.Only Passive) (ended : exec (machine volumeDisk E) p m = .done (r, m'))
    (safe : wp (machine (harmless storeDisk) E) p Q a) : wp (machine storeDisk E) p Q a := by
  induction reads generalizing m a with
  | done r => exact (Programs.wp_pure _ r Q a).mpr ((Programs.wp_pure _ r Q a).mp safe)
  | crash => cases ended
  | @call c next passive _ ih =>
    obtain ⟨r₁, m₁, hstep, ended⟩ := exec_call_eq_done ended
    obtain ⟨w, _, near, rep⟩ := id h.near
    have hset := readsSet_of_answered (near.starting.trans rep.consistent.starting) hstep
    rw [Programs.wp_call] at safe ⊢
    rw [harmless_of_set hset] at safe
    rcases matches_cases (command_follows E m a c h (fits_of_passive m c passive)) with
      hstuck | ⟨r, m', a', hvolume, hstore, h'⟩
    · rw [hstuck] at safe
      exact safe.elim
    · obtain ⟨rfl, rfl⟩ := Prod.mk.inj (Outcome.done.inj (hvolume.symm.trans hstep))
      rw [hstore] at safe ⊢
      exact ih r h' ended safe

end Programs

section Fetches

variable {clock : Nat → Timespec} {m : Machine Store} {n : Nat} {b dst : Block}

/-- The inode of a file in a forest. -/
structure FileInode (s : Store) (n : Nat) (b : Block) : Prop where
  valid : Valid s
  forest : IsForest s.content
  inode : s.content n = some b
  isInode : isDat b = false

theorem blockPtr_beyond (t : Block) {i : Nat} (hi : numOfBlockPoses ≤ i) : blockPtr t i = 0 := by
  have outside : ∀ j, 4096 ≤ j → byteAt t j = 0 := fun j hj => byteAt_of_le t hj
  simp only [numOfBlockPoses_eq] at hi
  simp only [blockPtr, hodoDataStart_eq, blockPtrSz, getLE]
  rw [outside _ (by omega), outside _ (by omega), outside _ (by omega), outside _ (by omega)]
  rfl

/-- Behind the last block of a file the way leads past the pointers of an index block. -/
theorem walk_beyond {c : Nat → Option Block} (h0 : c 0 = none) (k p : Nat) {off : Nat}
    (hoff : numOfBlockPoses ^ (k + 1) ≤ off) : c (walk c (k + 1) p off) = none := by
  have hi : numOfBlockPoses ≤ off / numOfBlockPoses ^ k := by
    rw [Nat.le_div_iff_mul_le (Nat.pow_pos (by simp)), ← Nat.pow_succ']
    exact hoff
  have hchild : child c p (off / numOfBlockPoses ^ k) = 0 := by
    rw [child]
    split
    · exact blockPtr_beyond _ hi
    · rfl
  rw [walk, hchild, walk_zero h0, h0]

/-- The way to any block, and what stands at its end. -/
theorem FileInode.path {s : Store} (file : FileInode s n b) (o : Nat) :
    ∃ k p off, blockPath b o = (p, pathOf k off) ∧ RootOf s.content p k ∧
      dataAt s.content b o = s.content (walk s.content k p off) := by
  have h0 := file.valid.content_zero
  cases hf : fieldOf o with
  | some f =>
    exact ⟨_, _, _, blockPath_eq b hf, rootOf_field file.forest file.inode hf file.isInode,
      dataAt_field hf⟩
  | none =>
    have hlast := fieldOf_eq_none.mp hf
    simp only [blocksPerFile_eq] at hlast
    refine ⟨3, inodePtr b 12, o - tripleStart, ?_, ?_, ?_⟩
    · simp only [blockPath, singleStart_eq, doubleStart_eq, tripleStart_eq, pathOf]
      rw [if_neg (by omega), if_neg (by omega), if_neg (by omega)]
      simp [tripleIndirect, inodePtr, Nat.pow_two]
    · exact file.forest.rootOf fun hne => ⟨b, file.inode, Slot.field file.isInode (by decide) hne⟩
    · rw [dataAt_none hf h0, walk_beyond h0]
      simp only [tripleStart_eq, numOfBlockPoses_eq]
      omega

/-- Nothing, or a block at least `k` levels above the data. -/
def LeadsTo (c : Nat → Option Block) (k p : Nat) : Prop := p = 0 ∨ ∃ j, k ≤ j ∧ Holds c p j

theorem LeadsTo.mono {c : Nat → Option Block} {j k p : Nat} (h : LeadsTo c k p) (hle : j ≤ k) :
    LeadsTo c j p :=
  h.imp id fun ⟨i, hi, hp⟩ => ⟨i, Nat.le_trans hle hi, hp⟩

theorem leadsTo_of_root {c : Nat → Option Block} {k p : Nat} (h : RootOf c p k) : LeadsTo c k p :=
  h.imp id fun hp => ⟨k, Nat.le_refl k, hp⟩

/-- Below a block the pointers lead one level down. -/
theorem leadsTo_blockPtr {c : Nat → Option Block} (forest : IsForest c) {k p j : Nat} {t : Block}
    (hp : c p = some t) (level : HasLevel t j) (hle : k + 1 ≤ j) (i : Nat) :
    LeadsTo c k (blockPtr t i) := by
  by_cases hi : i < numOfBlockPoses
  case neg => exact Or.inl (blockPtr_beyond t (Nat.not_lt.mp hi))
  by_cases hzero : blockPtr t i = 0
  · exact Or.inl hzero
  · obtain ⟨j, rfl⟩ : ∃ j', j = j' + 1 := ⟨j - 1, by omega⟩
    exact Or.inr ⟨j, by omega, forest.target ⟨t, hp, Slot.index level hi hzero⟩⟩

theorem wp_harmlessRead_zero {D : Disk Store} {E : Env} (buf : Block)
    (Q : Block → Machine Store → Prop) :
    wp (machine (harmless D) E) (hodoRead 0 buf) Q m ↔ Q buf m := by
  simp only [hodoRead, Cmd.give, wp_bind, wp_cmd, wp_pure, machine, harmless, if_pos]
  rfl

/-- The buffer starts empty, and holds the last index block that was there. -/
theorem wp_followPtrs_harmless {k p off : Nat} {temp : Block} {Q : Nat → Machine Store → Prop}
    (valid : Valid m.disk) (forest : IsForest m.disk.content) (root : LeadsTo m.disk.content k p)
    (below : ∀ i, LeadsTo m.disk.content (k - 1) (blockPtr temp i))
    (post : ∀ q, LeadsTo m.disk.content 0 q → Q q m) :
    wp (plain (harmless storeDisk) clock) (followPtrs (pathOf k off) p temp) Q m := by
  induction k generalizing p off temp with
  | zero =>
    rw [pathOf, followPtrs, wp_pure]
    exact post p root
  | succ k ih =>
    rw [pathOf, followPtrs, wp_bind]
    rcases root with rfl | ⟨j, hj, t, ht, level⟩
    · rw [wp_harmlessRead_zero]
      exact ih (below _) fun i => (below i).mono (Nat.sub_le k 1)
    · rw [wp_hodoRead_some valid ht]
      exact ih (leadsTo_blockPtr forest ht level hj _) fun i =>
        (leadsTo_blockPtr forest ht level hj i).mono (Nat.sub_le k 1)

theorem blockPtr_zeros (i : Nat) : blockPtr zeros i = 0 := by
  rw [blockPtr, getLE_zeros]

/-- Every block of a file is fetched, also where a pointer is not set. -/
theorem fetched_harmless {s : Store} (file : FileInode s n b) (o : Nat) :
    Fetched (harmless storeDisk) clock s b o := by
  rintro m dst Q rfl post
  obtain ⟨k, p, off, hpath, root, _⟩ := file.path o
  have hroot := leadsTo_of_root root
  have read : ∀ q m', Unchanged m m' → LeadsTo m.disk.content 0 q →
      wp (plain (harmless storeDisk) clock) (hodoRead q dst) Q m' := by
    rintro q m' hm' (rfl | ⟨_, _, t, ht, _⟩)
    · exact (wp_harmlessRead_zero dst Q).mpr (post dst m' hm')
    · rw [← hm'.disk] at ht
      exact (wp_hodoRead_some (hm'.disk ▸ file.valid) ht dst Q).mpr (post t m' hm')
  simp only [hodoReadNthBlock, Int.toNat_natCast, hpath]
  rw [if_neg (by omega)]
  split
  case isTrue =>
    rw [wp_bind, wp_pure]
    exact read _ m (Unchanged.refl m) (hroot.mono (Nat.zero_le _))
  case isFalse =>
    rw [wp_bind, wp_kmallocUnchecked, wp_bind]
    refine wp_followPtrs_harmless (m := Machine.later m) file.valid file.forest hroot
      (fun i => Or.inl (blockPtr_zeros i)) fun q hq => ?_
    exact read q _ (unchanged_later m) hq

end Fetches

section Strict

variable {clock : Nat → Timespec} {m : Machine Store} {n : Nat} {b dst : Block}

/-- There is no block under number 0. -/
theorem not_wp_readZero (valid : Valid m.disk) (buf : Block) (Q : Block → Machine Store → Prop) :
    ¬ wp (plain storeDisk clock) (hodoRead 0 buf) Q m := by
  simp only [hodoRead, Cmd.give, wp_bind, wp_cmd, wp_pure, machine, storeDisk, valid.content_zero]
  exact id

/-- The way to a block that is not there comes to an unset pointer. -/
theorem not_wp_followPtrs {k p off : Nat} {temp dst : Block} {Q : Block → Machine Store → Prop}
    (valid : Valid m.disk) (forest : IsForest m.disk.content) (root : RootOf m.disk.content p k)
    (missing : m.disk.content (walk m.disk.content k p off) = none) :
    ¬ wp (plain storeDisk clock) (followPtrs (pathOf k off) p temp)
      (fun q m' => wp (plain storeDisk clock) (hodoRead q dst) Q m') m := by
  induction k generalizing p off temp with
  | zero =>
    rw [pathOf, followPtrs, wp_pure]
    rcases root with rfl | ⟨d, hd, _⟩
    · exact not_wp_readZero valid dst Q
    · rw [walk, hd] at missing
      cases missing
  | succ k ih =>
    rw [pathOf, followPtrs, wp_bind]
    rcases root with rfl | hholds
    · exact not_wp_readZero valid temp _
    · have hroot : RootOf m.disk.content
        (child m.disk.content p (off / numOfBlockPoses ^ k)) k := by
        by_cases hi : off / numOfBlockPoses ^ k < numOfBlockPoses
        · exact child_rootOf forest valid.content_zero (Or.inr hholds) hi
        · obtain ⟨d, hd, _⟩ := hholds
          rw [child, hd]
          exact Or.inl (blockPtr_beyond d (Nat.not_lt.mp hi))
      obtain ⟨d, hd, _⟩ := hholds
      have hchild : child m.disk.content p (off / numOfBlockPoses ^ k) =
          blockPtr d (off / numOfBlockPoses ^ k) := by
        rw [child, hd]
      rw [walk, hchild] at missing
      rw [hchild] at hroot
      rw [wp_hodoRead_some valid hd]
      exact ih hroot missing

theorem there_of_wp {index : Nat} {Q : Block → Machine Store → Prop} (file : FileInode m.disk n b)
    (safe : wp (plain storeDisk clock) (hodoReadNthBlock b index dst) Q m) :
    ∃ t m', dataAt m.disk.content b index = some t ∧ Unchanged m m' ∧ Q t m' := by
  cases ht : dataAt m.disk.content b index with
  | some t =>
    obtain ⟨m', hm', hiff⟩ :=
      @wp_hodoReadNthBlock_iff clock m storeDisk _ b t dst index file.valid ht
    exact ⟨t, m', rfl, hm', (hiff Q).mp safe⟩
  | none =>
    exfalso
    obtain ⟨k, p, off, hpath, root, hleaf⟩ := file.path index
    rw [hleaf] at ht
    simp only [hodoReadNthBlock, Int.toNat_natCast, hpath] at safe
    rw [if_neg (by omega)] at safe
    split at safe
    case isTrue hnil =>
      apply @not_wp_followPtrs clock m _ _ _ zeros dst Q file.valid file.forest root ht
      rw [wp_bind] at safe
      rw [hnil]
      exact safe
    case isFalse =>
      rw [wp_bind, wp_kmallocUnchecked, wp_bind] at safe
      exact not_wp_followPtrs (m := Machine.later m) file.valid file.forest root ht safe

theorem middle_there {blocks o : Nat} {iocb : Kiocb} {sink : IovSink} {temp : Block}
    {Q : Kiocb × IovSink × Block → Machine Store → Prop} (file : FileInode m.disk n b)
    (safe : wp (plain storeDisk clock) (readMiddle b blocks o iocb sink temp) Q m) :
    (∀ i, o ≤ i → i < o + blocks → dataAt m.disk.content b i ≠ none) ∧
      ∃ r m', Unchanged m m' ∧ Q r m' := by
  induction blocks generalizing m o iocb sink temp with
  | zero =>
    rw [readMiddle, wp_pure] at safe
    exact ⟨fun i hlo hhi => absurd hlo (by omega), _, m, Unchanged.refl m, safe⟩
  | succ blocks ih =>
    rw [readMiddle, wp_bind] at safe
    obtain ⟨t, m₁, ht, hm₁, safe⟩ := there_of_wp file safe
    have file₁ : FileInode m₁.disk n b := by
      rw [hm₁.disk]
      exact file
    obtain ⟨hrest, r, m₂, hm₂, hq⟩ := ih file₁ (o := o + 1) safe
    rw [hm₁.disk] at hrest
    refine ⟨fun i hlo hhi => ?_, r, m₂, hm₁.trans hm₂, hq⟩
    rcases Nat.eq_or_lt_of_le hlo with rfl | hlt
    · rw [ht]
      exact Option.some_ne_none t
    · exact hrest i hlt (by omega)

theorem wp_middle_of_there {blocks o : Nat} {iocb : Kiocb} {sink : IovSink} {temp : Block}
    {Q : Kiocb × IovSink × Block → Machine Store → Prop} (valid : Valid m.disk)
    (there : ∀ i, o ≤ i → i < o + blocks → dataAt m.disk.content b i ≠ none)
    (post : ∀ r m', Unchanged m m' → Q r m') :
    wp (plain storeDisk clock) (readMiddle b blocks o iocb sink temp) Q m := by
  induction blocks generalizing m o iocb sink temp with
  | zero =>
    rw [readMiddle, wp_pure]
    exact post _ m (Unchanged.refl m)
  | succ blocks ih =>
    obtain ⟨t, ht⟩ := Option.ne_none_iff_exists'.mp (there o (Nat.le_refl o) (by omega))
    rw [readMiddle, wp_bind]
    apply wp_hodoReadNthBlock_some valid ht
    intro m₁ hm₁
    apply ih (o := o + 1) (by rw [hm₁.disk]; exact valid)
    · intro i hlo hhi
      rw [hm₁.disk]
      exact there i (by omega) (by omega)
    · exact fun r m₂ hm₂ => post r m₂ (hm₁.trans hm₂)

end Strict

/-- `read_len`, whatever its sign. -/
def signedLength (rest n : Nat) : Int :=
  if n < u64 (toInt32 rest) then toInt32 n else toInt32 rest

/-- `end_block`. -/
def endBlock (len pos n : Nat) : Int :=
  toInt32 (u64 (pos + signedLength (len - pos) n) / hodoDataSize)

theorem signedLength_bounds (rest n : Nat) :
    -2 ^ 31 ≤ signedLength rest n ∧ signedLength rest n < 2 ^ 31 := by
  have bounds : ∀ x : Nat, -2 ^ 31 ≤ toInt32 x ∧ toInt32 x < 2 ^ 31 := by
    intro x
    rw [toInt32]
    split <;> omega
  rw [signedLength]
  split
  · exact bounds n
  · exact bounds rest

section Request

variable {D : Disk Store} {clock : Nat → Timespec} {m : Machine Store} {n : Nat} {b : Block}
  {pos k last : Nat} {iocb : Kiocb}

/-- Whatever the blocks hold, the position moves on. -/
theorem wp_readMiddle_fetched {temp : Block} {blocks o : Nat} {sink : IovSink}
    (fetched : ∀ i, o ≤ i → i < o + blocks → Fetched D clock m.disk b i) :
    wp (plain D clock) (readMiddle b blocks o iocb sink temp)
      (fun r m' => Unchanged m m' ∧
        r.1 = { iocb with kiPos := iocb.kiPos + (4088 * blocks : Nat) }) m := by
  induction blocks generalizing m o iocb sink temp with
  | zero =>
    simp only [readMiddle, wp_pure]
    exact ⟨Unchanged.refl m, by simp⟩
  | succ blocks ih =>
    simp only [readMiddle, wp_bind]
    apply fetched o (Nat.le_refl o) (by omega) temp _ rfl
    intro t m' hm'
    apply wp_mono _ (ih (o := o + 1) fun i hlo hhi => ?_)
    · intro r m'' hr
      refine ⟨hm'.trans hr.1, hr.2.trans ?_⟩
      simp only [hodoDataSize_eq, Kiocb.mk.injEq, true_and]
      omega
    · rw [hm'.disk]
      exact fetched i (by omega) (by omega)

/-- A request all of whose blocks are fetched ends, and moves on by the length it returns. -/
theorem wp_readFile_fetched (hpos : iocb.kiPos = pos) (hlt : pos < fileLen b)
    (hlen : fileLen b ≤ blocksPerFile * hodoDataSize)
    (hend : endBlock (fileLen b) pos k = last)
    (fetched : ∀ o, pos / hodoDataSize ≤ o → o ≤ max (pos / hodoDataSize) last →
      Fetched D clock m.disk b o) :
    wp (plain D clock) (readFile b iocb ⟨k, []⟩)
      (fun r _ => r.1 = signedLength (fileLen b - pos) k ∧
        (0 ≤ signedLength (fileLen b - pos) k → r.2.1.kiPos = pos + r.1)) m := by
  simp only [blocksPerFile_eq, hodoDataSize_eq] at hlen fetched
  have hu : u64 iocb.kiPos = pos := by rw [hpos, u64_ofNat (by omega)]
  have hrest : u64 ((fileLen b : Int) - (pos : Int)) = fileLen b - pos :=
    u64_rest (Nat.le_of_lt hlt) (by omega)
  have hstart : toInt32 (pos / 4088) = (pos / 4088 : Nat) := toInt32_of_lt (by omega)
  have hsigned : (if k < u64 (toInt32 (fileLen b - pos)) then toInt32 k
      else toInt32 (fileLen b - pos)) = signedLength (fileLen b - pos) k := rfl
  obtain ⟨len, hlength⟩ : ∃ len, signedLength (fileLen b - pos) k = len := ⟨_, rfl⟩
  have hbound : len < 2 ^ 31 := hlength ▸ (signedLength_bounds _ k).2
  rw [hlength] at hsigned ⊢
  simp only [endBlock, hlength, hodoDataSize_eq] at hend
  simp only [readFile, wp_ite, wp_bind, wp_pure, hu, hrest, hodoDataSize_eq, hodoDataStart_eq,
    wp_kmallocUnchecked]
  rw [if_neg (by omega), hsigned, hpos, hend, hstart]
  -- the sum is no larger than what 64 bits hold, and its quotient no larger than an `int`
  have hsum : 0 ≤ len →
    u64 (pos + len) = (pos + len).toNat ∧ (last : Int) = (pos + len) / 4088 := by
    intro hnonneg
    obtain ⟨l, rfl⟩ := Int.eq_ofNat_of_zero_le hnonneg
    rw [← Int.natCast_add, u64_ofNat (by omega)] at hend ⊢
    rw [toInt32_of_lt (by omega)] at hend
    exact ⟨(Int.toNat_natCast _).symm, by omega⟩
  apply fetched (pos / 4088) (Nat.le_refl _) (Nat.le_max_left _ _) _ _ (later_disk m)
  intro t m₁ hm₁
  split
  case isTrue => exact ⟨rfl, fun _ => rfl⟩
  case isFalse hdiffer =>
    obtain ⟨blocks, hblocks⟩ : ∃ blocks,
        ((last : Int) - ((pos / 4088 : Nat) + 1 : Int)).toNat = blocks := ⟨_, rfl⟩
    have hnext : ((pos / 4088 : Nat) : Int) + 1 = (pos / 4088 + 1 : Nat) := by omega
    rw [hblocks, hnext]
    apply wp_mono _ (wp_readMiddle_fetched (o := pos / 4088 + 1) fun i hlo hhi => ?_)
    · rintro ⟨iocb', sink', temp⟩ m₂ ⟨hm₂, hiocb⟩
      simp only at hiocb
      split
      case isTrue hafter =>
        apply fetched last (by omega) (Nat.le_max_right _ _) _ _
          ((hm₂.disk.trans hm₁.disk).trans (later_disk m))
        intro t' m₃ _
        refine ⟨rfl, fun hnonneg => ?_⟩
        obtain ⟨hu', hlast⟩ := hsum hnonneg
        rw [hiocb, hu']
        simp only
        omega
      case isFalse hbefore =>
        refine ⟨rfl, fun hnonneg => ?_⟩
        obtain ⟨_, hlast⟩ := hsum hnonneg
        omega
    · rw [hm₁.disk]
      exact fetched i (by omega) (by omega)

end Request

section Needs

variable {m : Machine Store} {n : Nat} {b : Block}

/-- The blocks from the one at the position to `end_block` are what a read needs. -/
theorem wp_readFile_iff (clock : Nat → Timespec) {pos k last : Nat} {iocb : Kiocb}
    (file : FileInode m.disk n b)
    (hpos : iocb.kiPos = pos) (hlt : pos < fileLen b)
    (hlen : fileLen b ≤ blocksPerFile * hodoDataSize)
    (hend : endBlock (fileLen b) pos k = last) :
    wp (plain storeDisk clock) (readFile b iocb ⟨k, []⟩) (fun _ _ => True) m ↔
      ∀ o, pos / hodoDataSize ≤ o → o ≤ max (pos / hodoDataSize) last →
        dataAt m.disk.content b o ≠ none := by
  simp only [blocksPerFile_eq, hodoDataSize_eq] at hlen ⊢
  have hu : u64 iocb.kiPos = pos := by rw [hpos, u64_ofNat (by omega)]
  have hrest : u64 ((fileLen b : Int) - (pos : Int)) = fileLen b - pos :=
    u64_rest (Nat.le_of_lt hlt) (by omega)
  have hstart : toInt32 (pos / 4088) = (pos / 4088 : Nat) := toInt32_of_lt (by omega)
  simp only [endBlock, signedLength, hodoDataSize_eq] at hend
  simp only [readFile, wp_ite, wp_bind, wp_pure, hu, hrest, hodoDataSize_eq, hodoDataStart_eq,
    wp_kmallocUnchecked]
  rw [if_neg (by omega), hpos, hend, hstart]
  obtain ⟨start, hs⟩ : ∃ start, pos / 4088 = start := ⟨_, rfl⟩
  obtain ⟨blocks, hblocks⟩ : ∃ blocks, ((last : Int) - ((start : Int) + 1)).toNat = blocks :=
    ⟨_, rfl⟩
  have hnext : (start : Int) + 1 = (start + 1 : Nat) := by omega
  rw [hs, hblocks, hnext]
  constructor
  · intro safe o hlo hhi
    obtain ⟨t, m₁, ht, hm₁, safe⟩ := there_of_wp (m := Machine.later m) file safe
    have first : dataAt m.disk.content b start ≠ none := by
      rw [later_disk] at ht
      rw [ht]
      exact Option.some_ne_none t
    have hm₁ := (unchanged_later m).trans hm₁
    rcases Nat.eq_or_lt_of_le hlo with rfl | hgt
    · exact first
    rw [if_neg (by omega)] at safe
    obtain ⟨hmiddle, r, m₂, hm₂, safe⟩ := middle_there (by rw [hm₁.disk]; exact file) safe
    rw [if_pos (by omega)] at safe
    have hm₂ := hm₁.trans hm₂
    by_cases hlast' : o = last
    · obtain ⟨t', _, ht', _⟩ := there_of_wp (by rw [hm₂.disk]; exact file) safe
      rw [hm₂.disk] at ht'
      rw [hlast', ht']
      exact Option.some_ne_none t'
    · rw [hm₁.disk] at hmiddle
      exact hmiddle o hgt (by omega)
  · intro there
    obtain ⟨t, ht⟩ := Option.ne_none_iff_exists'.mp (there start (Nat.le_refl _) (by omega))
    apply wp_hodoReadNthBlock_some (m := Machine.later m) file.valid ht
    intro m₁ hm₁
    have hm₁ := (unchanged_later m).trans hm₁
    split
    · trivial
    case isFalse hne =>
      apply wp_middle_of_there (by rw [hm₁.disk]; exact file.valid)
      · intro i hlo hhi
        rw [hm₁.disk]
        exact there i (by omega) (by omega)
      · intro r m₂ hm₂
        have hm₂ := hm₁.trans hm₂
        split
        case isFalse => trivial
        case isTrue hlt' =>
          obtain ⟨t', ht'⟩ := Option.ne_none_iff_exists'.mp (there last (by omega) (by omega))
          apply wp_hodoReadNthBlock_some (by rw [hm₂.disk]; exact file.valid)
            (by rw [hm₂.disk]; exact ht')
          exact fun _ _ => trivial

end Needs

section Log

variable {clock : Nat → Timespec} {intact : Bool} {v : Machine Volume} {a : Machine Store}
  {n : Nat} {b : Block} {pos k last : Nat} {iocb : Kiocb}

theorem fileInode_of_live {ref : Nat} (inv : LiveInv a) (hfile : (a.inodes ref).iFop = some .file) :
    ∃ b, FileInode a.disk (a.inodes ref).iIno b := by
  obtain ⟨_, b, hb, hdat⟩ := inv.stored (Or.inr hfile)
  exact ⟨b, inv.valid, inv.forest, hb, hdat⟩

/-- `hodo_file_read_iter` comes to the stored file. -/
theorem FileInode.own (file : FileInode a.disk n b) (h : Follows intact v a)
    (hino : (a.inodes iocb.inode).iIno = n) :
    (v.inodes iocb.inode).iIno % 2 ^ 32 = n ∧ volumeDisk.startingNumber v.disk ≤ n := by
  have hused := file.valid.used file.inode
  constructor
  · rw [h.inodes, hino, Nat.mod_eq_of_lt (file.valid.number_lt hused)]
  · have hbase := hused.1
    rwa [file.valid.base, ← starting_of_follows h] at hbase

theorem wp_readStored_iff {D : Disk Store} [LikeStore D] (file : FileInode a.disk n b)
    (Q : Int × Kiocb × IovSink → Machine Store → Prop) :
    wp (plain D clock) (readStored n iocb ⟨k, []⟩) Q a ↔
      wp (plain D clock) (readFile b iocb ⟨k, []⟩) Q a := by
  rw [readStored, wp_bind]
  exact wp_hodoRead_some file.valid file.inode zeros _

theorem wp_readStored_harmless (file : FileInode a.disk n b) (hpos : iocb.kiPos = pos)
    (hlt : pos < fileLen b) (hlen : fileLen b ≤ blocksPerFile * hodoDataSize)
    (hend : endBlock (fileLen b) pos k = last) :
    wp (plain (harmless storeDisk) clock) (readStored n iocb ⟨k, []⟩)
      (fun r _ => r.1 = signedLength (fileLen b - pos) k ∧
        (0 ≤ signedLength (fileLen b - pos) k → r.2.1.kiPos = pos + r.1)) a :=
  (wp_readStored_iff file _).mpr
    (wp_readFile_fetched hpos hlt hlen hend fun o _ _ => fetched_harmless file o)

/-- A request follows set pointers only exactly when all the blocks it comes to are there. -/
theorem guarded_read_iff {zonefs : Kiocb → IovSink → Program (Int × Kiocb × IovSink)}
    (h : Follows intact v a) (file : FileInode a.disk n b) (hino : (a.inodes iocb.inode).iIno = n)
    (hpos : iocb.kiPos = pos) (hlt : pos < fileLen b)
    (hlen : fileLen b ≤ blocksPerFile * hodoDataSize)
    (hend : endBlock (fileLen b) pos k = last) :
    Guarded (machine volumeDisk (zeroFilled clock)) ReadsAllocated
        (hodoFileReadIter zonefs iocb ⟨k, []⟩) v ↔
      ∀ o, pos / hodoDataSize ≤ o → o ≤ max (pos / hodoDataSize) last →
        dataAt a.disk.content b o ≠ none := by
  obtain ⟨hnumber, own⟩ := file.own h hino
  have passive := passive_readStored n iocb ⟨k, []⟩
  rw [guarded_hodoFileReadIter zonefs (by rw [hnumber]; exact own) _ trivial trivial, hnumber,
    ← wp_readFile_iff clock file hpos hlt hlen hend, ← wp_readStored_iff file]
  constructor
  · intro guarded
    exact wp_mono (fun _ _ _ => trivial) (safe_of_guarded h passive
      (guarded.mono fun m c => readsSet_of_allocated m c)
      (wp_readStored_harmless file hpos hlt hlen hend))
  · exact guarded_of_safe h passive

/-- What a request returns, and where it leaves the position. -/
def Answered (len pos k : Nat) (r : Int × Kiocb × IovSink) : Prop :=
  r.1 = signedLength (len - pos) k ∧ (0 ≤ signedLength (len - pos) k → r.2.1.kiPos = pos + r.1)

/-- A request all of whose blocks are there ends. -/
theorem read_of_there {zonefs : Kiocb → IovSink → Program (Int × Kiocb × IovSink)}
    (h : Follows intact v a) (file : FileInode a.disk n b) (hino : (a.inodes iocb.inode).iIno = n)
    (hpos : iocb.kiPos = pos) (hlt : pos < fileLen b)
    (hlen : fileLen b ≤ blocksPerFile * hodoDataSize) (hend : endBlock (fileLen b) pos k = last)
    (there : ∀ o, pos / hodoDataSize ≤ o → o ≤ max (pos / hodoDataSize) last →
      dataAt a.disk.content b o ≠ none) :
    ∃ r m', exec (machine volumeDisk (zeroFilled clock)) (hodoFileReadIter zonefs iocb ⟨k, []⟩) v =
      .done (r, m') ∧ Answered (fileLen b) pos k r := by
  obtain ⟨hnumber, own⟩ := file.own h hino
  have safe : wp (plain storeDisk clock) (readStored n iocb ⟨k, []⟩)
      (fun r _ => Answered (fileLen b) pos k r) a :=
    (wp_readStored_iff file _).mpr (wp_readFile_fetched hpos hlt hlen hend fun o hlo hhi =>
      fetched_of_there file.valid (there o hlo hhi))
  obtain ⟨r, m', _, hexec, _, hr⟩ := program_follows h
    (guarded_of_only fits_of_passive (passive_readStored n iocb ⟨k, []⟩) v) safe
  refine ⟨r, m', ?_, hr⟩
  rw [exec_hodoFileReadIter zonefs (by rw [hnumber]; exact own), hnumber]
  exact hexec

/-- A request that ends came to no block that is missing. -/
theorem there_of_read {zonefs : Kiocb → IovSink → Program (Int × Kiocb × IovSink)}
    {r : Int × Kiocb × IovSink} {m' : Machine Volume}
    (h : Follows intact v a) (file : FileInode a.disk n b) (hino : (a.inodes iocb.inode).iIno = n)
    (hpos : iocb.kiPos = pos) (hlt : pos < fileLen b)
    (hlen : fileLen b ≤ blocksPerFile * hodoDataSize) (hend : endBlock (fileLen b) pos k = last)
    (ended : exec (machine volumeDisk (zeroFilled clock)) (hodoFileReadIter zonefs iocb ⟨k, []⟩) v =
      .done (r, m')) :
    (∀ o, pos / hodoDataSize ≤ o → o ≤ max (pos / hodoDataSize) last →
      dataAt a.disk.content b o ≠ none) ∧ Answered (fileLen b) pos k r := by
  obtain ⟨hnumber, own⟩ := file.own h hino
  rw [exec_hodoFileReadIter zonefs (by rw [hnumber]; exact own), hnumber] at ended
  have passive := passive_readStored n iocb ⟨k, []⟩
  have safe := safe_of_ended h passive ended (wp_readStored_harmless file hpos hlt hlen hend)
  constructor
  · apply (wp_readFile_iff clock file hpos hlt hlen hend).mp
    exact (wp_readStored_iff file _).mp (wp_mono (fun _ _ _ => trivial) safe)
  · obtain ⟨r', m'', _, hexec, _, hr⟩ :=
      program_follows h (guarded_of_only fits_of_passive passive v) safe
    obtain ⟨rfl, rfl⟩ := Prod.mk.inj (Outcome.done.inj (hexec.symm.trans ended))
    exact hr

end Log

end UnsetPointers
