import HodoZns.Counters

/-!
# Live space

What the GC bitmap marks live is what can be reached from the root, through the entries of
directories and the pointers of inodes and index blocks. Creations and writes keep it so: they
take no pointer and no entry away, and what they store hangs below an inode that is entered. A
deletion takes the entry away and leaves the blocks live.
-/

namespace LiveSpace

open ByteBlock Layout BlockLog ZoneLog NumberAllocator Collector LogCalls Consistency LogStore
  Programs Kernel CallRuns StoreMachine Ancestry
open VolumeMachine FileBlocks BlockForest FileWrites Directories Operations FsRuns Ownership
open FileContents DirectoryBlocks DirectoryMaps Erasures Trees TreeCalls SystemRuns TreeRuns
open Counters

/-- A block leads to those its pointers are set to, and a directory to the inodes of its
entries. -/
def LeadsTo (c : Nat → Option Block) (n x : Nat) : Prop :=
  Edge c n x ∨ InodeAt c n hodoTypeDir ∧ ∃ d ∈ direntsOf c n, d.iIno = x

/-- The number is found on a way from the root inode. -/
def Reachable (v : Volume) (n : Nat) : Prop :=
  Reach (LeadsTo (onDisk v)) v.info.startingLogicalNumber n

/-- The position of the number is marked live. -/
def MarkedLive (v : Volume) (n : Nat) : Prop :=
  ∃ p, Mapped v.info n p ∧ live v.info p.zoneId p.blockIndex = true

def LiveIsReachable (v : Volume) : Prop := ∀ n, MarkedLive v n ↔ Reachable v n

/-- The call finds room in its directory, and comes to no erasure. -/
def Keeps (clock : Nat → Timespec) (m : Machine Volume) (c : TreeCall) : Prop :=
  Made clock m true c ∧ (∀ d ∈ TreeCall.creates c, entryCount m d.1 < 1020) ∧
    erased (onDisk m.disk) m.inodes c = none

instance (clock : Nat → Timespec) (m : Machine Volume) (c : TreeCall) :
    Decidable (Keeps clock m c) :=
  inferInstanceAs (Decidable (_ ∧ (∀ d ∈ TreeCall.creates c, _) ∧ _))

section Coverage

variable {c c' : Nat → Option Block} {T T' : Tree} {n x : Nat}

/-- Where the blocks lead with the entries of the tree. -/
def Leads (c : Nat → Option Block) (T : Tree) (n x : Nat) : Prop :=
  Edge c n x ∨ ∃ e ∈ T n, e.iIno = x

/-- Every block that is there can be reached. -/
def Covered (c : Nat → Option Block) (T : Tree) : Prop :=
  ∀ x, c x ≠ none → Reach (Leads c T) numberZones x

theorem reach_leads (h : Reach (Edge c) n x) : Reach (Leads c T) n x :=
  Relation.ReflTransGen.mono (fun _ _ hedge => Or.inl hedge) _ _ h

/-- No pointer and no entry is lost, and what is new hangs below something that was there. -/
theorem Covered.grow (h : Covered c T) (edges : ∀ {n x}, Edge c n x → Edge c' n x)
    (entries : ∀ n, T n ⊆ T' n)
    (new : ∀ x, c' x ≠ none → c x = none → ∃ n, c n ≠ none ∧ Reach (Leads c' T') n x) :
    Covered c' T' := by
  have old : ∀ {x}, c x ≠ none → Reach (Leads c' T') numberZones x := by
    intro x hx
    refine Relation.ReflTransGen.mono ?_ _ _ (h x hx)
    rintro a y (hedge | ⟨e, he, rfl⟩)
    · exact Or.inl (edges hedge)
    · exact Or.inr ⟨e, entries a he, rfl⟩
  intro x hx
  by_cases hnone : c x = none
  · obtain ⟨n, hn, hreach⟩ := new x hx hnone
    exact (old hn).trans hreach
  · exact old hnone

theorem Covered.written (h : Covered c T) (growth : Grown c c' n) (hn : c n ≠ none) :
    Covered c' T :=
  h.grow growth.edges (fun _ => Finset.Subset.refl _) fun _ hx hnone =>
    ⟨n, hn, reach_leads (growth.added hx hnone)⟩

/-- The new inode is reached through its entry. -/
theorem Covered.created {c₁ : Nat → Option Block} {d : Nat} {e : Entry} (h : Covered c T)
    (first : Grown c c₁ e.iIno) (second : Grown c₁ c' d) (hd : c d ≠ none)
    (entries : ∀ n, T n ⊆ T' n) (he : e ∈ T' d) : Covered c' T' := by
  refine h.grow (fun hedge => second.edges (first.edges hedge)) entries fun x hx hnone => ?_
  refine ⟨d, hd, ?_⟩
  by_cases hnone₁ : c₁ x = none
  · exact reach_leads (second.added hx hnone₁)
  · exact (reach_leads (second.reach (first.added hnone₁ hnone))).head (Or.inr ⟨e, he, rfl⟩)

end Coverage

section States

variable {m : Machine Volume} {a a' : Machine Store} {T T' : Tree} {n x : Nat}

/-- Whatever can be reached is there. -/
theorem stored_of_reach {s : Store} (tree : DiskTree s T) (root : s.content numberZones ≠ none)
    (h : Reach (Leads s.content T) numberZones x) : s.content x ≠ none := by
  induction h with
  | refl => exact root
  | tail _ hleads _ =>
    rcases hleads with ⟨i, k, hpoint⟩ | ⟨e, he, rfl⟩
    · obtain ⟨d, hd, _⟩ := tree.forest.target hpoint
      rw [hd]
      exact Option.some_ne_none d
    · obtain ⟨d, hd, _⟩ := tree.target he
      rw [hd]
      exact Option.some_ne_none d

theorem leadsTo_iff {s : Store} (tree : DirsHold s T) :
    LeadsTo s.content n x ↔ Leads s.content T n x := by
  refine or_congr Iff.rfl ?_
  have dirents : InodeAt s.content n hodoTypeDir →
      ((∃ d ∈ direntsOf s.content n, d.iIno = x) ↔ ∃ e ∈ T n, e.iIno = x) := by
    intro hat
    obtain ⟨es, _, hes, hdirents⟩ := DirsHold.direntsIn tree tree.valid.content_zero
      (fun hb => hb) hat
    rw [hdirents, ← hes]
    simp only [List.mem_map, exists_exists_and_eq_and, iIno_record, List.mem_toFinset]
  constructor
  · rintro ⟨hat, hd⟩
    exact (dirents hat).mp hd
  · rintro ⟨e, he, hino⟩
    exact ⟨tree.inDirs he, (dirents (tree.inDirs he)).mpr ⟨e, he, hino⟩⟩

theorem markedLive_iff {v : Volume} {s : Store} (h : Represents v s) :
    MarkedLive v n ↔ s.content n ≠ none := by
  constructor
  · rintro ⟨p, hm, _⟩
    obtain ⟨b, hb, _⟩ := h.consistent.stored_eq_some hm
    rw [← h.content n hm.1, hb]
    exact Option.some_ne_none b
  · intro hn
    obtain ⟨b, hb⟩ := Option.ne_none_iff_exists'.mp hn
    obtain ⟨p, hm, _⟩ := h.stored_names hb
    obtain ⟨hz, hi⟩ := h.consistent.inZones hm
    exact ⟨p, hm, (h.consistent.live_iff hm.2.2 hz hi).mpr ⟨n, hm⟩⟩

/-- Behind the log stands a map that holds a tree and no block besides. -/
structure Tight (m : Machine Volume) (a : Machine Store) (T : Tree) : Prop where
  follows : Follows true m a
  inv : TreeInv a T
  root : a.disk.content numberZones ≠ none
  covered : Covered a.disk.content T

theorem liveIsReachable_of_tight (h : Tight m a T) : LiveIsReachable m.disk := by
  intro n
  have rep := h.follows.represents
  have hstart : m.disk.info.startingLogicalNumber = numberZones := starting_of_follows h.follows
  have hleads : LeadsTo (onDisk m.disk) = Leads a.disk.content T := by
    funext n x
    rw [Represents.onDisk rep]
    exact propext (leadsTo_iff h.inv.toDirsHold)
  rw [markedLive_iff rep, Reachable, hleads, hstart]
  exact ⟨h.covered n, stored_of_reach h.inv.toDiskTree h.root⟩

/-- A call that erases nothing loses no block and leaves none that cannot be reached. -/
theorem covered_effect {c : TreeCall} {r : Int × Nat} (h : Tight m a T)
    (called : Called (onDisk m.disk) m.inodes c)
    (room : ∀ d ∈ TreeCall.creates c, entryCount m d.1 < 1020)
    (spared : erased (onDisk m.disk) m.inodes c = none) (effect : Effect a T c r a' T') :
    a'.disk.content numberZones ≠ none ∧ Covered a'.disk.content T' := by
  cases effect with
  | @created dir name isDir e _ hcreates created =>
    obtain ⟨c₁, first, second⟩ := created.growth
    have hdir := (dir_of_called h.follows called).1 _ _ hcreates
    obtain ⟨b, hb, _⟩ := (h.inv.dirAt hdir).2
    have hcard : (T (a.inodes dir).iIno).card < 1020 :=
      (counts_eq h.follows h.inv hdir).1 ▸ room _ hcreates
    rw [enter, if_pos hcard]
    refine ⟨second.stays (first.stays h.root),
      h.covered.created first second (by rw [hb]; exact Option.some_ne_none b) (fun n => ?_) ?_⟩
    · by_cases hn : n = (a.inodes dir).iIno
      · rw [hn, update_same]
        exact Finset.subset_insert _ _
      · rw [update_other _ _ hn]
    · rw [update_same]
      exact Finset.mem_insert_self _ _
  | @written iocb _ _ _ hwrite _ _ growth =>
    subst hwrite
    rw [h.follows.inodes] at called
    obtain ⟨_, b, hb, _⟩ := (h.inv.vfs.backed _).file called
    exact ⟨growth.stays h.root,
      h.covered.written growth (by rw [hb]; exact Option.some_ne_none b)⟩
  | deleted _ _ hit =>
    rw [Represents.onDisk h.follows.represents, h.follows.inodes, hit] at spared
    cases spared
  | kept _ _ hdisk =>
    rw [hdisk]
    exact ⟨h.root, h.covered⟩

end States

section Runs

variable {clock : Nat → Timespec} {m : Machine Volume}

theorem tight_step {a : Machine Store} {T : Tree} {c : TreeCall} (h : Tight m a T)
    (keeps : Keeps clock m c) :
    ∃ r m' a' T', treeStep volumeDisk (zeroFilled clock) m c = some (r, m') ∧ Tight m' a' T' := by
  obtain ⟨made, room, spared⟩ := keeps
  have spares : Spares m.disk m.inodes c := by
    intro n hn
    rw [spared] at hn
    cases hn
  obtain ⟨r, m', a', T', hstep, follows, effect⟩ := tree_step h.follows h.inv made spares
  rw [spared] at follows
  obtain ⟨root, covered⟩ := covered_effect h made.1 room spared effect
  exact ⟨r, m', a', T', hstep, follows, Effect.inv effect, root, covered⟩

theorem tight_mounted (uid gid groups : Nat) (now : Timespec) :
    Tight (firstMounted uid gid groups now)
      (mounted (mountedStore zeros uid gid) groups now) fun _ => ∅ where
  follows := follows_mounted zeros uid gid groups now
  inv := treeInv_mounted uid gid groups now
  root := by
    simp only [mounted, mountedStore, numberZones_eq, update_same]
    exact Option.some_ne_none _
  covered := by
    intro x hx
    by_cases hroot : x = numberZones
    · exact hroot ▸ Relation.ReflTransGen.refl
    · refine absurd ?_ hx
      simp only [mounted, mountedStore]
      exact update_other _ _ hroot

end Runs

/-- In every run that comes to no erasure, the live numbers are those that can be reached from
the root. -/
theorem live_iff_reachable (clock : Nat → Timespec) (uid gid groups : Nat) (now : Timespec)
    (cs : List TreeCall)
    (calls : EachCall (treeStep volumeDisk (zeroFilled clock)) (Keeps clock) cs
      (firstMounted uid gid groups now)) :
    ∃ as m, run (treeStep volumeDisk (zeroFilled clock)) cs (firstMounted uid gid groups now) =
      some (as, m) ∧ LiveIsReachable m.disk := by
  have kept : ∀ m c, (∃ a T, Tight m a T) → Keeps clock m c →
      ∃ r m', treeStep volumeDisk (zeroFilled clock) m c = some (r, m') ∧ ∃ a T, Tight m' a T := by
    rintro m c ⟨a, T, tight⟩ keeps
    obtain ⟨r, m', a', T', hstep, tight'⟩ := tight_step tight keeps
    exact ⟨r, m', hstep, a', T', tight'⟩
  obtain ⟨as, m, hrun, a, T, tight⟩ := run_total (Keeps clock) (fun m => ∃ a T, Tight m a T) kept
    ⟨_, _, tight_mounted uid gid groups now⟩ calls
  exact ⟨as, m, hrun, liveIsReachable_of_tight tight⟩

/-- A file with a block behind an index block, in a directory that then cannot be deleted. -/
def nestedRun : List TreeCall :=
  [.mkdirBody ⟨0, 0⟩ rootRef [100] 0o755, .create ⟨0, 0⟩ 1 [97] 0o644,
    .write ⟨2, false, 0⟩ ⟨[1, 2, 3], 3⟩, .write ⟨2, false, 40880⟩ ⟨[4], 1⟩,
    .rmdir rootRef ⟨[100], [47], 1⟩]

theorem nestedRun_live : ∃ as m,
    run (treeStep volumeDisk (zeroFilled fun _ => ⟨0, 0⟩)) nestedRun (firstMounted 0 0 0 ⟨0, 0⟩) =
      some (as, m) ∧ LiveIsReachable m.disk :=
  live_iff_reachable (fun _ => ⟨0, 0⟩) 0 0 0 ⟨0, 0⟩ nestedRun (by decide +kernel)

theorem reach_inside {c : Nat → Option Block} {S : Nat → Prop} {n x : Nat} (hn : S n)
    (closed : ∀ a y, S a → LeadsTo c a y → S y) (h : Reach (LeadsTo c) n x) : S x := by
  induction h with
  | refl => exact hn
  | tail _ hleads ih => exact closed _ _ ih hleads

/-- A file `a` with one block is made and deleted. -/
def unlinkedRun : List TreeCall :=
  [.create ⟨0, 0⟩ rootRef [97] 0o644, .write ⟨1, false, 0⟩ ⟨[1, 2, 3], 3⟩,
    .unlink rootRef ⟨[97], [47], 1⟩]

/-- Its inode, number 17, and its data block, number 19, are live. From the root only the block
of entries is reached. -/
theorem unlinked_still_live : ∃ as m,
    run (treeStep volumeDisk (zeroFilled fun _ => ⟨0, 0⟩)) unlinkedRun (firstMounted 0 0 0 ⟨0, 0⟩) =
      some (as, m) ∧ as.map Prod.fst = [0, 3, 0] ∧
    (MarkedLive m.disk 17 ∧ ¬ Reachable m.disk 17) ∧
    MarkedLive m.disk 19 ∧ ¬ Reachable m.disk 19 := by
  have hcall : ∃ r, run (treeStep volumeDisk (zeroFilled fun _ => ⟨0, 0⟩)) unlinkedRun
      (firstMounted 0 0 0 ⟨0, 0⟩) = some r ∧ r.1.map Prod.fst = [0, 3, 0] ∧
      (∀ n ∈ [17, 19], InTable r.2.disk.info n ∧ (tableEntry r.2.disk.info n).zoneId ≠ 0 ∧
        live r.2.disk.info (tableEntry r.2.disk.info n).zoneId
          (tableEntry r.2.disk.info n).blockIndex = true) ∧
      r.2.disk.info.startingLogicalNumber = 16 ∧
      (∃ b, onDisk r.2.disk 16 = some b ∧ isDat b = false ∧
        ∀ i < 13, inodePtr b i ≠ 0 → inodePtr b i = 18) ∧
      direntsOf (onDisk r.2.disk) 16 = [] ∧
      ∃ b, onDisk r.2.disk 18 = some b ∧ isDat b = true ∧ Layout.level b = digit 0 := by
    decide +kernel
  obtain ⟨⟨as, m⟩, hrun, has, hlive, hstart, ⟨b, hb, hdat, hptrs⟩, hdirents, b', hb', hdat',
    hlevel⟩ := hcall
  have closed : ∀ a y, a = 16 ∨ a = 18 → LeadsTo (onDisk m.disk) a y → y = 16 ∨ y = 18 := by
    rintro a y (rfl | rfl) (⟨i, k, d, hd, hslot⟩ | ⟨⟨d, hd, hino, _⟩, e, he, _⟩)
    · obtain rfl := Option.some.inj (hb.symm.trans hd)
      obtain ⟨hi, rfl, _⟩ := hslot.of_inode hdat
      exact Or.inr (hptrs i hi hslot.ne_zero)
    · rw [hdirents] at he
      cases he
    · obtain rfl := Option.some.inj (hb'.symm.trans hd)
      exact absurd hslot (no_slot_of_data ⟨hdat', Nat.zero_le 3, hlevel⟩)
    · obtain rfl := Option.some.inj (hb'.symm.trans hd)
      exact absurd (hino.symm.trans hdat') (by decide)
  have unreached : ∀ n, n ≠ 16 → n ≠ 18 → ¬ Reachable m.disk n := by
    intro n hroot hblock hreach
    rw [Reachable, hstart] at hreach
    rcases reach_inside (Or.inl rfl) closed hreach with heq | heq
    · exact hroot heq
    · exact hblock heq
  have marked : ∀ n ∈ [17, 19], MarkedLive m.disk n := by
    intro n hn
    obtain ⟨hin, hzone, hbit⟩ := hlive n hn
    exact ⟨_, mapped_entry hin hzone, hbit⟩
  exact ⟨as, m, hrun, has, ⟨marked 17 (by decide), unreached 17 (by decide) (by decide)⟩,
    marked 19 (by decide), unreached 19 (by decide) (by decide)⟩

end LiveSpace
