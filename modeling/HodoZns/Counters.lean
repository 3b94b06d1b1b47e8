import HodoZns.FileReads
import HodoZns.TreeRuns

/-!
# The counters of a directory

`i_size` and `nlink` of the VFS inode of a directory count its entries and its
subdirectories. Creations of files and deletions keep both counts; `hodo_mkdir`
keeps neither.
-/

namespace Counters

open ByteBlock Layout BlockLog ZoneLog NumberAllocator LogCalls LogStore Programs Kernel CallRuns
  StoreMachine
open VolumeMachine FileBlocks Directories Operations DirectoryWrites FsRuns Ownership
open DirectoryBlocks DirectoryMaps Erasures Trees BlockPacking FileReads TreeCalls TreeRuns

def entryCount (m : Machine Volume) (dir : Nat) : Nat :=
  (direntsOf (onDisk m.disk) (m.inodes dir).iIno).length

def subdirCount (m : Machine Volume) (dir : Nat) : Nat :=
  ((direntsOf (onDisk m.disk) (m.inodes dir).iIno).filter fun d => d.fileType == hodoTypeDir).length

/-- From `m` to `m'` the counters changed by what the counts changed. -/
structure Balanced (m m' : Machine Volume) (dir : Nat) : Prop where
  size : (m'.inodes dir).iSize - (m.inodes dir).iSize =
    (entryCount m' dir : Int) - entryCount m dir
  nlink : ((m'.inodes dir).iNlink.toNat : Int) - (m.inodes dir).iNlink.toNat =
    (subdirCount m' dir : Int) - subdirCount m dir

/-- A creation or deletion in the directory, which is no zone group's and not full. -/
def Inside (dir : Nat) (m : Machine Volume) : TreeCall → Prop
  | .create _ d name _ | .mkdir _ d name _ | .mkdirBody _ d name _ =>
    d = dir ∧ isZoneGroup name = false ∧ entryCount m dir < 1020
  | .unlink d dentry | .rmdir d dentry =>
    d = dir ∧ isZoneGroup dentry.name = false ∧ isZoneGroup dentry.parentName = false
  | .write _ _ => False

instance (dir : Nat) (m : Machine Volume) : (c : TreeCall) → Decidable (Inside dir m c)
  | .create _ _ _ _ | .mkdir _ _ _ _ | .mkdirBody _ _ _ _ => inferInstanceAs (Decidable (_ ∧ _ ∧ _))
  | .unlink _ _ | .rmdir _ _ => inferInstanceAs (Decidable (_ ∧ _ ∧ _))
  | .write _ _ => isFalse id

def TreeCall.makesDir : TreeCall → Bool
  | .mkdir _ _ _ _ | .mkdirBody _ _ _ _ => true
  | _ => false

def TreeCall.removesDir : TreeCall → Bool
  | .rmdir _ _ => true
  | _ => false

/-- The number of directories that the calls remove. -/
def removals (cs : List TreeCall) : Nat := cs.countP TreeCall.removesDir

/-- The call is made inside the directory and returns 0. -/
def Succeeds (clock : Nat → Timespec) (dir : Nat) (s : Machine Volume × Bool)
    (c : TreeCall) : Prop :=
  Inside dir s.1 c ∧ ∀ r, treeStep volumeDisk (zeroFilled clock) s.1 c = some r → r.1.1 = 0

instance (clock : Nat → Timespec) (dir : Nat) (s : Machine Volume × Bool) (c : TreeCall) :
    Decidable (Succeeds clock dir s c) :=
  inferInstanceAs (Decidable (_ ∧ ∀ _, _))

def subdirs (S : Finset Entry) : Finset Entry := S.filter fun e => e.isDir = true

section Counts

variable {intact : Bool} {m : Machine Volume} {a : Machine Store} {T : Tree} {dir : Nat}

theorem isDir_record (e : Entry) : (e.record.fileType == hodoTypeDir) = e.isDir := by
  rw [fileType_record]
  cases e.isDir <;> rfl

theorem counts_eq (h : Follows intact m a) (inv : TreeInv a T)
    (hdir : (a.inodes dir).iOp = some .dir) :
    entryCount m dir = (T (a.inodes dir).iIno).card ∧
      subdirCount m dir = (subdirs (T (a.inodes dir).iIno)).card := by
  obtain ⟨es, unique, hes, hdirents⟩ := DirsHold.direntsOf inv.toDirsHold h (inv.dirAt hdir).2
  have hnodup : es.Nodup := List.Nodup.of_map Entry.name unique
  rw [entryCount, subdirCount, h.inodes, hdirents, ← hes]
  constructor
  · rw [List.length_map, List.toFinset_card_of_nodup hnodup]
  · have hfilter : subdirs es.toFinset = (es.filter fun e => e.isDir).toFinset := by
      ext e
      simp [subdirs]
    rw [hfilter, List.toFinset_card_of_nodup (hnodup.filter _), List.filter_map, List.length_map]
    congr 2
    funext e
    exact isDir_record e

theorem names_inj (inv : TreeInv a T) {n : Nat} {e e' : Entry} (he : e ∈ T n) (he' : e' ∈ T n)
    (hname : e'.name = e.name) : e' = e := by
  obtain ⟨b, ds, h, hds⟩ := inv.dirs (inv.inDirs he)
  rw [← hds, List.mem_toFinset] at he he'
  exact List.inj_on_of_nodup_map h.unique he' he hname

theorem leave_eq_erase (inv : TreeInv a T) {n : Nat} {e : Entry} (he : e ∈ T n) :
    leave T n e.name n = (T n).erase e := by
  rw [leave, update_same]
  ext e'
  simp only [Finset.mem_filter, Finset.mem_erase]
  constructor
  · rintro ⟨he', hne⟩
    exact ⟨fun heq => hne (congrArg Entry.name heq), he'⟩
  · rintro ⟨hne, he'⟩
    exact ⟨he', fun hname => hne (names_inj inv he he' hname)⟩

theorem subdirs_insert (S : Finset Entry) (e : Entry) :
    subdirs (insert e S) = if e.isDir then insert e (subdirs S) else subdirs S := by
  rw [subdirs, Finset.filter_insert]
  rfl

theorem subdirs_erase (S : Finset Entry) (e : Entry) :
    subdirs (S.erase e) = (subdirs S).erase e := by
  rw [subdirs, Finset.filter_erase]
  rfl

end Counts

/-- The size of the directory `n` is its count, up to `size`; `k` of its `subs` directories
are gone, and `nlink`, an unsigned int, was `links` before that. -/
structure Counting (a : Machine Store) (T : Tree) (dir n : Nat) (size : Int) (links : UInt32)
    (subs k : Nat) : Prop where
  op : (a.inodes dir).iOp = some .dir
  number : (a.inodes dir).iIno = n
  size : (a.inodes dir).iSize - (T n).card = size
  nlink : (a.inodes dir).iNlink = links - UInt32.ofNat k
  subs : (subdirs (T n)).card + k = subs

section Runs

variable {clock : Nat → Timespec} {a a' : Machine Store} {T T' : Tree} {dir n subs k : Nat}
  {size : Int} {links : UInt32}

theorem counting_created {name : FileName} {e : Entry} (inv : TreeInv a T)
    (counting : Counting a T dir n size links subs k) (hroom : (T n).card < 1020)
    (h : Creates a T dir name false 1 e a') :
    Counting a' (enter T (a.inodes dir).iIno e) dir n size links subs k := by
  have hne : dir ≠ a.inodeCount :=
    Nat.ne_of_lt (callable_lt inv.vfs.toVfsInv (Or.inl counting.op))
  have hinode : a'.inodes dir = { a.inodes dir with iSize := (a.inodes dir).iSize + 1 } := by
    rw [h.inodes dir hne, update_same]
  have hfresh : e ∉ T n := by
    intro he
    obtain ⟨b, hb, _⟩ := inv.target he
    rw [h.fresh] at hb
    cases hb
  have hsize := counting.size
  have henter : enter T (a.inodes dir).iIno e n = insert e (T n) := by
    rw [counting.number, enter, if_pos hroom, update_same]
  refine ⟨by rw [hinode]; exact counting.op, by rw [hinode]; exact counting.number, ?_, ?_, ?_⟩
  · rw [hinode, henter, Finset.card_insert_of_notMem hfresh]
    simp only [Nat.cast_add, Nat.cast_one]
    omega
  · rw [hinode]
    exact counting.nlink
  · rw [henter, subdirs_insert, if_neg (by simp [h.isDir])]
    exact counting.subs

theorem counting_deleted {dentry : Dentry} {isDir : Bool} {e : Entry} (inv : TreeInv a T)
    (counting : Counting a T dir n size links subs k) (h : Deletes a T dir dentry isDir e a') :
    Counting a' (leave T (a.inodes dir).iIno e.name) dir n size links subs
      (k + if isDir then 1 else 0) := by
  obtain ⟨now, hinode⟩ := h.parent
  have he : e ∈ T n := counting.number ▸ h.mem
  have hpos : 0 < (T n).card := Finset.card_pos.mpr ⟨e, he⟩
  have hsize := counting.size
  have hnlink := counting.nlink
  have hsubs := counting.subs
  have hleave : leave T (a.inodes dir).iIno e.name n = (T n).erase e := by
    rw [counting.number]
    exact leave_eq_erase inv he
  refine ⟨by rw [hinode]; exact counting.op, by rw [hinode]; exact counting.number, ?_, ?_, ?_⟩
  · rw [hinode, hleave, Finset.card_erase_of_mem he]
    simp only
    omega
  · rw [hinode, hnlink]
    cases isDir with
    | false => simp only [Bool.false_eq_true, if_false, UInt32.sub_zero, Nat.add_zero]
    | true =>
      simp only [if_true, UInt32.ofNat_add, UInt32.ofNat_one]
      grind
  · rw [hleave, subdirs_erase]
    have htype := h.type
    cases isDir with
    | false =>
      have hnot : e ∉ subdirs (T n) := by simp [subdirs, htype]
      rw [Finset.erase_eq_of_notMem hnot]
      exact hsubs
    | true =>
      have hin : e ∈ subdirs (T n) := by simp [subdirs, htype, he]
      have hpos' : 0 < (subdirs (T n)).card := Finset.card_pos.mpr ⟨e, hin⟩
      rw [Finset.card_erase_of_mem hin]
      simp only [if_true]
      omega

/-- Below 0 an unsigned int comes out at the other end. -/
theorem sub_toNat_eq_iff (links : UInt32) (k : Nat) :
    ((links - UInt32.ofNat k).toNat : Int) - links.toNat = -(k : Int) ↔ k ≤ links.toNat := by
  have hlt := links.toNat_lt
  rw [UInt32.toNat_sub, UInt32.toNat_ofNat']
  omega

/-- The counters agree as long as no more directories were removed than `nlink` says. -/
theorem balanced_iff_of_counting {i i' : Bool} {m m' : Machine Volume} (h : Follows i m a)
    (inv : TreeInv a T) (counting : Counting a T dir n size links subs 0) (h' : Follows i' m' a')
    (inv' : TreeInv a' T') (counting' : Counting a' T' dir n size links subs k) :
    Balanced m m' dir ↔ k ≤ links.toNat := by
  obtain ⟨hentries, hsubdirs⟩ := counts_eq h inv counting.op
  obtain ⟨hentries', hsubdirs'⟩ := counts_eq h' inv' counting'.op
  have hsize := counting.size.trans counting'.size.symm
  have hsubs := counting.subs
  have hsubs' := counting'.subs
  have hnlink : (a.inodes dir).iNlink = links := counting.nlink.trans (UInt32.sub_zero links)
  rw [counting.number] at hentries hsubdirs
  rw [counting'.number] at hentries' hsubdirs'
  have hgone : (subdirCount m' dir : Int) - subdirCount m dir = -(k : Int) := by
    rw [hsubdirs, hsubdirs']
    omega
  rw [← sub_toNat_eq_iff]
  constructor
  · intro balanced
    have hlinks := balanced.nlink
    rwa [hgone, h.inodes, h'.inodes, counting'.nlink, hnlink] at hlinks
  · intro hlinks
    refine ⟨?_, ?_⟩
    · rw [hentries, hentries', h.inodes, h'.inodes]
      omega
    · rwa [hgone, h.inodes, h'.inodes, counting'.nlink, hnlink]

theorem inside_creates {m : Machine Volume} {c : TreeCall} (h : Inside dir m c) {d : Nat}
    {name : List UInt8} {isDir : Bool} (hc : TreeCall.creates c = some (d, name, isDir)) :
    d = dir ∧ isZoneGroup name = false ∧ entryCount m dir < 1020 := by
  cases c with
  | create | mkdir | mkdirBody =>
    simp only [TreeCall.creates, Option.some.injEq, Prod.mk.injEq] at hc
    obtain ⟨rfl, rfl, _⟩ := hc
    exact h
  | write | unlink | rmdir => cases hc

theorem inside_deletes {m : Machine Volume} {c : TreeCall} (h : Inside dir m c) {d : Nat}
    {dentry : Dentry} {isDir : Bool} (hc : TreeCall.deletes c = some (d, dentry, isDir)) :
    d = dir ∧ isZoneGroup dentry.name = false ∧ isZoneGroup dentry.parentName = false := by
  cases c with
  | unlink | rmdir =>
    simp only [TreeCall.deletes, Option.some.injEq, Prod.mk.injEq] at hc
    obtain ⟨rfl, rfl, _⟩ := hc
    exact h
  | create | mkdir | mkdirBody | write => cases hc

theorem makesDir_of_creates {c : TreeCall} {d : Nat} {name : List UInt8} {isDir : Bool}
    (hc : TreeCall.creates c = some (d, name, isDir)) : TreeCall.makesDir c = isDir := by
  cases c with
  | create | mkdir | mkdirBody => exact congrArg (fun x => x.2.2) (Option.some.inj hc)
  | write | unlink | rmdir => cases hc

theorem makesDir_of_deletes {c : TreeCall} {d : Nat} {dentry : Dentry} {isDir : Bool}
    (hc : TreeCall.deletes c = some (d, dentry, isDir)) : TreeCall.makesDir c = false := by
  cases c with
  | unlink | rmdir => rfl
  | create | mkdir | mkdirBody | write => cases hc

theorem removesDir_of_deletes {c : TreeCall} {d : Nat} {dentry : Dentry} {isDir : Bool}
    (hc : TreeCall.deletes c = some (d, dentry, isDir)) : TreeCall.removesDir c = isDir := by
  cases c with
  | unlink | rmdir => exact congrArg (fun x => x.2.2) (Option.some.inj hc)
  | create | mkdir | mkdirBody | write => cases hc

theorem removesDir_of_creates {c : TreeCall} {d : Nat} {name : List UInt8} {isDir : Bool}
    (hc : TreeCall.creates c = some (d, name, isDir)) : TreeCall.removesDir c = false := by
  cases c with
  | create | mkdir | mkdirBody => rfl
  | write | unlink | rmdir => cases hc

/-- Every call but `hodo_mkdir` keeps the counters. -/
theorem counting_step {s : Machine Volume × Bool} {c : TreeCall} (h : Follows s.2 s.1 a)
    (inv : TreeInv a T) (counting : Counting a T dir n size links subs k)
    (succeeds : Succeeds clock dir s c) (spared : Spared clock s c)
    (hmkdir : TreeCall.makesDir c = false) :
    ∃ r s' a' T', notedStep clock s c = some (r, s') ∧ Follows s'.2 s'.1 a' ∧ TreeInv a' T' ∧
      Counting a' T' dir n size links subs (k + if TreeCall.removesDir c then 1 else 0) := by
  obtain ⟨r, m', a', T', hstep, h', effect⟩ := tree_step h inv spared.1 spared.2
  obtain ⟨inside, hzero⟩ := succeeds
  have hr : r.1 = 0 := hzero _ hstep
  refine ⟨r, _, a', T', notedStep_eq hstep, h', Effect.inv effect, ?_⟩
  cases effect with
  | @created d name isDir e _ hcreates hmade =>
    obtain rfl := makesDir_of_creates hcreates
    obtain ⟨rfl, _, hroom⟩ := inside_creates inside hcreates
    rw [hmkdir] at hmade
    have hentries := (counts_eq h inv counting.op).1
    rw [counting.number] at hentries
    rw [removesDir_of_creates hcreates]
    exact counting_created inv counting (hentries ▸ hroom) hmade
  | written hwrite =>
    subst hwrite
    exact inside.elim
  | deleted hdeletes hgone =>
    obtain ⟨rfl, _⟩ := inside_deletes inside hdeletes
    rw [removesDir_of_deletes hdeletes]
    exact counting_deleted inv counting hgone
  | kept hdeletes hzone =>
    obtain ⟨_, hname, hparent⟩ := inside_deletes inside hdeletes
    rcases hzone hr with hname' | hparent'
    · exact absurd (hname'.symm.trans hname) (by decide)
    · exact absurd (hparent'.symm.trans hparent) (by decide)

/-- `hodo_mkdir` leaves both counters as they were. -/
theorem mkdir_unbalances {s : Machine Volume × Bool} {c : TreeCall} (h : Follows s.2 s.1 a)
    (inv : TreeInv a T) (hdir : (a.inodes dir).iOp = some .dir) (inside : Inside dir s.1 c)
    (spared : Spared clock s c) (hmkdir : TreeCall.makesDir c = true) :
    ∃ r s', notedStep clock s c = some (r, s') ∧ r.1 = 0 ∧ ¬ Balanced s.1 s'.1 dir := by
  obtain ⟨r, m', a', T', hstep, h', effect⟩ := tree_step h inv spared.1 spared.2
  refine ⟨r, _, notedStep_eq hstep, ?_⟩
  cases effect with
  | @created d name isDir e _ hcreates hmade =>
    refine ⟨rfl, fun balanced => ?_⟩
    obtain rfl := makesDir_of_creates hcreates
    obtain ⟨rfl, _, hroom⟩ := inside_creates inside hcreates
    rw [hmkdir] at hmade
    have hne : d ≠ a.inodeCount := Nat.ne_of_lt (callable_lt inv.vfs.toVfsInv (Or.inl hdir))
    have hinode : a'.inodes d = a.inodes d := by
      rw [hmade.inodes d hne, update_same]
      simp
    have hfresh : e ∉ T (a.inodes d).iIno := by
      intro he
      obtain ⟨b, hb, _⟩ := inv.target he
      rw [hmade.fresh] at hb
      cases hb
    have hentries := (counts_eq h inv hdir).1
    have hentries' := (counts_eq h' hmade.inv (by rw [hinode]; exact hdir)).1
    rw [hinode, enter, if_pos (hentries ▸ hroom), update_same,
      Finset.card_insert_of_notMem hfresh] at hentries'
    have hsize : (m'.inodes d).iSize - (s.1.inodes d).iSize =
        (entryCount m' d : Int) - entryCount s.1 d := balanced.size
    rw [h.inodes, h'.inodes, hinode] at hsize
    omega
  | written hwrite => subst hwrite; cases hmkdir
  | deleted hdeletes => exact absurd hmkdir (Bool.eq_false_iff.mp (makesDir_of_deletes hdeletes))
  | kept hdeletes => exact absurd hmkdir (Bool.eq_false_iff.mp (makesDir_of_deletes hdeletes))

/-- A directory that can be used, behind which stands a map that holds the tree. -/
def InUse (s : Machine Volume × Bool) (dir : Nat) : Prop :=
  ∃ a T, Follows s.2 s.1 a ∧ TreeInv a T ∧ (a.inodes dir).iOp = some .dir

theorem counting_run {s : Machine Volume × Bool} {cs : List TreeCall} (h : Follows s.2 s.1 a)
    (inv : TreeInv a T) (counting : Counting a T dir n size links subs k)
    (calls : EachCall (notedStep clock) (fun s c => Succeeds clock dir s c ∧ Spared clock s c) cs s)
    (hmkdir : ∀ c ∈ cs, TreeCall.makesDir c = false) :
    ∃ bs s' a' T', run (notedStep clock) cs s = some (bs, s') ∧ Follows s'.2 s'.1 a' ∧
      TreeInv a' T' ∧ Counting a' T' dir n size links subs (k + removals cs) := by
  induction cs generalizing s a T k with
  | nil => exact ⟨[], s, a, T, rfl, h, inv, counting⟩
  | cons c cs ih =>
    obtain ⟨⟨succeeds, spared⟩, rest⟩ := calls
    obtain ⟨r, s₁, a₁, T₁, hstep, h₁, inv₁, counting₁⟩ :=
      counting_step h inv counting succeeds spared (hmkdir c List.mem_cons_self)
    obtain ⟨bs, s', a', T', hrun, h', inv', counting'⟩ := ih h₁ inv₁ counting₁ (rest _ _ hstep)
      fun c hc => hmkdir c (List.mem_cons_of_mem _ hc)
    refine ⟨r :: bs, s', a', T', by rw [run_cons hstep, hrun]; rfl, h', inv', ?_⟩
    rw [removals, List.countP_cons, Nat.add_comm (cs.countP _), ← Nat.add_assoc]
    exact counting'

/-- Without `hodo_mkdir`, `nlink` must last for the directories that are removed. -/
theorem balanced_run_iff {s : Machine Volume × Bool} {cs : List TreeCall} (inUse : InUse s dir)
    (calls : EachCall (notedStep clock) (fun s c => Succeeds clock dir s c ∧ Spared clock s c) cs s)
    (hmkdir : ∀ c ∈ cs, TreeCall.makesDir c = false) :
    ∃ bs s', run (notedStep clock) cs s = some (bs, s') ∧ InUse s' dir ∧
      (Balanced s.1 s'.1 dir ↔ removals cs ≤ (s.1.inodes dir).iNlink.toNat) := by
  obtain ⟨a, T, h, inv, hdir⟩ := inUse
  have counting : Counting a T dir (a.inodes dir).iIno
      ((a.inodes dir).iSize - (T (a.inodes dir).iIno).card) (a.inodes dir).iNlink
      (subdirs (T (a.inodes dir).iIno)).card 0 := ⟨hdir, rfl, rfl, (UInt32.sub_zero _).symm, rfl⟩
  obtain ⟨bs, s', a', T', hrun, h', inv', counting'⟩ := counting_run h inv counting calls hmkdir
  refine ⟨bs, s', hrun, ⟨a', T', h', inv', counting'.op⟩, ?_⟩
  rw [balanced_iff_of_counting h inv counting h' inv' counting', Nat.zero_add, h.inodes]

end Runs

theorem inUse_of_reached {clock : Nat → Timespec} (uid gid groups : Nat) (now : Timespec)
    {ds : List TreeCall}
    (reach : EachCall (notedStep clock) (Spared clock) ds (firstMounted uid gid groups now, true)) :
    ∃ as s, run (notedStep clock) ds (firstMounted uid gid groups now, true) = some (as, s) ∧
      ∀ dir, (s.1.inodes dir).iOp = some .dir → InUse s dir := by
  obtain ⟨as, s, hrun, T, a, h, inv⟩ := tree_run uid gid groups now reach
  exact ⟨as, s, hrun, fun dir hdir => ⟨a, T, h, inv, h.inodes ▸ hdir⟩⟩

/-- A run of successful calls inside a directory is balanced in every state it reaches
exactly when it makes no directory, and removes no more than `nlink` counts at its start. -/
theorem counters_balanced_iff (clock : Nat → Timespec) (uid gid groups : Nat) (now : Timespec)
    (ds : List TreeCall)
    (reach : EachCall (notedStep clock) (Spared clock) ds (firstMounted uid gid groups now, true)) :
    ∃ as s, run (notedStep clock) ds (firstMounted uid gid groups now, true) = some (as, s) ∧
      ∀ dir cs, (s.1.inodes dir).iOp = some .dir →
        EachCall (notedStep clock) (fun s c => Succeeds clock dir s c ∧ Spared clock s c) cs s →
        ((∀ cs₁, cs₁ <+: cs → ∃ bs s', run (notedStep clock) cs₁ s = some (bs, s') ∧
            Balanced s.1 s'.1 dir) ↔
          (∀ c ∈ cs, TreeCall.makesDir c = false) ∧
            removals cs ≤ (s.1.inodes dir).iNlink.toNat) := by
  obtain ⟨as, s, hrun, inUse⟩ := inUse_of_reached uid gid groups now reach
  refine ⟨as, s, hrun, fun dir cs hdir calls => ⟨fun balanced => ?_, ?_⟩⟩
  · have hmkdir : ∀ c ∈ cs, TreeCall.makesDir c = false := by
      cases hfind : cs.find? TreeCall.makesDir with
      | none => exact fun c hc => Bool.not_eq_true _ ▸ List.find?_eq_none.mp hfind c hc
      | some d =>
        -- the counters agree before the first call that makes a directory, and not after it
        exfalso
        obtain ⟨hmkdir, cs₁, cs₂, rfl, hfirst⟩ := List.find?_eq_some_iff_append.mp hfind
        obtain ⟨bs, s₁, hrun₁, ⟨a₁, T₁, h₁, inv₁, hdir₁⟩, _⟩ := balanced_run_iff (inUse dir hdir)
          (EachCall.before calls) fun c hc => by simpa using hfirst c hc
        obtain ⟨_, _, hrun₁', balanced₁⟩ := balanced cs₁ ⟨d :: cs₂, rfl⟩
        obtain ⟨_, rfl⟩ := Prod.mk.inj (Option.some.inj (hrun₁.symm.trans hrun₁'))
        obtain ⟨⟨succeeds, spared⟩, _⟩ := EachCall.after calls hrun₁
        obtain ⟨r, s₂, hstep, _, unbalanced⟩ :=
          mkdir_unbalances h₁ inv₁ hdir₁ succeeds.1 spared hmkdir
        obtain ⟨bs', s', hrun', balanced'⟩ := balanced (cs₁ ++ [d]) ⟨cs₂, by simp⟩
        rw [run_concat hrun₁ hstep] at hrun'
        obtain ⟨_, rfl⟩ := Prod.mk.inj (Option.some.inj hrun')
        refine unbalanced ⟨?_, ?_⟩
        · have hsize := balanced₁.size
          have hsize' := balanced'.size
          omega
        · have hnlink := balanced₁.nlink
          have hnlink' := balanced'.nlink
          omega
    obtain ⟨bs, s', hrun', _, hiff⟩ := balanced_run_iff (inUse dir hdir) calls hmkdir
    obtain ⟨_, _, hrun'', balanced'⟩ := balanced cs (List.prefix_refl cs)
    obtain ⟨_, rfl⟩ := Prod.mk.inj (Option.some.inj (hrun'.symm.trans hrun''))
    exact ⟨hmkdir, hiff.mp balanced'⟩
  · rintro ⟨hmkdir, hlinks⟩ cs₁ ⟨cs₂, rfl⟩
    obtain ⟨bs, s', hrun', _, hiff⟩ := balanced_run_iff (inUse dir hdir) (EachCall.before calls)
      fun c hc => hmkdir c (List.mem_append_left _ hc)
    refine ⟨bs, s', hrun', hiff.mpr (Nat.le_trans ?_ hlinks)⟩
    rw [removals, removals, List.countP_append]
    exact Nat.le_add_right _ _

/-- A directory `d` in which a file `a` is made and deleted. -/
def userDirectory : List TreeCall := [.mkdirBody ⟨0, 0⟩ rootRef [100] 0o755]

def matchedPair : List TreeCall :=
  [.create ⟨0, 0⟩ 1 [97] 0o644, .unlink 1 ⟨[97], [100], 2⟩]

theorem matchedPair_balanced : ∃ as s bs s',
    run (notedStep fun _ => ⟨0, 0⟩) userDirectory (firstMounted 0 0 0 ⟨0, 0⟩, true) = some (as, s) ∧
    run (notedStep fun _ => ⟨0, 0⟩) matchedPair s = some (bs, s') ∧ Balanced s.1 s'.1 1 := by
  obtain ⟨as, s, hrun, hiff⟩ := counters_balanced_iff (fun _ => ⟨0, 0⟩) 0 0 0 ⟨0, 0⟩ userDirectory
    (by decide +kernel)
  have hcalls : ∃ r, run (notedStep fun _ => ⟨0, 0⟩) userDirectory
      (firstMounted 0 0 0 ⟨0, 0⟩, true) = some r ∧ (r.2.1.inodes 1).iOp = some .dir ∧
      EachCall (notedStep fun _ => ⟨0, 0⟩) (fun s c => Succeeds (fun _ => ⟨0, 0⟩) 1 s c ∧
        Spared (fun _ => ⟨0, 0⟩) s c) matchedPair r.2 := by
    decide +kernel
  obtain ⟨r, hrun', hdir, calls⟩ := hcalls
  obtain rfl := Option.some.inj (hrun'.symm.trans hrun)
  obtain ⟨bs, s', hmatched, balanced⟩ := (hiff 1 matchedPair hdir calls).mpr
    ⟨by decide, Nat.zero_le _⟩ matchedPair (List.prefix_refl _)
  exact ⟨as, s, bs, s', hrun, hmatched, balanced⟩

/-- `hodo_mkdir` can be called where its part without the collector can, as long as few
numbers are taken. -/
theorem spared_mkdir {clock : Nat → Timespec} {a : Machine Store} {T : Tree}
    {s : Machine Volume × Bool} {cred : Cred} {dir : Nat} {name : List UInt8} {mode : Nat}
    (h : Follows s.2 s.1 a) (inv : TreeInv a T) (intact : s.2 = true)
    (spared : Spared clock s (.mkdirBody cred dir name mode))
    (room : ∀ r,
      exec (machine volumeDisk (zeroFilled clock)) (hodoMkdirBody cred dir name mode) s.1 =
      .done r → WpInData r.2.disk ∧ allocated r.2.disk.info 1000 = false) :
    Spared clock s (.mkdir cred dir name mode) := by
  obtain ⟨⟨called, fits, _⟩, spares⟩ := spared
  refine ⟨⟨called, guarded_bind.mpr ⟨fits, fun r m' _ => ?_⟩, intact, fun r hexec => ?_⟩, spares⟩
  · refine guarded_of_only fits_of_passive (only_bind passive_kmallocUnchecked fun temp => ?_) m'
    exact only_bind (only_cmd trivial) fun _ => only_pure _ _
  · obtain ⟨hwp, hfree⟩ := room r hexec
    refine ⟨hwp, ?_⟩
    obtain ⟨r', m', a', T', hstep, h', _⟩ := tree_step h inv ⟨called, fits, trivial⟩ spares
    rw [treeStep, TreeCall.program, hexec] at hstep
    obtain rfl := Option.some.inj hstep
    rw [intact] at h'
    have rep := Follows.represents h'
    have hcount : ¬ 1000 < a'.disk.count := fun hlt => by
      have htaken := (rep.allocated_iff 1000 (by rw [numberMappingTableEntry_eq]; omega)).mpr hlt
      rw [hfree] at htaken
      cases htaken
    exact sparse_of_count rep hwp (by rw [blocksPerZone_eq]; omega)

/-- A directory `b` made in `d`: neither counter of `d` changes, though it has an entry and a
subdirectory more. -/
theorem subdirectory_not_counted : ∃ as s r s',
    run (notedStep fun _ => ⟨0, 0⟩) userDirectory (firstMounted 0 0 0 ⟨0, 0⟩, true) = some (as, s) ∧
    (s.1.inodes 1).iOp = some .dir ∧ Inside 1 s.1 (.mkdir ⟨0, 0⟩ 1 [98] 0o755) ∧
    notedStep (fun _ => ⟨0, 0⟩) s (.mkdir ⟨0, 0⟩ 1 [98] 0o755) = some (r, s') ∧ r.1 = 0 ∧
    ¬ Balanced s.1 s'.1 1 := by
  obtain ⟨as, s, hrun, inUse⟩ := inUse_of_reached 0 0 0 ⟨0, 0⟩
    (show EachCall (notedStep fun _ => ⟨0, 0⟩) _ userDirectory _ by decide +kernel)
  have hcalls : ∃ r, run (notedStep fun _ => ⟨0, 0⟩) userDirectory
      (firstMounted 0 0 0 ⟨0, 0⟩, true) = some r ∧ (r.2.1.inodes 1).iOp = some .dir ∧
      Inside 1 r.2.1 (.mkdir ⟨0, 0⟩ 1 [98] 0o755) ∧ r.2.2 = true ∧
      Spared (fun _ => ⟨0, 0⟩) r.2 (.mkdirBody ⟨0, 0⟩ 1 [98] 0o755) ∧
      ∀ q, exec (machine volumeDisk (zeroFilled fun _ => ⟨0, 0⟩))
        (hodoMkdirBody ⟨0, 0⟩ 1 [98] 0o755) r.2.1 = .done q →
          WpInData q.2.disk ∧ allocated q.2.disk.info 1000 = false := by
    decide +kernel
  obtain ⟨r, hrun', hdir, inside, intact, spared, room⟩ := hcalls
  obtain rfl := Option.some.inj (hrun'.symm.trans hrun)
  obtain ⟨a, T, h, inv, hdir'⟩ := inUse 1 hdir
  obtain ⟨q, s', hstep, hzero, unbalanced⟩ := mkdir_unbalances h inv hdir' inside
    (spared_mkdir h inv intact spared room) rfl
  exact ⟨as, s, q, s', hrun, hdir, inside, hstep, hzero, unbalanced⟩

end Counters
