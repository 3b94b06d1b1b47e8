import HodoZns.SystemRuns

/-!
# A directory as a bounded finite map

Starting without blocks, a directory does under any sequence of additions and
removals what a finite set of entries with different names does, up to its 1020
slots. The lookup and the listing give back that set.
-/

namespace DirectoryRuns

open ByteBlock Layout BlockLog ZoneLog LogCalls CallRuns LogStore Programs Kernel StoreMachine
  FileBlocks
open BlockForest TreeWrites FileWrites Directories Operations DirectoryWrites VolumeMachine
open FsRuns Soundness Ownership FileContents FileReads DirectoryBlocks DirectoryMaps IndexWalks
open Erasures TreeCalls SystemRuns

inductive DirCall where
  | add (sub : Block) (e : Entry)
  | remove (name : FileName)

instance (sub : Block) (e : Entry) : Decidable (Describes sub e) :=
  decidable_of_iff (nameLen sub = e.name.bytes.length ∧
      (∀ i, i < e.name.bytes.length → nameByte sub i = e.name.bytes.getD i 0) ∧
      iIno sub = e.iIno ∧ fileType sub = if e.isDir then hodoTypeDir else hodoTypeReg)
    ⟨fun ⟨h₁, h₂, h₃, h₄⟩ => ⟨h₁, h₂, h₃, h₄⟩, fun h => ⟨h.1, h.2, h.3, h.4⟩⟩

/-- An addition is made for an inode that the entry describes, under a new name. -/
def mapStep (S : Finset Entry) : DirCall → Option (Int × Finset Entry)
  | .add sub e =>
    if Describes sub e ∧ ∀ e' ∈ S, e'.name ≠ e.name then
      if S.card < 1020 then some (0, insert e S) else some (-1, S)
    else none
  | .remove name =>
    if ∃ e ∈ S, e.name = name then some (1, S.filter fun e => e.name ≠ name) else some (0, S)

/-- Successful additions minus successful removals. -/
def netGrowth : List DirCall → List Int → Int
  | .add _ _ :: cs, a :: as => (if a = 0 then 1 else 0) + netGrowth cs as
  | .remove _ :: cs, a :: as => netGrowth cs as - if a = 1 then 1 else 0
  | _, _ => 0

/-- The inode of the directory is read before each removal, as the callers do. -/
def DirCall.program (n : Nat) : DirCall → Program Int
  | .add sub _ => addDirent n sub
  | .remove name => do
    let (ret, _) ← removeEntry n name.arg
    pure ret

def dirStep {σ : Type} (D : Disk σ) (E : Env) (n : Nat) (m : Machine σ) (c : DirCall) :
    Option (Int × Machine σ) :=
  match exec (machine D E) (c.program n) m with
  | .done r => some r
  | _ => none

def DirRoom (clock : Nat → Timespec) (n : Nat) (m : Machine Volume) (c : DirCall) : Prop :=
  Guarded (machine volumeDisk (zeroFilled clock)) Fits (c.program n) m

instance (clock : Nat → Timespec) (n : Nat) (m : Machine Volume) (c : DirCall) :
    Decidable (DirRoom clock n m c) :=
  inferInstanceAs (Decidable (Guarded (machine volumeDisk (zeroFilled clock)) Fits (c.program n) m))

def findEntry (n : Nat) (name : Name) : Program Nat := do
  let stack ← auto
  let inode ← hodoRead n stack
  findInodeNumber inode name

/-- `dirent_count` starts behind the entries for the directory and its parent. -/
def listDirectory (n : Nat) (ctx : DirContext) : Program DirContext := do
  let inode ← hodoRead n zeros
  let (ctx, _) ← readAllDirents inode ctx 2
  pure ctx

/-- Lookups and listings of directory `n` give the entries of `S`. -/
structure Directory (clock : Nat → Timespec) (m : Machine Volume) (n : Nat) (S : Finset Entry) :
    Prop where
  found : ∀ e ∈ S, ∃ m', exec (machine volumeDisk (zeroFilled clock))
    (findEntry n e.name.arg) m = .done (e.iIno, m')
  absent : ∀ name : FileName, (∀ e ∈ S, e.name ≠ name) →
    ∃ m', exec (machine volumeDisk (zeroFilled clock)) (findEntry n name.arg) m =
      .done (nothingFound, m')
  listed : ∃ es : List Entry, es.Nodup ∧ es.toFinset = S ∧
    ∀ ctx : DirContext, 2 ≤ ctx.pos → es.length ≤ ctx.room →
      ∃ ctx' m', exec (machine volumeDisk (zeroFilled clock)) (listDirectory n ctx) m =
          .done (ctx', m') ∧
        ctx'.emitted = ctx.emitted ++ (es.drop (ctx.pos - 2)).map Entry.emitted ∧
        ctx'.pos = max ctx.pos (2 + es.length)

variable {D : Disk Store} [LikeStore D] {clock : Nat → Timespec}

theorem passive_kmalloc : kmalloc.Only Passive := only_cmd trivial

theorem passive_walkDirectory {σ β : Type} {failed : σ → σ ⊕ β}
    {fromDirect : Block → σ → Program (σ ⊕ β)} (h : ∀ b s, (fromDirect b s).Only Passive)
    (inode buf : Block) (s : σ) : (walkDirectory failed fromDirect inode buf s).Only Passive :=
  only_walkDirectory (fun _ _ => trivial) trivial h inode buf s

theorem passive_findInodeNumber (inode : Block) (name : Name) :
    (findInodeNumber inode name).Only Passive := by
  refine only_bind passive_kmalloc fun buf => ?_
  cases buf with
  | none => exact only_pure _ _
  | some buf =>
    refine only_bind (passive_walkDirectory (fun _ _ => only_pure _ _) _ _ _) fun r => ?_
    cases r with
    | inl r => exact only_pure _ _
    | inr r => exact only_pure _ _

theorem passive_findEntry (n : Nat) (name : Name) : (findEntry n name).Only Passive :=
  only_bind (only_cmd trivial) fun stack => only_bind (passive_hodoRead n stack) fun inode =>
    passive_findInodeNumber inode name

theorem passive_readAllDirents (inode : Block) (ctx : DirContext) (count : Nat) :
    (readAllDirents inode ctx count).Only Passive := by
  refine only_bind passive_kmalloc fun buf => ?_
  cases buf with
  | none => exact only_pure _ _
  | some buf =>
    refine only_bind (passive_walkDirectory (fun _ _ => only_pure _ _) _ _ _) fun r => ?_
    cases r with
    | inl r => exact only_pure _ _
    | inr r => exact only_pure _ _

theorem passive_listDirectory (n : Nat) (ctx : DirContext) : (listDirectory n ctx).Only Passive :=
  only_bind (passive_hodoRead n zeros) fun inode =>
    only_bind (passive_readAllDirents inode ctx 2) fun _ => only_pure _ _

theorem u64_add (x y : Int) : u64 (u64 x + y) = u64 (x + y) := by
  simp only [u64]
  omega

theorem added_disk {m m' : Machine Store} {n : Nat} {b sub : Block} {r : Int}
    (valid : Valid m.disk) (forest : IsForest m.disk.content) (h : AddResult m n b sub 0 r m') :
    Valid m'.disk ∧ IsForest m'.disk.content := by
  cases h with
  | full _ hdisk _ =>
    rw [hdisk]
    exact ⟨valid, forest⟩
  | slot _ _ _ _ _ hw => exact ⟨hw.valid, hw.forest⟩
  | block _ _ _ _ hw => exact ⟨hw.valid, hw.forest⟩

theorem removed_disk {m m' : Machine Store} {n : Nat} {b : Block} {name : Name} {r : Int × Nat}
    (valid : Valid m.disk) (forest : IsForest m.disk.content) (h : RemoveResult m n b name r m') :
    Valid m'.disk ∧ IsForest m'.disk.content := by
  cases h with
  | absent _ hdisk _ =>
    rw [hdisk]
    exact ⟨valid, forest⟩
  | removed hremoved =>
    obtain ⟨_, _, _, _, _, hw, _⟩ := hremoved
    exact ⟨hw.valid, hw.forest⟩

/-- Directory `n` of the map holds the entries `S`, and its length is `len` modulo `2 ^ 64`. -/
def DirState (a : Machine Store) (n : Nat) (S : Finset Entry) (len : Int) : Prop :=
  Valid a.disk ∧ IsForest a.disk.content ∧ ∃ b ds, HasEntries a.disk n b ds ∧
    ds.flatten.toFinset = S ∧ fileLen b = u64 len

theorem nodup_flatten {s : Store} {n : Nat} {b : Block} {ds : List (List Entry)}
    (h : HasEntries s n b ds) : ds.flatten.Nodup :=
  List.Nodup.of_map Entry.name h.unique

theorem wp_dirCall {a : Machine Store} {n : Nat} {S S' : Finset Entry} {len r : Int} {c : DirCall}
    (state : DirState a n S len) (hstep : mapStep S c = some (r, S')) :
    wp (plain D clock) (c.program n)
      (fun r' a' => r' = r ∧ DirState a' n S' (len + netGrowth [c] [r])) a := by
  obtain ⟨valid, forest, b, ds, h, rfl, hlen⟩ := state
  have hcard : ds.flatten.toFinset.card = ds.flatten.length :=
    List.toFinset_card_of_nodup (nodup_flatten h)
  cases c with
  | add sub e =>
    rw [mapStep] at hstep
    split at hstep
    case isFalse => cases hstep
    case isTrue hdesc =>
    obtain ⟨desc, fresh⟩ := hdesc
    have hn : n % 2 ^ 32 = n := Nat.mod_eq_of_lt (valid.number_lt (valid.used h.inode))
    apply wp_mono _ (wp_addDirent hn valid forest h.inode h.isInode)
    intro r' a' hadd
    obtain ⟨valid', forest'⟩ := added_disk valid forest hadd
    cases h.added desc (fun e' he' => fresh e' (List.mem_toFinset.mpr he')) hadd with
    | @inserted b' ds' h' hperm hlen' =>
      have hlt : ds.flatten.length < 1020 := by
        have hle := h'.blocks.count_le
        rw [hperm.length_eq, List.length_cons] at hle
        omega
      rw [hcard, if_pos hlt] at hstep
      obtain ⟨rfl, rfl⟩ := Prod.mk.inj (Option.some.inj hstep)
      refine ⟨rfl, valid', forest', b', ds', h', ?_, ?_⟩
      · rw [List.toFinset_eq_of_perm _ _ hperm, List.toFinset_cons]
      · rw [hlen', hlen, u64_add]
        rfl
    | full hdisk hfull =>
      rw [hcard, hfull, if_neg (Nat.lt_irrefl _)] at hstep
      obtain ⟨rfl, rfl⟩ := Prod.mk.inj (Option.some.inj hstep)
      refine ⟨rfl, valid', forest', b, ds, by rw [hdisk]; exact h, rfl, ?_⟩
      simpa [netGrowth] using hlen
  | remove name =>
    simp only [DirCall.program, wp_bind, wp_pure]
    apply wp_mono _ (wp_removeEntry valid forest h.inode h.isInode h.noIndex)
    intro r' a' hremove
    obtain ⟨valid', forest'⟩ := removed_disk valid forest hremove
    have htaken := h.taken hremove
    generalize r'.1 = x at htaken ⊢
    rw [mapStep] at hstep
    cases htaken with
    | @removed b' ds' e hname h' hperm hlen' _ =>
      subst hname
      have hmem : e ∈ ds.flatten := hperm.mem_iff.mpr List.mem_cons_self
      rw [if_pos ⟨e, List.mem_toFinset.mpr hmem, rfl⟩] at hstep
      obtain ⟨rfl, rfl⟩ := Prod.mk.inj (Option.some.inj hstep)
      refine ⟨rfl, valid', forest', b', ds', h', toFinset_of_perm_cons hperm h.unique, ?_⟩
      rw [hlen', hlen, Int.sub_eq_add_neg, u64_add]
      rfl
    | absent hdisk hno =>
      have hnone : ¬ ∃ e ∈ ds.flatten.toFinset, e.name = name := by
        rintro ⟨e, he, hname⟩
        exact hno e (List.mem_toFinset.mp he) hname
      rw [if_neg hnone] at hstep
      obtain ⟨rfl, rfl⟩ := Prod.mk.inj (Option.some.inj hstep)
      refine ⟨rfl, valid', forest', b, ds, by rw [hdisk]; exact h, rfl, ?_⟩
      simpa [netGrowth] using hlen

theorem netGrowth_cons (c : DirCall) (cs : List DirCall) (r : Int) (as : List Int) :
    netGrowth (c :: cs) (r :: as) = netGrowth [c] [r] + netGrowth cs as := by
  cases c with
  | add sub e => simp [netGrowth]
  | remove name => simp [netGrowth, Int.sub_eq_add_neg, Int.add_comm]

theorem dir_run {intact : Bool} {n : Nat} {m : Machine Volume} {a : Machine Store}
    (follows : Follows intact m a) {cs : List DirCall} {as : List Int}
    {S S' : Finset Entry} {len : Int}
    (state : DirState a n S len) (answers : run mapStep cs S = some (as, S'))
    (room : EachCall (dirStep volumeDisk (zeroFilled clock) n) (DirRoom clock n) cs m) :
    ∃ m' a', run (dirStep volumeDisk (zeroFilled clock) n) cs m = some (as, m') ∧
      Follows intact m' a' ∧ DirState a' n S' (len + netGrowth cs as) := by
  induction cs generalizing m a S as len with
  | nil =>
    obtain ⟨rfl, rfl⟩ := Prod.mk.inj (Option.some.inj answers)
    exact ⟨m, a, rfl, follows, by simpa [netGrowth] using state⟩
  | cons c cs ih =>
    cases hstep : mapStep S c with
    | none =>
      rw [run, hstep] at answers
      cases answers
    | some r =>
      obtain ⟨r, S₁⟩ := r
      rw [run_cons hstep, Option.map_eq_some_iff] at answers
      obtain ⟨⟨as, S₂⟩, hrun, heq⟩ := answers
      obtain ⟨rfl, rfl⟩ := Prod.mk.inj heq
      obtain ⟨r', m₁, a₁, hexec, follows₁, rfl, state₁⟩ :=
        program_follows follows room.1 (wp_dirCall state hstep)
      have hcall : dirStep volumeDisk (zeroFilled clock) n m c = some (r', m₁) := by
        rw [dirStep, hexec]
      obtain ⟨m', a', hrun', follows', state'⟩ := ih follows₁ state₁ hrun (room.2 _ _ hcall)
      refine ⟨m', a', by rw [run_cons hcall, hrun']; rfl, follows', ?_⟩
      rwa [netGrowth_cons, ← Int.add_assoc]

theorem wp_findEntry {a : Machine Store} {n : Nat} {b : Block} {ds : List (List Entry)}
    (valid : Valid a.disk) (forest : IsForest a.disk.content) (h : HasEntries a.disk n b ds)
    (name : FileName) :
    wp (plain D clock) (findEntry n name.arg) (fun r _ => r = numberOf ds.flatten name) a := by
  simp only [findEntry, wp_bind, wp_auto]
  apply (wp_hodoRead_some (m := Machine.later a) valid h.inode _ _).mpr
  exact wp_mono (fun _ _ hr => hr.1) (wp_findInodeNumber (m := Machine.later a) valid forest h name)

theorem wp_listDirectory {a : Machine Store} {n : Nat} {b : Block} {ds : List (List Entry)}
    (valid : Valid a.disk) (forest : IsForest a.disk.content) (h : HasBlocks a.disk n b ds)
    (ctx : DirContext) :
    wp (plain D clock) (listDirectory n ctx)
      (fun ctx' _ => ctx' = (listEntries ds.flatten (ctx, 2)).1) a := by
  simp only [listDirectory, wp_bind]
  apply (wp_hodoRead_some valid h.inode _ _).mpr
  apply wp_mono _ (wp_readAllDirents valid forest h ctx 2)
  rintro r _ ⟨rfl, _⟩
  rw [wp_pure]

theorem directory_of_state {intact : Bool} {m : Machine Volume} {a : Machine Store} {n : Nat}
    {S : Finset Entry} {len : Int} (follows : Follows intact m a) (state : DirState a n S len) :
    Directory clock m n S := by
  obtain ⟨valid, forest, b, ds, h, rfl, _⟩ := state
  have lookup : ∀ name : FileName, ∃ m', exec (machine volumeDisk (zeroFilled clock))
      (findEntry n name.arg) m = .done (numberOf ds.flatten name, m') := by
    intro name
    obtain ⟨r, m', _, hexec, _, rfl⟩ := program_follows follows
      (guarded_of_only fits_of_passive (passive_findEntry n name.arg) m)
      (wp_findEntry valid forest h name)
    exact ⟨m', hexec⟩
  refine ⟨fun e he => ?_, fun name hno => ?_, ds.flatten, nodup_flatten h, rfl,
    fun ctx hpos hroom => ?_⟩
  · rw [← numberOf_of_mem h.unique (List.mem_toFinset.mp he)]
    exact lookup e.name
  · rw [← numberOf_of_absent fun e he => hno e (List.mem_toFinset.mpr he)]
    exact lookup name
  · obtain ⟨ctx', m', _, hexec, _, rfl⟩ := program_follows follows
      (guarded_of_only fits_of_passive (passive_listDirectory n ctx) m)
      (wp_listDirectory valid forest h.blocks ctx)
    refine ⟨_, m', hexec, ?_, ?_⟩ <;> rw [listEntries_eq _ hpos]
    rw [List.take_of_length_le]
    rw [List.length_drop]
    omega

/-- An inode without blocks has no entries. -/
theorem entries_nil {s : Store} {n : Nat} {b : Block} (valid : Valid s)
    (forest : IsForest s.content)
    (hb : s.content n = some b) (hdat : isDat b = false) (hptrs : ∀ i, i < 13 → inodePtr b i = 0) :
    HasEntries s n b [] where
  inode := hb
  isInode := hdat
  noIndex i _ hi := hptrs i hi
  len := Nat.zero_le 10
  block i hi := absurd hi (Nat.not_lt_zero i)
  beyond i _ hi := (dataAt_eq_none_iff valid forest hb hdat hi).mpr (hptrs i (by omega))
  unique := List.nodup_nil

/-- In every state reached from a first mount a directory inode without blocks does,
under additions and removals, what the finite map does. -/
theorem directory_refines_map (clock : Nat → Timespec) (uid gid groups : Nat) (now : Timespec)
    (fs : List SysCall)
    (calls : EachCall (notedSysStep clock) (Admissible clock) fs
      (firstMounted uid gid groups now, true)) :
    ∃ as m intact, run (notedSysStep clock) fs (firstMounted uid gid groups now, true) =
      some (as, m, intact) ∧
      ∀ n b, InUse (m, intact) n → onDisk m.disk n = some b → isDat b = false →
        (∀ i, i < 13 → inodePtr b i = 0) →
        ∀ cs as S, run mapStep cs ∅ = some (as, S) →
          EachCall (dirStep volumeDisk (zeroFilled clock) n) (DirRoom clock n) cs m →
          ∃ m', run (dirStep volumeDisk (zeroFilled clock) n) cs m = some (as, m') ∧
            Directory clock m' n S ∧
            storedLen (onDisk m'.disk) n = u64 (fileLen b + netGrowth cs as) := by
  obtain ⟨as, ⟨m, intact⟩, hrun, a, follows, inv⟩ := sys_run clock uid gid groups now calls
  refine ⟨as, m, intact, hrun, fun n b inUse hb hdat hptrs cs as' S answers room => ?_⟩
  replace hb := stored_of_inUse follows inv inUse hb
  have state : DirState a n ∅ (fileLen b) :=
    ⟨inv.valid, inv.forest, b, [], entries_nil inv.valid inv.forest hb hdat hptrs, rfl,
      (u64_ofNat (getLE_lt b 8 8)).symm⟩
  obtain ⟨m', a', hrun', follows', state'⟩ := dir_run follows state answers room
  obtain ⟨_, _, b', _, h', _, hlen'⟩ := id state'
  refine ⟨m', hrun', directory_of_state follows' state', ?_⟩
  rw [storedLen_of_follows follows' h'.inode, hlen']

/-- The entry and the inode of a regular file with a name of one letter. -/
def letterEntry (c : UInt8) (h : c ≠ 0) (n : Nat) (hpos : 0 < n) (hlt : n < 2 ^ 64) : Entry :=
  ⟨⟨[c], by simp, by simp, by simpa using h.symm⟩, n, false, hpos, hlt⟩

def entryA : Entry := letterEntry 97 (by decide) 18 (by decide) (by decide)
def entryB : Entry := letterEntry 98 (by decide) 19 (by decide) (by decide)

def letterInode (e : Entry) : Block :=
  storedInode zeros regularFile ⟨0, 0⟩ e.name.bytes 0o644 e.iIno ⟨0, 0⟩

/-- Two files are entered into a new directory, and one of them is taken out again. -/
def letterCalls : List DirCall :=
  [.add (letterInode entryA) entryA, .add (letterInode entryB) entryB, .remove entryA.name]

/-- A new directory. -/
def newDirRun : List SysCall := [.call (.mkdirBody ⟨0, 0⟩ rootRef [100] 0o755)]

theorem letters_directory : ∃ as m intact m',
    run (notedSysStep fun _ => ⟨0, 0⟩) newDirRun (firstMounted 0 0 0 ⟨0, 0⟩, true) =
      some (as, m, intact) ∧
    run (dirStep volumeDisk (zeroFilled fun _ => ⟨0, 0⟩) 17) letterCalls m =
      some ([0, 0, 1], m') ∧
    Directory (fun _ => ⟨0, 0⟩) m' 17 {entryB} ∧ storedLen (onDisk m'.disk) 17 = u64 (2 + 1) := by
  obtain ⟨as, m, intact, hrun, hdir⟩ := directory_refines_map (fun _ => ⟨0, 0⟩) 0 0 0 ⟨0, 0⟩
    newDirRun (by decide +kernel)
  have hcall : ∃ r, run (notedSysStep fun _ => ⟨0, 0⟩) newDirRun
      (firstMounted 0 0 0 ⟨0, 0⟩, true) = some r ∧ r.2.2 = true ∧
      (∃ b, onDisk r.2.1.disk 17 = some b ∧ isDat b = false ∧ (∀ i, i < 13 → inodePtr b i = 0) ∧
        fileLen b = 2) ∧
      EachCall (dirStep volumeDisk (zeroFilled fun _ => ⟨0, 0⟩) 17)
        (DirRoom (fun _ => ⟨0, 0⟩) 17) letterCalls r.2.1 := by
    decide +kernel
  obtain ⟨r, hrun', hintact, ⟨b, hb, hdat, hptrs, hlen⟩, room⟩ := hcall
  obtain rfl := Option.some.inj (hrun'.symm.trans hrun)
  obtain ⟨m', hcalls, directory, hlen'⟩ := hdir 17 b (Or.inl hintact) hb hdat hptrs letterCalls
    [0, 0, 1] {entryB} (by decide +kernel) room
  refine ⟨as, m, intact, m', hrun, hcalls, directory, hlen'.trans ?_⟩
  rw [hlen]
  rfl

end DirectoryRuns
