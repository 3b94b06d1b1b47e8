import HodoZns.BlockIndex
import HodoZns.FileViews
import HodoZns.Interleavings

/-!
# Writes to different files by several tasks

Each task has its own file, and all of them share the log, the bitmap and the
mapping table. A task is looked at over a map of its own, with only its blocks
in it, in which numbers are skipped as other tasks take them.
-/

namespace SeparateWrites

open ByteBlock Layout BlockLog ZoneLog LogStore Relocation CallRuns Programs Kernel StoreMachine
  FileBlocks BlockForest Ancestry
open BlockFields TreeWrites FileWrites Operations VolumeMachine FsRuns Ownership FileContents
open FileReads Erasures TreeCalls SystemRuns FileViews BlockIndex Interleavings

/-- A block is stored under a number of which the first `k` before it may be handed out. -/
def Store.putNew (s : Store) (b : Block) (k : Nat) : Store :=
  { s with count := k + 1, content := update s.content (s.base + k) (some (stamp b (s.base + k))) }

def Store.putOld (s : Store) (b : Block) (n : Nat) : Store :=
  { s with content := update s.content n (some (stamp b n)) }

/-- A map that skips `A k` numbers when `k` have been handed out. It takes a block only under a
new number or one that has a block. -/
def skipDisk (A : Nat → Nat) : Disk Store where
  startingNumber := fun s => s.base
  next := fun _ => .stuck
  write := fun buf n s =>
    if n = 0 then
      if isDat buf then
        if s.count + A s.count < numberMappingTableEntry then
          .done ((4096, s.base + (s.count + A s.count),
            stamp buf (s.base + (s.count + A s.count))),
            Store.putNew s buf (s.count + A s.count))
        else .noRoom
      else .stuck
    else if s.content n ≠ none ∧ Names buf n then
      .done ((4096, n, stamp buf n), Store.putOld s buf n)
    else .stuck
  read := fun n _ s =>
    match s.content n with
    | some b => .done ((4096, b), s)
    | none => .stuck
  erase := fun _ _ => .stuck
  gc := fun _ _ => .stuck

section Puts

variable {s : Store} {b : Block} {n k : Nat}

theorem put_new (valid : Valid s) (hdat : isDat b = true) (hk : s.count ≤ k)
    (hlt : k < numberMappingTableEntry) : Put s (Store.putNew s b k) b 0 (s.base + k) := by
  have hnumber : s.base + k < 2 ^ 32 := by
    rw [numberMappingTableEntry_eq] at hlt
    have := valid.base
    omega
  refine ⟨rfl, Nat.le_succ_of_le hk, fun h => absurd rfl h, fun _ => Nat.add_le_add_left hk _, rfl,
    valid.base, hlt, fun {x b'} hb' => ?_, fun {x b'} hb' => ?_⟩
  · simp only [Store.putNew, update] at hb'
    split at hb'
    case isTrue hx =>
      subst hx
      exact ⟨Nat.le_add_right _ _, Nat.add_lt_add_left (Nat.lt_succ_self k) _⟩
    case isFalse =>
      obtain ⟨hlo, hhi⟩ := valid.used hb'
      exact ⟨hlo, Nat.lt_of_lt_of_le hhi (Nat.add_le_add_left (Nat.le_succ_of_le hk) _)⟩
  · simp only [Store.putNew, update] at hb'
    split at hb'
    case isTrue hx =>
      subst hx
      obtain rfl := Option.some.inj hb'
      exact ownNumber_stamp (Or.inl hdat) hnumber
    case isFalse => exact valid.names hb'

theorem put_old (valid : Valid s) (hn : n ≠ 0) (used : s.used n) (names : Names b n) :
    Put s (Store.putOld s b n) b n n := by
  refine ⟨rfl, Nat.le_refl _, fun _ => rfl, fun h => absurd h hn, rfl, valid.base, valid.count_le,
    fun {x b'} hb' => ?_, fun {x b'} hb' => ?_⟩
  · simp only [Store.putOld, update] at hb'
    split at hb'
    case isTrue hx => exact hx ▸ used
    case isFalse => exact valid.used hb'
  · simp only [Store.putOld, update] at hb'
    split at hb'
    case isTrue hx =>
      subst hx
      obtain rfl := Option.some.inj hb'
      exact ownNumber_stamp names (valid.number_lt used)
    case isFalse => exact valid.names hb'

theorem storeDisk_new (hdat : isDat b = true) (room : ¬ s.full) : storeDisk.write b 0 s =
    .done ((4096, s.base + s.count, stamp b (s.base + s.count)), Store.putNew s b s.count) := by
  have hnames : Names b (s.base + s.count) := Or.inl hdat
  simp only [storeDisk, Store.put, Store.choose, Store.next, room, true_and, if_true, if_false,
    if_pos hnames]
  rfl

theorem storeDisk_old (hn : n ≠ 0) (used : s.used n) (names : Names b n) : storeDisk.write b n s =
    .done ((4096, n, stamp b n), Store.putOld s b n) := by
  simp only [storeDisk, Store.put, Store.choose, if_pos used, if_pos names, hn, false_and,
    if_false]
  rfl

/-- A block that may be written under any number is no inode. -/
theorem dat_of_names (names : ∀ L, Names b L) : isDat b = true := by
  rcases names 0 with hdat | h0
  · exact hdat
  · rcases names 1 with hdat | h1
    · exact hdat
    · exact absurd (h0.symm.trans h1) (by decide)

instance (A : Nat → Nat) : KeepsBlocks (skipDisk A) where
  write {s b n} valid there names := by
    simp only [skipDisk]
    by_cases hn : n = 0
    · subst hn
      have hdat := dat_of_names fun L => names L fun h => absurd rfl h
      rw [if_pos rfl, if_pos hdat]
      split
      case isTrue hlt => exact ⟨_, rfl, put_new valid hdat (Nat.le_add_right _ _) hlt⟩
      case isFalse => trivial
    · have hnames := names n fun _ => rfl
      obtain ⟨b', hb'⟩ := Option.ne_none_iff_exists'.mp (there hn)
      rw [if_neg hn, if_pos ⟨there hn, hnames⟩]
      exact ⟨n, rfl, put_old valid hn (valid.used hb') hnames⟩
  read {s n b} _ hb buf := by
    simp only [skipDisk, hb]

end Puts

section Skips

variable {A A' : Nat → Nat} {clock : Nat → Timespec} {v v' : Machine Store} {c : Cmd}

theorem skip_count_le {r : c.Reply} (hstep : plain (skipDisk A) clock c v = .done (r, v')) :
    v.disk.count ≤ v'.disk.count := by
  cases c with
  | next => cases hstep
  | erase n => cases hstep
  | gc temp => cases hstep
  | write buf n =>
    simp only [machine, skipDisk] at hstep
    split at hstep
    case isTrue =>
      split at hstep
      case isTrue =>
        split at hstep
        case isTrue =>
          obtain ⟨_, rfl⟩ := Prod.mk.inj (Outcome.done.inj hstep)
          exact Nat.le_succ_of_le (Nat.le_add_right _ _)
        case isFalse => cases hstep
      case isFalse => cases hstep
    case isFalse =>
      split at hstep
      case isTrue =>
        obtain ⟨_, rfl⟩ := Prod.mk.inj (Outcome.done.inj hstep)
        exact Nat.le_refl _
      case isFalse => cases hstep
  | read n buf =>
    simp only [machine, skipDisk] at hstep
    split at hstep
    case h_1 =>
      obtain ⟨_, rfl⟩ := Prod.mk.inj (Outcome.done.inj hstep)
      exact Nat.le_refl _
    case h_2 => cases hstep
  | _ =>
    obtain ⟨_, rfl⟩ := Prod.mk.inj (Outcome.done.inj hstep)
    exact Nat.le_refl _

theorem skip_congr_step (h : A v.disk.count = A' v.disk.count) :
    plain (skipDisk A) clock c v = plain (skipDisk A') clock c v := by
  cases c with
  | write buf n => simp only [machine, skipDisk, h]
  | _ => rfl

/-- The numbers that are skipped before those handed out do not matter. -/
theorem wp_skip_congr {α : Type} {p : Program α} {Q : α → Machine Store → Prop}
    (h : ∀ k, v.disk.count ≤ k → A k = A' k) (safe : wp (plain (skipDisk A) clock) p Q v) :
    wp (plain (skipDisk A') clock) p Q v := by
  induction p generalizing v with
  | done a => exact (wp_pure _ a Q v).mpr ((wp_pure _ a Q v).mp safe)
  | crash => exact absurd safe (not_wp_crash _ Q v)
  | call c next ih =>
    rw [wp_call] at safe ⊢
    rw [← skip_congr_step (h _ (Nat.le_refl _))]
    cases hc : plain (skipDisk A) clock c v with
    | noRoom => trivial
    | stuck =>
      rw [hc] at safe
      exact safe.elim
    | done r =>
      rw [hc] at safe
      obtain ⟨r, v'⟩ := r
      exact ih r (fun k hk => h k (Nat.le_trans (skip_count_le hc) hk)) safe

end Skips

/-- What a task has on its own is in the shared map too. -/
structure Shares (a v : Machine Store) (ref : Nat) : Prop where
  base : v.disk.base = a.disk.base
  count_le : v.disk.count ≤ a.disk.count
  content : ∀ {x b}, v.disk.content x = some b → a.disk.content x = some b
  inode : v.inodes ref = a.inodes ref

/-- No block belongs to two tasks. -/
structure Sharing {ι : Type} (a : Machine Store) (vs : ι → Machine Store) (ref : ι → Nat) :
    Prop where
  valid : Valid a.disk
  shares : ∀ i, Shares a (vs i) (ref i)
  apart : ∀ {i j x}, i ≠ j → (vs i).disk.content x ≠ none → (vs j).disk.content x = none

section Steps

variable {ι : Type} [DecidableEq ι] {clock : Nat → Timespec} {a a' v' : Machine Store}
  {vs : ι → Machine Store} {ref : ι → Nat} {i : ι} {c : Cmd} {A : Nat → Nat}

theorem Sharing.update (sharing : Sharing a vs ref) (valid' : Valid a'.disk)
    (own : Shares a' v' (ref i)) (others : ∀ j, j ≠ i → Shares a' (vs j) (ref j))
    (apart : ∀ j x, j ≠ i → v'.disk.content x ≠ none → (vs j).disk.content x = none) :
    Sharing a' (Function.update vs i v') ref := by
  refine ⟨valid', fun j => ?_, fun {j k x} hne hx => ?_⟩
  · by_cases hj : j = i
    · rw [hj, Function.update_self]
      exact own
    · rw [Function.update_of_ne hj]
      exact others j hj
  · by_cases hj : j = i
    · subst hj
      rw [Function.update_self] at hx
      rw [Function.update_of_ne hne.symm]
      exact apart k x hne.symm hx
    · rw [Function.update_of_ne hj] at hx
      by_cases hk : k = i
      · subst hk
        rw [Function.update_self]
        by_contra hthere
        exact hx (apart j x hj hthere)
      · rw [Function.update_of_ne hk]
        exact sharing.apart hne hx

/-- A step that only asks for memory or for the inode, or changes the inode. -/
theorem Sharing.sameDisk (sharing : Sharing a vs ref) (hdisk : a'.disk = a.disk)
    (hdisk' : v'.disk = (vs i).disk) (own : v'.inodes (ref i) = a'.inodes (ref i))
    (others : ∀ j, j ≠ i → a'.inodes (ref j) = a.inodes (ref j)) :
    Sharing a' (Function.update vs i v') ref := by
  have shares := sharing.shares i
  refine sharing.update (hdisk ▸ sharing.valid) ⟨?_, ?_, ?_, own⟩ (fun j hj => ?_)
    fun j x hj hx => ?_
  · rw [hdisk, hdisk', shares.base]
  · rw [hdisk, hdisk']
    exact shares.count_le
  · rw [hdisk, hdisk']
    exact shares.content
  · have hshares := sharing.shares j
    exact ⟨by rw [hdisk, hshares.base], by rw [hdisk]; exact hshares.count_le,
      by rw [hdisk]; exact hshares.content, by rw [others j hj, hshares.inode]⟩
  · rw [hdisk'] at hx
    exact sharing.apart hj.symm hx

omit [DecidableEq ι] in
theorem Sharing.absent (sharing : Sharing a vs ref) (j : ι) {x : Nat}
    (hx : a.disk.content x = none) : (vs j).disk.content x = none := by
  cases hj : (vs j).disk.content x with
  | none => rfl
  | some b =>
    rw [(sharing.shares j).content hj] at hx
    cases hx

/-- Both maps take the block, under a number that no other task has. -/
theorem Sharing.put {s s' : Store} {b : Block} {n L : Nat} (sharing : Sharing a vs ref)
    (hput : Put a.disk s b n L) (hput' : s'.content = Layout.update (vs i).disk.content L
      (some (stamp b L))) (base : s'.base = (vs i).disk.base) (count_le : s'.count ≤ s.count)
    (free : ∀ j, j ≠ i → (vs j).disk.content L = none) :
    Sharing (a.setDisk s) (Function.update vs i ((vs i).setDisk s')) ref := by
  have shares := sharing.shares i
  refine sharing.update hput.valid ⟨?_, count_le, fun {x b'} hx => ?_, shares.inode⟩
    (fun j hj => ?_) fun j x hj hx => ?_
  · rw [setDisk_disk, setDisk_disk, base, shares.base, hput.base]
  · rw [setDisk_disk, hput'] at hx
    rw [setDisk_disk, hput.content]
    by_cases hL : x = L
    · rwa [hL, update_same] at hx ⊢
    · rw [update_other _ _ hL] at hx ⊢
      exact shares.content hx
  · have hshares := sharing.shares j
    refine ⟨hshares.base.trans hput.base.symm, Nat.le_trans hshares.count_le hput.count_le,
      fun {x b'} hx => ?_, hshares.inode⟩
    rw [setDisk_disk, hput.elsewhere]
    · exact hshares.content hx
    · rintro rfl
      rw [free j hj] at hx
      cases hx
  · rw [setDisk_disk, hput'] at hx
    by_cases hL : x = L
    · rw [hL]
      exact free j hj
    · rw [update_other _ _ hL] at hx
      exact sharing.apart hj.symm hx

omit [DecidableEq ι] in
/-- The numbers that other tasks have taken are skipped. -/
theorem gap_eq (sharing : Sharing a vs ref)
    (gap : A (vs i).disk.count = a.disk.count - (vs i).disk.count) :
    (vs i).disk.base + ((vs i).disk.count + A (vs i).disk.count) = a.disk.base + a.disk.count := by
  have shares := sharing.shares i
  have hle := shares.count_le
  rw [shares.base, gap]
  omega

/-- What a task does on its own it does over the shared map, and the other tasks do not
notice. -/
theorem shared_step {r : c.Reply} (distinct : Function.Injective ref) (sharing : Sharing a vs ref)
    (hc : Writing (ref i) c) (gap : A (vs i).disk.count = a.disk.count - (vs i).disk.count)
    (hv : plain (skipDisk A) clock c (vs i) = .done (r, v')) :
    ∃ a', plain storeDisk clock c a = .done (r, a') ∧
      Sharing a' (Function.update vs i v') ref := by
  have shares := sharing.shares i
  have hle := shares.count_le
  cases c with
  | read n buf =>
    simp only [machine, skipDisk] at hv
    split at hv
    case h_1 b hb =>
      obtain ⟨rfl, rfl⟩ := Prod.mk.inj (Outcome.done.inj hv)
      refine ⟨a, ?_, ?_⟩
      · simp only [machine, storeDisk, shares.content hb]
        rfl
      · rw [Machine.setDisk_self, Function.update_eq_self]
        exact sharing
    case h_2 => cases hv
  | write buf n =>
    simp only [machine, skipDisk] at hv
    split at hv
    case isTrue hn =>
      subst hn
      split at hv
      case isTrue hdat =>
        split at hv
        case isTrue hlt =>
          obtain ⟨rfl, rfl⟩ := Prod.mk.inj (Outcome.done.inj hv)
          have hfull : ¬ a.disk.full := by
            rw [gap] at hlt
            exact fun h => Nat.not_le.mpr hlt (by rw [Nat.add_sub_of_le hle]; exact h)
          have hput := put_new sharing.valid hdat (Nat.le_refl _) (Nat.not_le.mp hfull)
          refine ⟨_, ?_, sharing.put hput ?_ rfl ?_ fun j _ => ?_⟩
          · simp only [machine, storeDisk_new hdat hfull, gap_eq sharing gap]
            rfl
          · rw [Store.putNew, gap_eq sharing gap]
          · simp only [Store.putNew, gap]
            omega
          · exact sharing.absent j (sharing.valid.content_beyond (Nat.le_refl _))
        case isFalse => cases hv
      case isFalse => cases hv
    case isFalse hn =>
      split at hv
      case isTrue hthere =>
        obtain ⟨there, names⟩ := hthere
        obtain ⟨rfl, rfl⟩ := Prod.mk.inj (Outcome.done.inj hv)
        obtain ⟨b, hb⟩ := Option.ne_none_iff_exists'.mp there
        have used := sharing.valid.used (shares.content hb)
        refine ⟨_, ?_, sharing.put (put_old sharing.valid hn used names) rfl rfl hle
          fun j hj => sharing.apart hj.symm there⟩
        simp only [machine, storeDisk_old hn used names]
        rfl
      case isFalse => cases hv
  | kmalloc =>
    obtain ⟨rfl, rfl⟩ := Prod.mk.inj (Outcome.done.inj hv)
    exact ⟨_, rfl, sharing.sameDisk rfl rfl shares.inode fun _ _ => rfl⟩
  | auto =>
    obtain ⟨rfl, rfl⟩ := Prod.mk.inj (Outcome.done.inj hv)
    exact ⟨_, rfl, sharing.sameDisk rfl rfl shares.inode fun _ _ => rfl⟩
  | inode n =>
    obtain rfl : n = ref i := hc
    obtain ⟨rfl, rfl⟩ := Prod.mk.inj (Outcome.done.inj hv)
    refine ⟨a, congrArg (fun i => Outcome.done (i, a)) shares.inode.symm, ?_⟩
    rw [Function.update_eq_self]
    exact sharing
  | setInode n f =>
    obtain ⟨rfl, _⟩ : n = ref i ∧ _ := hc
    obtain ⟨rfl, rfl⟩ := Prod.mk.inj (Outcome.done.inj hv)
    refine ⟨_, rfl, sharing.sameDisk rfl rfl ?_ fun j hj => ?_⟩
    · simp only [update_same, shares.inode]
    · exact update_other _ _ fun h => hj (distinct h)
  | _ => exact hc.elim

omit [DecidableEq ι] in
/-- A task has room on its own as long as there is room in the shared map. -/
theorem room_alone (sharing : Sharing a vs ref)
    (gap : A (vs i).disk.count = a.disk.count - (vs i).disk.count)
    (hv : plain (skipDisk A) clock c (vs i) = .noRoom) : plain storeDisk clock c a = .noRoom := by
  have hle := (sharing.shares i).count_le
  cases c with
  | write buf n =>
    simp only [machine, skipDisk] at hv
    split at hv
    case isTrue hn =>
      split at hv
      case isTrue =>
        split at hv
        case isTrue => cases hv
        case isFalse hge =>
          have hfull : a.disk.full := by
            rw [gap, Nat.add_sub_of_le hle] at hge
            exact Nat.not_lt.mp hge
          simp only [machine, storeDisk, if_pos (show n = 0 ∧ a.disk.full from ⟨hn, hfull⟩)]
          rfl
      case isFalse => cases hv
    case isFalse =>
      split at hv
      case isTrue => cases hv
      case isFalse => cases hv
  | read n buf =>
    simp only [machine, skipDisk] at hv
    split at hv
    case h_1 => cases hv
    case h_2 => cases hv
  | _ => cases hv

/-- A command that takes no new number does not depend on those that are skipped. -/
theorem skip_step_same {v : Machine Store} {A' : Nat → Nat} {r : c.Reply}
    (hstep : plain (skipDisk A) clock c v = .done (r, v'))
    (hcount : v'.disk.count = v.disk.count) :
    plain (skipDisk A') clock c v = .done (r, v') := by
  cases c with
  | write buf n =>
    simp only [machine, skipDisk] at hstep ⊢
    split at hstep
    case isTrue =>
      split at hstep
      case isTrue =>
        split at hstep
        case isTrue =>
          obtain ⟨_, rfl⟩ := Prod.mk.inj (Outcome.done.inj hstep)
          simp only [setDisk_disk, Store.putNew] at hcount
          omega
        case isFalse => cases hstep
      case isFalse => cases hstep
    case isFalse hn =>
      rw [if_neg hn]
      exact hstep
  | _ => exact hstep

/-- Over a map of its own the task comes to `Q`, whatever numbers other tasks take. -/
def SafeAlone {α : Type} (clock : Nat → Timespec) (ref : ι → Nat)
    (Q : ι → α → Machine Store → Prop) (i : ι) (p : Program α) (v : Machine Store) : Prop :=
  p.Only (Writing (ref i)) ∧ ∀ A, wp (plain (skipDisk A) clock) p (Q i) v

/-- Behind the log stands a map that the tasks share. -/
def Shared (intact : Bool) (ref : ι → Nat) (m : Machine Volume) (vs : ι → Machine Store) : Prop :=
  ∃ a, Follows intact m a ∧ Sharing a vs ref

theorem separate_step {α : Type} {intact : Bool} {m : Machine Volume}
    {Q : ι → α → Machine Store → Prop} {next : c.Reply → Program α}
    (distinct : Function.Injective ref) (shared : Shared intact ref m vs) (fits : Fits m c)
    (safe : SafeAlone clock ref Q i (.call c next) (vs i)) :
    ∃ r m' v', machine volumeDisk (zeroFilled clock) c m = .done (r, m') ∧
      Shared intact ref m' (Function.update vs i v') ∧ SafeAlone clock ref Q i (next r) v' := by
  obtain ⟨a, follows, sharing⟩ := shared
  obtain ⟨only, safe⟩ := safe
  obtain ⟨hc, honly⟩ : Writing (ref i) c ∧ ∀ r, (next r).Only (Writing (ref i)) := by
    cases only with
    | call hc honly => exact ⟨hc, honly⟩
  have matched : Matches (Follows intact) (machine volumeDisk (zeroFilled clock) c m)
      (plain storeDisk clock c a) := command_follows (zeroFilled clock) m a c follows fits
  -- as many numbers are skipped as the other tasks have taken by now
  obtain ⟨gap, hgap⟩ : ∃ gap : Nat → Nat, ∀ k, gap k = a.disk.count - (vs i).disk.count :=
    ⟨fun _ => _, fun _ => rfl⟩
  have now := safe gap
  rw [wp_call] at now
  cases hv : plain (skipDisk gap) clock c (vs i) with
  | noRoom =>
    rw [room_alone sharing (hgap _) hv] at matched
    exact matched.elim
  | stuck =>
    rw [hv] at now
    exact now.elim
  | done r =>
    obtain ⟨r, v'⟩ := r
    obtain ⟨a', hstore, sharing'⟩ := shared_step distinct sharing hc (hgap _) hv
    rw [hstore] at matched
    obtain ⟨m', hvolume, follows'⟩ := matched
    refine ⟨r, m', v', hvolume, ⟨a', follows', sharing'⟩, honly r, fun A => ?_⟩
    by_cases hcount : v'.disk.count = (vs i).disk.count
    · have later := safe A
      rw [wp_call, skip_step_same hv hcount] at later
      exact later
    · have hlt := Nat.lt_of_le_of_ne (skip_count_le hv) (Ne.symm hcount)
      let A' k := if k = (vs i).disk.count then gap k else A k
      have later := safe A'
      have same : A' (vs i).disk.count = gap (vs i).disk.count := if_pos rfl
      rw [wp_call, skip_congr_step same, hv] at later
      exact wp_skip_congr (fun k hk => if_neg (by omega)) later

end Steps

/-- The blocks of the file under `n`. -/
noncomputable def ownPart (s : Store) (n : Nat) : Store :=
  open scoped Classical in
  { s with content := fun x => if Reach (Edge s.content) n x then s.content x else none }

section Parts

variable {s : Store} {a : Machine Store} {n x : Nat} {b : Block}

theorem ownPart_some :
    (ownPart s n).content x = some b ↔ Reach (Edge s.content) n x ∧ s.content x = some b := by
  simp only [ownPart]
  split
  case isTrue hx => exact (and_iff_right hx).symm
  case isFalse hx => exact iff_of_false (fun h => by cases h) fun h => hx h.1

theorem valid_ownPart (valid : Valid s) : Valid (ownPart s n) :=
  ⟨valid.base, valid.count_le, fun hb => valid.used (ownPart_some.mp hb).2,
    fun hb => valid.names (ownPart_some.mp hb).2⟩

theorem pointsTo_of_ownPart {i p k : Nat} (h : PointsTo (ownPart s n).content x i p k) :
    Reach (Edge s.content) n x ∧ PointsTo s.content x i p k := by
  obtain ⟨d, hd, hslot⟩ := h
  obtain ⟨hreach, hd⟩ := ownPart_some.mp hd
  exact ⟨hreach, d, hd, hslot⟩

/-- A pointer of a block of the file is to a block of the file. -/
theorem forest_ownPart (forest : IsForest s.content) : IsForest (ownPart s n).content where
  levels hb hdat := forest.levels (ownPart_some.mp hb).2 hdat
  target hp := by
    obtain ⟨hreach, hp⟩ := pointsTo_of_ownPart hp
    obtain ⟨d, hd, hlevel⟩ := forest.target hp
    exact ⟨d, ownPart_some.mpr ⟨hreach.tail ⟨_, _, hp⟩, hd⟩, hlevel⟩
  owner hp hp' := forest.owner (pointsTo_of_ownPart hp).2 (pointsTo_of_ownPart hp').2

theorem fileAt_ownPart {ref : Nat} (file : FileAt a ref n) :
    FileAt (a.setDisk (ownPart a.disk n)) ref n := by
  obtain ⟨b, hb, hdat⟩ := file.inode
  exact ⟨valid_ownPart file.valid, forest_ownPart file.forest, file.ino, b,
    ownPart_some.mpr ⟨.refl, hb⟩, hdat⟩

theorem viewAt_ownPart {ref : Nat} (file : FileAt a ref n) :
    viewAt (a.setDisk (ownPart a.disk n)) ref n = viewAt a ref n :=
  (viewOf_of_extends (fileAt_ownPart file) file.valid.content_zero
    (fun hb => (ownPart_some.mp hb).2) _).symm

/-- Different files have no block in common. -/
theorem ownPart_apart {n' : Nat} {b' : Block} (forest : IsForest s.content)
    (hb : s.content n = some b) (hdat : isDat b = false) (hb' : s.content n' = some b')
    (hdat' : isDat b' = false) (hne : n ≠ n') (hx : (ownPart s n).content x ≠ none) :
    (ownPart s n').content x = none := by
  obtain ⟨d, hd⟩ := Option.ne_none_iff_exists'.mp hx
  have hreach := (ownPart_some.mp hd).1
  have hroot := (forest.orphan_of_inode hb hdat).no_edge
  have hroot' := (forest.orphan_of_inode hb' hdat').no_edge
  simp only [ownPart]
  exact if_neg (forest.forest.roots_disjoint hroot hroot' hne hreach)

theorem sharing_start {ι : Type} {ref : ι → Nat}
    (file : ∀ i, FileAt a (ref i) (a.inodes (ref i)).iIno)
    (distinct : ∀ i j, i ≠ j → (a.inodes (ref i)).iIno ≠ (a.inodes (ref j)).iIno)
    (valid : Valid a.disk) :
    Sharing a (fun i => a.setDisk (ownPart a.disk (a.inodes (ref i)).iIno)) ref := by
  refine ⟨valid, fun i => ⟨rfl, Nat.le_refl _, fun hb => (ownPart_some.mp hb).2, rfl⟩,
    fun {i j x} hne hx => ?_⟩
  obtain ⟨b, hb, hdat⟩ := (file i).inode
  obtain ⟨b', hb', hdat'⟩ := (file j).inode
  exact ownPart_apart (file i).forest hb hdat hb' hdat' (distinct i j hne) hx

end Parts

/-- The blocks of the file read as they are in `v`. -/
structure Shows (clock : Nat → Timespec) (m : Machine Volume) (n : Nat) (v : View) : Prop where
  length : storedLen (onDisk m.disk) n = v.len
  missing : ∀ o, v.block o = none → storedBlock (onDisk m.disk) n o = none
  there : ∀ o d, v.block o = some d → ∃ t, ReadsAs clock m n o t ∧ blockData t = d

/-- The file has the same length, the same blocks are there, and they read the same. -/
structure SameFile (clock : Nat → Timespec) (m m' : Machine Volume) (n : Nat) : Prop where
  length : storedLen (onDisk m.disk) n = storedLen (onDisk m'.disk) n
  blocks : ∀ o, storedBlock (onDisk m.disk) n o = none ∧ storedBlock (onDisk m'.disk) n o = none ∨
    ∃ t t', ReadsAs clock m n o t ∧ ReadsAs clock m' n o t' ∧ blockData t = blockData t'

theorem sameFile_of_shows {clock : Nat → Timespec} {m m' : Machine Volume} {n : Nat} {v : View}
    (h : Shows clock m n v) (h' : Shows clock m' n v) : SameFile clock m m' n := by
  refine ⟨h.length.trans h'.length.symm, fun o => ?_⟩
  cases hv : v.block o with
  | none => exact Or.inl ⟨h.missing o hv, h'.missing o hv⟩
  | some d =>
    obtain ⟨t, hread, hdata⟩ := h.there o d hv
    obtain ⟨t', hread', hdata'⟩ := h'.there o d hv
    exact Or.inr ⟨t, t', hread, hread', hdata.trans hdata'.symm⟩

/-- The file of a task is on the log as it is in the map of the task. -/
theorem shows_of_file {clock : Nat → Timespec} {intact : Bool} {m : Machine Volume}
    {a v : Machine Store} {ref n : Nat} (follows : Follows intact m a) (valid : Valid a.disk)
    (file : FileAt v ref n)
    (holds : ∀ {x b}, v.disk.content x = some b → a.disk.content x = some b) :
    Shows clock m n (viewAt v ref n) := by
  obtain ⟨b, hn, _⟩ := file.inode
  have hview := viewOf_of_extends file (onDisk_zero follows)
    (fun hb => onDisk_of_follows follows (holds hb)) (v.inodes ref).iSize
  refine ⟨congrArg View.len hview, fun o ho => ?_, fun o d ho => ?_⟩
  · have hblock := congrFun (congrArg View.block hview) o
    exact Option.map_eq_none_iff.mp (hblock.trans ho)
  · obtain ⟨t, ht, hdata⟩ := Option.map_eq_some_iff.mp ho
    rw [storedBlock_eq hn, ← dataAt_of_extends file hn valid.content_zero holds] at ht
    exact ⟨t, readsAs_of_valid follows valid (holds hn) ht, hdata⟩

section Runs

variable {ι : Type} [DecidableEq ι]

/-- Calls of `hodo_sub_file_write_iter`, a sequence for each task. -/
def writeTasks (writes : ι → List (Kiocb × IovIter)) (m : Machine Volume) :
    Tasks Cmd Cmd.Reply (List Int) (Machine Volume) ι :=
  ⟨m, fun i => writeCalls (writes i)⟩

/-- The next command of the task `i`, over the log. -/
def volumeStep (clock : Nat → Timespec) :
    Tasks Cmd Cmd.Reply (List Int) (Machine Volume) ι → ι →
      Option (Cmd × Tasks Cmd Cmd.Reply (List Int) (Machine Volume) ι) :=
  taskStep (machine volumeDisk (zeroFilled clock))

/-- The task has a command to give, for which there is room. -/
def HasRoom (t : Tasks Cmd Cmd.Reply (List Int) (Machine Volume) ι) (i : ι) : Prop :=
  Admits Fits t i

instance (t : Tasks Cmd Cmd.Reply (List Int) (Machine Volume) ι) (i : ι) :
    Decidable (HasRoom t i) :=
  inferInstanceAs (Decidable (Admits _ _ _))

/-- A task that has come to its end has returned what it returns alone, and its file is as if
it had been alone, in every interleaving of its commands with those of tasks with other
files. -/
theorem writes_as_alone (clock : Nat → Timespec) (uid gid groups : Nat) (now : Timespec)
    (cs : List SysCall)
    (calls : EachCall (notedSysStep clock) (Admissible clock) cs
      (firstMounted uid gid groups now, true)) :
    ∃ as m intact, run (notedSysStep clock) cs (firstMounted uid gid groups now, true) =
      some (as, m, intact) ∧
      ∀ (ref : ι → Nat) (writes : ι → List (Kiocb × IovIter)) (schedule : List ι),
        (∀ i, (m.inodes (ref i)).iFop = some .file) →
        (∀ i j, i ≠ j → (m.inodes (ref i)).iIno ≠ (m.inodes (ref j)).iIno) →
        (∀ i, ∀ w ∈ writes i, w.1.inode = ref i) →
        EachCall (volumeStep clock) HasRoom schedule (writeTasks writes m) →
        ∃ given t, run (volumeStep clock) schedule (writeTasks writes m) = some (given, t) ∧
          ∀ i rets, t.answer i = some rets →
            Guarded (machine volumeDisk (zeroFilled clock)) Fits (writeCalls (writes i)) m →
            ∃ m', exec (machine volumeDisk (zeroFilled clock)) (writeCalls (writes i)) m =
                .done (rets, m') ∧ SameFile clock t.state m' (m.inodes (ref i)).iIno := by
  obtain ⟨as, ⟨m, intact⟩, hrun, a, follows, inv⟩ := sys_run clock uid gid groups now calls
  refine ⟨as, m, intact, hrun, ?_⟩
  intro ref writes schedule hfile distinct own room
  have hinodes : m.inodes = a.inodes := follows.inodes
  simp only [hinodes] at hfile distinct ⊢
  have file := fun i => fileAt_of_live inv (hfile i)
  have hinj : Function.Injective ref := fun i j hij => by
    by_contra hne
    exact distinct i j hne (by rw [hij])
  let Q i (rets : List Int) (v : Machine Store) :=
    FileAt v (ref i) (a.inodes (ref i)).iIno ∧
      (viewAt a (ref i) (a.inodes (ref i)).iIno).writeAll (writes i) =
        (rets, viewAt v (ref i) (a.inodes (ref i)).iIno)
  have safe : ∀ i, SafeAlone clock ref Q i (writeCalls (writes i))
      (a.setDisk (ownPart a.disk (a.inodes (ref i)).iIno)) := fun i => by
    refine ⟨writing_writeCalls (own i), fun A => ?_⟩
    have view := viewAt_ownPart (file i)
    apply wp_mono _ (wp_writeCalls (fileAt_ownPart (file i)) (own i))
    rintro rets v ⟨file', hwrite⟩
    exact ⟨file', view ▸ hwrite⟩
  obtain ⟨given, t, vs, hsteps, ⟨a', follows', sharing⟩, safe'⟩ := separate_run
    (separate_step hinj) ⟨a, follows, sharing_start file distinct inv.valid⟩ safe room
  refine ⟨given, t, hsteps, fun i rets hanswer room' => ?_⟩
  obtain ⟨file', hshared⟩ : Q i rets (vs i) := by
    have ended := (safe' i).2 fun _ => 0
    rw [answer_eq_some.mp hanswer] at ended
    exact (wp_pure _ rets (Q i) (vs i)).mp ended
  obtain ⟨rets', m', a₁, hexec, follows₁, file₁, halone⟩ := program_follows follows room'
    (wp_writeCalls (file i) (own i))
  obtain ⟨hrets, hview⟩ := Prod.mk.inj (hshared.symm.trans halone)
  have shows : Shows clock t.state _ _ :=
    shows_of_file follows' sharing.valid file' (sharing.shares i).content
  rw [hview] at shows
  exact ⟨m', hrets ▸ hexec,
    sameFile_of_shows shows (shows_of_file follows₁ file₁.valid file₁ fun hb => hb)⟩

end Runs

/-- Two files, of which the first one ends where its index blocks begin. -/
def twoFilesRun : List SysCall :=
  [.call (.create ⟨0, 0⟩ rootRef [97] 0o644), .call (.create ⟨0, 0⟩ rootRef [98] 0o644),
    .call (.write ⟨1, false, 40879⟩ ⟨[9], 1⟩)]

def twoWriters (second : Bool) : List (Kiocb × IovIter) :=
  if second then [(⟨2, true, 0⟩, wholeIter [3]), (⟨2, true, 0⟩, wholeIter [4])]
  else [(⟨1, true, 0⟩, wholeIter [1, 2])]

/-- One command each, in turn, until the first task is at its end. -/
def alternating : List Bool :=
  (List.replicate 11 [false, true]).flatten ++ List.replicate 8 true

theorem alternating_as_alone : ∃ as m intact given t m₀ m₁,
    run (notedSysStep fun _ => ⟨0, 0⟩) twoFilesRun (firstMounted 0 0 0 ⟨0, 0⟩, true) =
      some (as, m, intact) ∧
    run (volumeStep fun _ => ⟨0, 0⟩) alternating (writeTasks twoWriters m) = some (given, t) ∧
    t.answer false = some [2] ∧ t.answer true = some [1, 1] ∧
    exec (machine volumeDisk (zeroFilled fun _ => ⟨0, 0⟩)) (writeCalls (twoWriters false)) m =
      .done ([2], m₀) ∧
    exec (machine volumeDisk (zeroFilled fun _ => ⟨0, 0⟩)) (writeCalls (twoWriters true)) m =
      .done ([1, 1], m₁) ∧
    SameFile (fun _ => ⟨0, 0⟩) t.state m₀ (m.inodes 1).iIno ∧
    SameFile (fun _ => ⟨0, 0⟩) t.state m₁ (m.inodes 2).iIno := by
  obtain ⟨as, m, intact, hrun, halone⟩ := writes_as_alone (ι := Bool) (fun _ => ⟨0, 0⟩) 0 0 0
    ⟨0, 0⟩ twoFilesRun (by decide +kernel)
  have hcall : ∃ r, run (notedSysStep fun _ => ⟨0, 0⟩) twoFilesRun
        (firstMounted 0 0 0 ⟨0, 0⟩, true) = some r ∧
      (∀ i : Bool, (r.2.1.inodes (i.toNat + 1)).iFop = some .file) ∧
      (∀ i j : Bool, i ≠ j →
        (r.2.1.inodes (i.toNat + 1)).iIno ≠ (r.2.1.inodes (j.toNat + 1)).iIno) ∧
      (∀ i, ∀ w ∈ twoWriters i, w.1.inode = i.toNat + 1) ∧
      EachCall (volumeStep fun _ => ⟨0, 0⟩) HasRoom alternating (writeTasks twoWriters r.2.1) ∧
      (∀ i, Guarded (machine volumeDisk (zeroFilled fun _ => ⟨0, 0⟩)) Fits
        (writeCalls (twoWriters i)) r.2.1) ∧
      ∃ r', run (volumeStep fun _ => ⟨0, 0⟩) alternating (writeTasks twoWriters r.2.1) =
        some r' ∧ r'.2.answer false = some [2] ∧ r'.2.answer true = some [1, 1] := by
    decide +kernel
  obtain ⟨r, hrun', hfile, distinct, own, room, alone, r', hsteps', answer₀, answer₁⟩ := hcall
  obtain rfl := Option.some.inj (hrun'.symm.trans hrun)
  obtain ⟨given, t, hsteps, hsame⟩ :=
    halone (fun i => i.toNat + 1) twoWriters alternating hfile distinct own room
  obtain rfl := Option.some.inj (hsteps'.symm.trans hsteps)
  obtain ⟨m₀, hexec₀, same₀⟩ := hsame false [2] answer₀ (alone false)
  obtain ⟨m₁, hexec₁, same₁⟩ := hsame true [1, 1] answer₁ (alone true)
  exact ⟨as, m, intact, given, t, m₀, m₁, hrun, hsteps, answer₀, answer₁, hexec₀, hexec₁, same₀,
    same₁⟩

end SeparateWrites
