import HodoZns.Operations

/-!
# Machines over the plain map

What the commands do on a machine whose disk is the plain map and whose memory
is zero filled. The specifications of the file-system functions are proved
here and then carried over to the log.
-/

namespace StoreMachine

open ByteBlock Layout BlockLog ZoneLog LogCalls LogStore Relocation Programs Kernel

/-- The map holds blocks only under numbers handed out, and each names its number. -/
structure Valid (s : Store) : Prop where
  base : s.base = 16
  count_le : s.count ≤ numberMappingTableEntry
  used : ∀ {n b}, s.content n = some b → s.used n
  names : ∀ {n b}, s.content n = some b → ownNumber b = n

theorem Valid.number_lt {s : Store} (h : Valid s) {n : Nat} (hn : s.used n) : n < 2 ^ 32 := by
  have hle := h.count_le
  obtain ⟨_, hhi⟩ := hn
  simp only [numberMappingTableEntry_eq, h.base] at hle hhi
  omega

theorem Valid.content_zero {s : Store} (h : Valid s) : s.content 0 = none := by
  cases hc : s.content 0 with
  | none => rfl
  | some b =>
    obtain ⟨hlo, _⟩ := h.used hc
    rw [h.base] at hlo
    omega

theorem Valid.ne_zero {s : Store} (h : Valid s) {n : Nat} (hn : s.used n) : n ≠ 0 := by
  obtain ⟨hlo, _⟩ := hn
  rw [h.base] at hlo
  omega

theorem Valid.content_beyond {s : Store} (h : Valid s) {n : Nat} (hn : s.base + s.count ≤ n) :
    s.content n = none := by
  cases hc : s.content n with
  | none => rfl
  | some b => exact absurd (h.used hc).2 (Nat.not_lt.mpr hn)

/-- A block `b` was written under `n`, which is 0 for a new number; it is stored
under `L`. -/
structure Put (s s' : Store) (b : Block) (n L : Nat) : Prop where
  base : s'.base = s.base
  count_le : s.count ≤ s'.count
  number : n ≠ 0 → L = n
  fresh : n = 0 → s.base + s.count ≤ L
  content : s'.content = update s.content L (some (stamp b L))
  valid : Valid s'

theorem Put.at_number {s s' : Store} {b : Block} {n L : Nat} (h : Put s s' b n L) :
    s'.content L = some (stamp b L) := by
  simp only [h.content, update_same]

theorem Put.elsewhere {s s' : Store} {b : Block} {n L : Nat} (h : Put s s' b n L) {x : Nat}
    (hx : x ≠ L) : s'.content x = s.content x := by
  simp only [h.content, update_other _ _ hx]

theorem Put.stays {s s' : Store} {b : Block} {n L : Nat} (h : Put s s' b n L) {x : Nat}
    (hx : s.content x ≠ none) : s'.content x ≠ none := by
  by_cases hL : x = L
  · rw [hL, h.at_number]
    exact Option.some_ne_none _
  · rwa [h.elsewhere hL]

/-- A write of a data or index block leaves the inodes. -/
theorem Put.inode_elsewhere {s s' : Store} {b : Block} {n L : Nat} (h : Put s s' b n L)
    (hdat : isDat (stamp b L) = true) {x : Nat} {d : Block} (hd : s'.content x = some d)
    (hinode : isDat d = false) : s.content x = some d := by
  by_cases hx : x = L
  · rw [hx, h.at_number] at hd
    obtain rfl := Option.some.inj hd
    exact absurd (hdat.symm.trans hinode) (by decide)
  · rwa [h.elsewhere hx] at hd

theorem Put.used {s s' : Store} {b : Block} {n L : Nat} (h : Put s s' b n L) : s'.used L :=
  h.valid.used h.at_number

/-- A new number had no block. -/
theorem Put.fresh_none {s s' : Store} {b : Block} {n L : Nat} (h : Put s s' b n L)
    (valid : Valid s) (hn : n = 0) : s.content L = none := by
  exact valid.content_beyond (h.fresh hn)

/-- A number without a block takes a number that was not handed out yet. -/
theorem Put.count_lt {s s' : Store} {b : Block} {n L : Nat} (h : Put s s' b n L) (hn : n = 0) :
    s.count < s'.count := by
  have hfresh := h.fresh hn
  have hlt := h.used.2
  rw [h.base] at hlt
  omega

/-- Number `n` was handed out. -/
structure Handed (s s' : Store) (n : Nat) : Prop where
  base : s'.base = s.base
  fresh : s.base + s.count ≤ n
  used : s'.used n
  content : s'.content = s.content
  valid : Valid s'

theorem Handed.count_lt {s s' : Store} {n : Nat} (h : Handed s s' n) : s.count < s'.count := by
  have hfresh := h.fresh
  have hlt := h.used.2
  rw [h.base] at hlt
  omega

theorem put_of_names {s : Store} {b : Block} {n : Nat} (valid : Valid s) (room : n = 0 → ¬ s.full)
    (used : n ≠ 0 → s.used n) (names : ∀ L, (n ≠ 0 → L = n) → Names b L) :
    ∃ L s', s.put b n = some (L, stamp b L, s') ∧ Put s s' b n L := by
  have hcount := valid.count_le
  by_cases hn : n = 0
  · subst hn
    have hfull := room rfl
    have hlt : s.count < numberMappingTableEntry := Nat.not_le.mp hfull
    have hnames : Names b (s.base + s.count) := names _ fun h => absurd rfl h
    have hnumber : s.base + s.count < 2 ^ 32 := by
      simp only [numberMappingTableEntry_eq] at hlt
      have := valid.base
      omega
    refine ⟨s.base + s.count, { s with
        count := s.count + 1
        content := update s.content (s.base + s.count) (some (stamp b (s.base + s.count))) },
      ?_, ⟨rfl, Nat.le_succ _, fun h => absurd rfl h, fun _ => Nat.le_refl _, rfl, valid.base, hlt,
        ?_, ?_⟩⟩
    · simp only [Store.put, Store.choose, if_pos, if_neg hfull, Store.next, if_pos hnames]
    · intro x b' hb'
      simp only [update] at hb'
      split at hb'
      · subst x
        exact ⟨Nat.le_add_right _ _, Nat.lt_succ_self _⟩
      · obtain ⟨hlo, hhi⟩ := valid.used hb'
        exact ⟨hlo, Nat.lt_succ_of_lt hhi⟩
    · intro x b' hb'
      simp only [update] at hb'
      split at hb'
      · subst x
        obtain rfl := Option.some.inj hb'
        exact ownNumber_stamp hnames hnumber
      · exact valid.names hb'
  · have hused := used hn
    have hnames : Names b n := names n fun _ => rfl
    refine ⟨n, { s with content := update s.content n (some (stamp b n)) }, ?_,
      ⟨rfl, Nat.le_refl _, fun _ => rfl, fun h => absurd h hn, rfl, valid.base, hcount, ?_, ?_⟩⟩
    · simp only [Store.put, Store.choose, if_neg hn, if_pos hused, if_pos hnames]
    · intro x b' hb'
      simp only [update] at hb'
      split at hb'
      · subst x
        exact hused
      · exact valid.used hb'
    · intro x b' hb'
      simp only [update] at hb'
      split at hb'
      · subst x
        obtain rfl := Option.some.inj hb'
        exact ownNumber_stamp hnames (valid.number_lt hused)
      · exact valid.names hb'

/-- A disk that answers as the plain map does wherever the plain map promises
something. It may hand out further numbers to others in between. -/
class LikeStore (D : Disk Store) : Prop where
  startingNumber : ∀ s, D.startingNumber s = s.base
  next : ∀ {s}, Valid s → (D.next s).Meets fun n s' => Handed s s' n
  write : ∀ {s b n}, Valid s → (n ≠ 0 → s.used n) → (∀ L, (n ≠ 0 → L = n) → Names b L) →
    (D.write b n s).Meets fun r s' => ∃ L, r = (4096, L, stamp b L) ∧ Put s s' b n L
  read : ∀ {s n b}, Valid s → s.content n = some b → ∀ buf, D.read n buf s = .done ((4096, b), s)

/-- A disk that need only take a block under a new number or one that has a block. -/
class KeepsBlocks (D : Disk Store) : Prop where
  write : ∀ {s b n}, Valid s → (n ≠ 0 → s.content n ≠ none) →
    (∀ L, (n ≠ 0 → L = n) → Names b L) →
    (D.write b n s).Meets fun r s' => ∃ L, r = (4096, L, stamp b L) ∧ Put s s' b n L
  read : ∀ {s n b}, Valid s → s.content n = some b → ∀ buf, D.read n buf s = .done ((4096, b), s)

instance {D : Disk Store} [LikeStore D] : KeepsBlocks D where
  write valid there names := LikeStore.write valid (fun hn => by
    obtain ⟨b, hb⟩ := Option.ne_none_iff_exists'.mp (there hn)
    exact valid.used hb) names
  read := LikeStore.read

theorem meets_map {σ τ α : Type} {Q : α → σ → Prop} {Q' : α → τ → Prop} {f : σ → τ}
    {o : Outcome (α × σ)} (h : o.Meets Q) (hQ : ∀ a s, Q a s → Q' a (f s)) :
    (o.map fun r => (r.1, f r.2)).Meets Q' := by
  cases o with
  | done r => exact hQ r.1 r.2 h
  | noRoom => trivial
  | stuck => exact h

instance : LikeStore storeDisk where
  startingNumber _ := rfl
  next {s} valid := by
    simp only [storeDisk]
    by_cases hfull : s.full
    · rw [if_pos hfull]
      trivial
    · rw [if_neg hfull, Store.next, if_neg hfull]
      refine ⟨rfl, Nat.le_refl _, ⟨Nat.le_add_right _ _, Nat.lt_succ_self _⟩, rfl, valid.base,
        Nat.not_le.mp hfull, fun hb => ?_, valid.names⟩
      obtain ⟨hlo, hhi⟩ := valid.used hb
      exact ⟨hlo, Nat.lt_succ_of_lt hhi⟩
  write {s b n} valid used names := by
    simp only [storeDisk]
    by_cases hroom : n = 0 ∧ s.full
    · rw [if_pos hroom]
      trivial
    · obtain ⟨L, s', hput, h⟩ :=
        put_of_names valid (fun hn hfull => hroom ⟨hn, hfull⟩) used names
      rw [if_neg hroom, hput]
      exact ⟨L, rfl, h⟩
  read {s n b} _ hb buf := by
    simp only [storeDisk, hb]

variable {D : Disk Store} {clock : Nat → Timespec} {E : Env} {m : Machine Store} {α : Type}

/-- The plain map under a kernel with zero-filled memory. -/
abbrev plain (D : Disk Store) (clock : Nat → Timespec) : Handler Cmd Cmd.Reply (Machine Store) :=
  machine D (zeroFilled clock)

def Machine.later (m : Machine Store) : Machine Store := { m with tick := m.tick + 1 }

@[simp] theorem later_disk (m : Machine Store) : (Machine.later m).disk = m.disk := rfl
@[simp] theorem later_inodes (m : Machine Store) : (Machine.later m).inodes = m.inodes := rfl
@[simp] theorem later_inodeCount (m : Machine Store) :
    (Machine.later m).inodeCount = m.inodeCount := rfl
@[simp] theorem setDisk_disk (m : Machine Store) (s : Store) : (m.setDisk s).disk = s := rfl
@[simp] theorem setDisk_inodes (m : Machine Store) (s : Store) :
    (m.setDisk s).inodes = m.inodes := rfl
@[simp] theorem setDisk_inodeCount (m : Machine Store) (s : Store) :
    (m.setDisk s).inodeCount = m.inodeCount := rfl

theorem wp_kmalloc_heap (Q : Option Block → Machine Store → Prop) :
    wp (machine D E) kmalloc Q m ↔ Q (E.heap m.tick) (Machine.later m) :=
  wp_cmd _ _ _ _

theorem wp_auto_stack (Q : Block → Machine Store → Prop) :
    wp (machine D E) auto Q m ↔ Q (E.stack m.tick) (Machine.later m) :=
  wp_cmd _ _ _ _

@[simp] theorem wp_kmalloc (Q : Option Block → Machine Store → Prop) :
    wp (plain D clock) kmalloc Q m ↔ Q (some zeros) (Machine.later m) :=
  wp_kmalloc_heap Q

@[simp] theorem wp_kmallocUnchecked (Q : Block → Machine Store → Prop) :
    wp (plain D clock) kmallocUnchecked Q m ↔ Q zeros (Machine.later m) := by
  rw [kmallocUnchecked, wp_bind, wp_kmalloc, wp_pure]

@[simp] theorem wp_auto (Q : Block → Machine Store → Prop) :
    wp (plain D clock) auto Q m ↔ Q zeros (Machine.later m) :=
  wp_auto_stack Q

theorem wp_currentTime_clock (Q : Timespec → Machine Store → Prop) :
    wp (machine D E) currentTime Q m ↔ Q (E.clock m.tick) (Machine.later m) :=
  wp_cmd _ _ _ _

@[simp] theorem wp_currentTime (Q : Timespec → Machine Store → Prop) :
    wp (plain D clock) currentTime Q m ↔ Q (clock m.tick) (Machine.later m) :=
  wp_currentTime_clock Q

@[simp] theorem wp_getInode (ref : Nat) (Q : VfsInode → Machine Store → Prop) :
    wp (machine D E) (getInode ref) Q m ↔ Q (m.inodes ref) m :=
  wp_cmd _ _ _ _

def Machine.updateInode (m : Machine Store) (ref : Nat) (f : VfsInode → VfsInode) : Machine Store :=
  { m with inodes := update m.inodes ref (f (m.inodes ref)) }

@[simp] theorem updateInode_disk (m : Machine Store) (ref : Nat) (f : VfsInode → VfsInode) :
    (Machine.updateInode m ref f).disk = m.disk := rfl
@[simp] theorem updateInode_inodes (m : Machine Store) (ref : Nat) (f : VfsInode → VfsInode) :
    (Machine.updateInode m ref f).inodes = update m.inodes ref (f (m.inodes ref)) := rfl
@[simp] theorem updateInode_inodeCount (m : Machine Store) (ref : Nat) (f : VfsInode → VfsInode) :
    (Machine.updateInode m ref f).inodeCount = m.inodeCount := rfl

@[simp] theorem wp_setInode (ref : Nat) (f : VfsInode → VfsInode)
    (Q : Unit → Machine Store → Prop) :
    wp (machine D E) (setInode ref f) Q m ↔ Q () (Machine.updateInode m ref f) :=
  wp_cmd _ _ _ _

def Machine.withInode (m : Machine Store) : Machine Store :=
  { m with inodes := update m.inodes m.inodeCount newInode, inodeCount := m.inodeCount + 1 }

@[simp] theorem withInode_disk (m : Machine Store) : (Machine.withInode m).disk = m.disk := rfl
@[simp] theorem withInode_inodes (m : Machine Store) :
    (Machine.withInode m).inodes = update m.inodes m.inodeCount newInode := rfl
@[simp] theorem withInode_inodeCount (m : Machine Store) :
    (Machine.withInode m).inodeCount = m.inodeCount + 1 := rfl

@[simp] theorem wp_allocInode (Q : Nat → Machine Store → Prop) :
    wp (machine D E) allocInode Q m ↔ Q m.inodeCount (Machine.withInode m) :=
  wp_cmd _ _ _ _

theorem wp_hodoWrite_of_meets {b : Block} {n : Nat} {Q : Int × Nat → Machine Store → Prop}
    (meets : (D.write b n m.disk).Meets fun r s' =>
      ∃ L, r = (4096, L, stamp b L) ∧ Put m.disk s' b n L)
    (post : ∀ L s', Put m.disk s' b n L → Q (4096, L) (m.setDisk s')) :
    wp (machine D E) (hodoWrite b n) Q m := by
  simp only [hodoWrite, Cmd.give, wp_bind, wp_cmd, wp_pure, machine]
  apply meets_map meets
  rintro r s' ⟨L, rfl, h⟩
  exact post L s' h

section

variable [KeepsBlocks D]

/-- A block that is there. -/
theorem wp_hodoRead_some {n : Nat} {b : Block} (valid : Valid m.disk)
    (hb : m.disk.content n = some b) (buf : Block) (Q : Block → Machine Store → Prop) :
    wp (machine D E) (hodoRead n buf) Q m ↔ Q b m := by
  simp only [hodoRead, Cmd.give, wp_bind, wp_cmd, wp_pure, machine, KeepsBlocks.read valid hb]
  rfl

/-- A data block is written under a number that has a block or a new one. -/
theorem wp_hodoRewrite_dat {b : Block} {n : Nat} {Q : Int × Nat → Machine Store → Prop}
    (valid : Valid m.disk) (there : n ≠ 0 → m.disk.content n ≠ none) (dat : isDat b = true)
    (post : ∀ L s', Put m.disk s' b n L → Q (4096, L) (m.setDisk s')) :
    wp (machine D E) (hodoWrite b n) Q m :=
  wp_hodoWrite_of_meets (KeepsBlocks.write valid there fun _ _ => Or.inl dat) post

/-- An inode is written under its number, which has a block. -/
theorem wp_hodoRewrite_inode {b : Block} {n : Nat} {Q : Int × Nat → Machine Store → Prop}
    (valid : Valid m.disk) (there : m.disk.content n ≠ none) (own : iIno b = n)
    (post : ∀ s', Put m.disk s' b n n → Q (4096, n) (m.setDisk s')) :
    wp (machine D E) (hodoWrite b n) Q m := by
  have hn : n ≠ 0 := by
    rintro rfl
    exact there valid.content_zero
  apply wp_hodoWrite_of_meets (KeepsBlocks.write valid (fun _ => there) fun L hL =>
    Or.inr (own.trans (hL hn).symm))
  intro L s' h
  obtain rfl := h.number hn
  exact post s' h

end

section

variable [LikeStore D]

@[simp] theorem wp_startingNumber (Q : Nat → Machine Store → Prop) :
    wp (machine D E) startingNumber Q m ↔ Q m.disk.base m := by
  rw [← LikeStore.startingNumber (D := D)]
  exact wp_cmd _ _ _ _

theorem wp_hodoWrite {b : Block} {n : Nat} {Q : Int × Nat → Machine Store → Prop}
    (valid : Valid m.disk) (used : n ≠ 0 → m.disk.used n)
    (names : ∀ L, (n ≠ 0 → L = n) → Names b L)
    (post : ∀ L s', Put m.disk s' b n L → Q (4096, L) (m.setDisk s')) :
    wp (machine D E) (hodoWrite b n) Q m :=
  wp_hodoWrite_of_meets (LikeStore.write valid used names) post

/-- A data block is written under a number of its own or a new one. -/
theorem wp_hodoWrite_dat {b : Block} {n : Nat} {Q : Int × Nat → Machine Store → Prop}
    (valid : Valid m.disk) (used : n ≠ 0 → m.disk.used n) (dat : isDat b = true)
    (post : ∀ L s', Put m.disk s' b n L → Q (4096, L) (m.setDisk s')) :
    wp (machine D E) (hodoWrite b n) Q m :=
  wp_hodoWrite valid used (fun _ _ => Or.inl dat) post

/-- An inode is written under its number. -/
theorem wp_hodoWrite_inode {b : Block} {n : Nat} {Q : Int × Nat → Machine Store → Prop}
    (valid : Valid m.disk) (used : m.disk.used n) (own : iIno b = n)
    (post : ∀ s', Put m.disk s' b n n → Q (4096, n) (m.setDisk s')) :
    wp (machine D E) (hodoWrite b n) Q m := by
  have hn := valid.ne_zero used
  apply wp_hodoWrite valid (fun _ => used) (fun L hL => Or.inr (own.trans (hL hn).symm))
  intro L s' h
  obtain rfl := h.number hn
  exact post s' h

theorem wp_nextLogicalNumber {Q : Nat → Machine Store → Prop} (valid : Valid m.disk)
    (post : ∀ n s', Handed m.disk s' n → Q n (m.setDisk s')) :
    wp (machine D E) nextLogicalNumber Q m := by
  simp only [nextLogicalNumber, Cmd.give, wp_cmd, machine]
  exact meets_map (LikeStore.next valid) post

end

@[simp] theorem wp_ite {c : Prop} [Decidable c] (p q : Program α) (Q : α → Machine Store → Prop) :
    wp (machine D E) (if c then p else q) Q m ↔
      if c then wp (machine D E) p Q m else wp (machine D E) q Q m := by
  split <;> rfl

end StoreMachine
