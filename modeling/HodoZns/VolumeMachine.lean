import HodoZns.StoreMachine

/-!
# Programs over the log

A program that is safe over the plain map runs over the log, as long as the log
has room for it, and does there what it does over the map.
-/

namespace VolumeMachine

open ByteBlock Layout BlockLog ZoneLog NumberAllocator LogCalls Consistency Relocation LogStore
  Programs
open SequentialWrites Kernel Operations StoreMachine

/-- What a command needs from the log. -/
def Fits (m : Machine Volume) : Cmd → Prop
  | .next => FreeNumber m.disk.info
  | .write _ n => WpInData m.disk ∧ (n = 0 → FreeNumber m.disk.info)
  | _ => True

instance (m : Machine Volume) : (c : Cmd) → Decidable (Fits m c)
  | .next => inferInstanceAs (Decidable (FreeNumber m.disk.info))
  | .write _ n => inferInstanceAs (Decidable (WpInData m.disk ∧ (n = 0 → FreeNumber m.disk.info)))
  | .startingNumber | .read _ _ | .erase _ | .gc _ | .kmalloc | .auto | .now | .newInode
  | .inode _ | .setInode _ _ => isTrue trivial

structure Agrees (m : Machine Volume) (a : Machine Store) : Prop where
  represents : Represents m.disk a.disk
  inodes : m.inodes = a.inodes
  inodeCount : m.inodeCount = a.inodeCount
  tick : m.tick = a.tick

theorem agrees_mounted (stack : Block) (uid gid groups : Nat) (now : Timespec) :
    Agrees (mounted (firstMount standardGeometry stack uid gid) groups now)
      (mounted (mountedStore stack uid gid) groups now) where
  represents := represents_firstMount stack uid gid
  inodes := rfl
  inodeCount := rfl
  tick := rfl

theorem matches_next {m : Machine Volume} {a : Machine Store} (E : Env) (h : Agrees m a)
    (fits : Fits m .next) :
    Matches Agrees (machine volumeDisk E .next m) (machine storeDisk E .next a) := by
  have hfull : ¬ a.disk.full := h.represents.not_full fits
  obtain ⟨hnumber, hnext⟩ := represents_getNext h.represents
  simp only [machine, storeDisk, volumeDisk, if_neg hfull, Outcome.map]
  exact ⟨m.setDisk { m.disk with info := (hodoGetNextLogicalNumber m.disk.info).2 },
    by rw [hnumber], hnext, h.inodes, h.inodeCount, h.tick⟩

theorem matches_write {m : Machine Volume} {a : Machine Store} (E : Env) (h : Agrees m a)
    (buf : Block) (n : Nat) (fits : Fits m (.write buf n)) :
    Matches Agrees (machine volumeDisk E (.write buf n) m)
      (machine storeDisk E (.write buf n) a) := by
  obtain ⟨data, free⟩ := fits
  have hroom : ¬ (n = 0 ∧ a.disk.full) := fun hfull =>
    h.represents.not_full (free hfull.1) hfull.2
  simp only [machine, storeDisk, volumeDisk, if_neg hroom]
  cases hput : a.disk.put buf n with
  | none => trivial
  | some r =>
    obtain ⟨L, b, s'⟩ := r
    obtain ⟨v', hwrite, hrep, _⟩ := represents_write h.represents data hput
    simp only [hwrite, unlessStrayed, if_pos hrep.inside, Outcome.map, Option.getD_some]
    exact ⟨_, rfl, hrep, h.inodes, h.inodeCount, h.tick⟩

theorem matches_read {m : Machine Volume} {a : Machine Store} (E : Env) (h : Agrees m a)
    (n : Nat) (buf : Block) :
    Matches Agrees (machine volumeDisk E (.read n buf) m)
      (machine storeDisk E (.read n buf) a) := by
  simp only [machine, storeDisk, volumeDisk]
  cases hc : a.disk.content n with
  | none => trivial
  | some b =>
    simp only [represents_read h.represents hc, Outcome.map, Option.getD_some]
    exact ⟨m, rfl, h⟩

theorem command_matches (E : Env) (m : Machine Volume) (a : Machine Store) (c : Cmd)
    (h : Agrees m a) (fits : Fits m c) :
    Matches Agrees (machine volumeDisk E c m) (machine storeDisk E c a) := by
  cases c with
  | startingNumber =>
    refine ⟨m, ?_, h⟩
    simp only [volumeDisk, storeDisk, machine, h.represents.base, h.represents.consistent.starting]
  | next => exact matches_next E h fits
  | write buf n => exact matches_write E h buf n fits
  | read n buf => exact matches_read E h n buf
  | erase n => trivial
  | gc temp => trivial
  | kmalloc =>
    exact ⟨{ m with tick := m.tick + 1 }, by simp only [machine, h.tick], h.represents,
      h.inodes, h.inodeCount, congrArg (· + 1) h.tick⟩
  | auto =>
    exact ⟨{ m with tick := m.tick + 1 }, by simp only [machine, h.tick], h.represents,
      h.inodes, h.inodeCount, congrArg (· + 1) h.tick⟩
  | now =>
    exact ⟨{ m with tick := m.tick + 1 }, by simp only [machine, h.tick], h.represents,
      h.inodes, h.inodeCount, congrArg (· + 1) h.tick⟩
  | newInode =>
    refine ⟨{ m with
        inodes := update m.inodes m.inodeCount newInode
        inodeCount := m.inodeCount + 1 }, by simp only [machine, h.inodeCount], h.represents,
      ?_, congrArg (· + 1) h.inodeCount, h.tick⟩
    simp only [h.inodes, h.inodeCount]
  | inode ref => exact ⟨m, by rw [machine, h.inodes], h⟩
  | setInode ref f =>
    refine ⟨_, rfl, h.represents, ?_, h.inodeCount, h.tick⟩
    simp only [h.inodes]

theorem eq_of_unlessStrayed {α : Type} {m : MappingInfo} {r r' : α}
    (h : unlessStrayed m r = .done r') : r = r' := by
  rw [unlessStrayed] at h
  split at h
  · exact Outcome.done.inj h
  · cases h

section

variable {E : Env} {m m' : Machine Volume} {n : Nat} {buf : Block}

theorem disk_of_write {r : Int × Nat × Block}
    (h : machine volumeDisk E (.write buf n) m = .done (r, m')) :
    m'.disk =
      (hodoWriteStruct standardGeometry ioOk m.disk (some buf) hodoDatablockSize n).volume := by
  obtain ⟨_, hwrite, heq⟩ := Outcome.map_eq_done.mp h
  obtain rfl := eq_of_unlessStrayed hwrite
  exact congrArg (fun r => r.2.disk) heq.symm

theorem disk_of_read {r : Int × Block} (h : machine volumeDisk E (.read n buf) m = .done (r, m')) :
    m'.disk = m.disk := by
  obtain ⟨_, hread, heq⟩ := Outcome.map_eq_done.mp h
  simp only [volumeDisk] at hread
  split at hread
  case h_1 =>
    obtain rfl := Outcome.done.inj hread
    exact congrArg (fun r => r.2.disk) heq.symm
  case h_2 => cases hread

theorem disk_of_erase {r : Unit} (h : machine volumeDisk E (.erase n) m = .done (r, m')) :
    m'.disk = { m.disk with info := hodoEraseTableEntry m.disk.info n } := by
  obtain ⟨_, herase, heq⟩ := Outcome.map_eq_done.mp h
  obtain rfl := eq_of_unlessStrayed herase
  exact congrArg (fun r => r.2.disk) heq.symm

theorem disk_of_gc {temp : Block} {r : Unit}
    (h : machine volumeDisk E (.gc temp) m = .done (r, m')) :
    Collector.GC standardGeometry temp m.disk = some m'.disk := by
  obtain ⟨v', hgc, heq⟩ := Outcome.map_eq_done.mp h
  obtain rfl := congrArg (fun r => r.2.disk) heq
  simp only [volumeDisk] at hgc
  split at hgc
  case h_1 v'' hsome => rw [hsome, eq_of_unlessStrayed hgc]
  case h_2 => cases hgc

end

/-- What a safe program does over the plain map, it does over the log. -/
theorem program_runs {α : Type} {E : Env} {p : Program α} {m : Machine Volume} {a : Machine Store}
    {Q : α → Machine Store → Prop} (h : Agrees m a)
    (fits : Guarded (machine volumeDisk E) Fits p m) (safe : wp (machine storeDisk E) p Q a) :
    ∃ r m' a', exec (machine volumeDisk E) p m = .done (r, m') ∧ Agrees m' a' ∧ Q r a' :=
  exec_simulates Fits Agrees (fun m a c => command_matches E m a c) h fits safe

end VolumeMachine
