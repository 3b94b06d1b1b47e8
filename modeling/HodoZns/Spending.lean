import HodoZns.LogRoom
import HodoZns.VolumeMachine

/-!
# What a creation takes of the log

A creation takes one number, and writes the new inode, one block of the directory and
the inode of the directory. While the log has four blocks and four numbers left,
numbers and room do not run out on the way.
-/

namespace Spending

open ByteBlock Layout BlockLog ZoneLog NumberAllocator LogCalls WritePointers SequentialWrites
  LogRoom
open Programs Kernel Directories Operations VolumeMachine

/-- A command that leaves numbers and the log alone. -/
def Idle : Cmd → Prop
  | .next | .write _ _ | .erase _ | .gc _ => False
  | _ => True

/-- A command that takes a number or a block of the log, or both. -/
def Taking : Cmd → Prop
  | .next | .write _ _ => True
  | _ => False

theorem disk_of_idle {E : Env} {m m' : Machine Volume} {c : Cmd} {r : c.Reply} (idle : Idle c)
    (hstep : machine volumeDisk E c m = .done (r, m')) : m'.disk = m.disk := by
  cases c with
  | next | write buf n | erase n | gc temp => exact idle.elim
  | read n buf => exact disk_of_read hstep
  | startingNumber | kmalloc | auto | now | newInode | inode | setInode =>
    obtain ⟨_, rfl⟩ := Prod.mk.inj (Outcome.done.inj hstep)
    rfl

/-- The log has `k` blocks left, and the table `k` numbers. -/
structure Budget (k : Nat) (v : Volume) : Prop where
  blocks : ∃ j, HoldsBlocks j v ∧ j + k ≤ 13 * blocksPerZone
  numbers : ∃ c, c + k ≤ numberMappingTableEntry ∧
    ∀ i, i < numberMappingTableEntry → allocated v.info i = true → i < c

theorem Budget.mono {j k : Nat} {v : Volume} (h : Budget k v) (hle : j ≤ k) : Budget j v := by
  obtain ⟨⟨i, hi, hroom⟩, c, hc, hnumbers⟩ := h
  exact ⟨⟨i, hi, by omega⟩, c, by omega, hnumbers⟩

theorem Budget.free {k : Nat} {v : Volume} (h : Budget (k + 1) v) : FreeNumber v.info := by
  obtain ⟨c, hc, hnumbers⟩ := h.numbers
  refine ⟨c, by omega, Bool.eq_false_iff.mpr fun hset => ?_⟩
  exact Nat.lt_irrefl c (hnumbers c (by omega) hset)

theorem Budget.data {k : Nat} {v : Volume} (h : Budget (k + 1) v) : WpInData v := by
  obtain ⟨j, holds, hroom⟩ := h.blocks
  rw [WpInData, holds.wp]
  simp only [blocksPerZone_eq] at hroom ⊢
  omega

/-- The allocator takes the first free number. -/
theorem allocated_getNext_lt {m : MappingInfo} {c : Nat} (hc : c < numberMappingTableEntry)
    (h : ∀ i, i < numberMappingTableEntry → allocated m i = true → i < c) {i : Nat}
    (hi : i < numberMappingTableEntry) (hset : allocated (hodoGetNextLogicalNumber m).2 i = true) :
    i < c + 1 := by
  rcases getNext_cases m with ⟨k, hk, _, hbefore, heq⟩ | ⟨hfull, _⟩
  · rw [heq, allocated_setLogicalBitmap, Bool.or_eq_true, decide_eq_true_iff] at hset
    rcases hset with rfl | hold
    · by_contra hge
      exact Nat.lt_irrefl c (h c hc (hbefore c (by omega)))
    · exact Nat.lt_succ_of_lt (h i hi hold)
  · exact absurd (h c hc (hfull c hc)) (Nat.lt_irrefl c)

theorem allocated_recordWrite_lt {m : MappingInfo} {c n : Nat} (hc : c < numberMappingTableEntry)
    (h : ∀ i, i < numberMappingTableEntry → allocated m i = true → i < c) {i : Nat}
    (hi : i < numberMappingTableEntry) (hset : allocated (recordWrite m n).2 i = true) :
    i < c + 1 := by
  by_cases hn : n = 0
  · simp only [recordWrite, if_pos hn] at hset
    exact allocated_getNext_lt (m := hodoSetGCBitmap m m.wp) hc h hi hset
  · simp only [recordWrite, if_neg hn] at hset
    exact Nat.lt_succ_of_lt (h i hi hset)

theorem Budget.next {k : Nat} {v : Volume} (h : Budget (k + 1) v) :
    Budget k { v with info := (hodoGetNextLogicalNumber v.info).2 } := by
  obtain ⟨⟨j, holds, hroom⟩, c, hc, hnumbers⟩ := h
  refine ⟨⟨j, ⟨aligned_of_info holds.aligned (getNext_wp _), ?_⟩, by omega⟩, c + 1, by omega,
    fun i hi hset => allocated_getNext_lt (by omega) hnumbers hi hset⟩
  simp only [getNext_wp]
  exact holds.wp

theorem Budget.write {k : Nat} {v : Volume} (h : Budget (k + 1) v) (b : Block) (n : Nat) :
    Budget k (hodoWriteStruct standardGeometry ioOk v (some b) hodoDatablockSize n).volume := by
  have data := h.data
  obtain ⟨⟨j, holds, hroom⟩, c, hc, hnumbers⟩ := h
  have aligned := aligned_write holds.aligned data.2 b n
  have hwrite := hodoWriteStruct_ok b n (Nat.le_succ_of_le data.2) holds.aligned.at_wp
    holds.aligned.index_lt
  refine ⟨⟨j + 1, ⟨aligned, ?_⟩, by omega⟩, c + 1, by omega, fun i hi hset => ?_⟩
  · rw [hwrite]
    simp only [setWp]
    rw [holds.wp]
    exact nextWp_holds (by omega)
  · rw [hwrite] at hset
    exact allocated_recordWrite_lt (by omega) hnumbers hi hset

variable {α : Type} {E : Env} {k rest : Nat} {p : Program α} {m : Machine Volume}

/-- While the budget lasts, numbers and room do not run out. -/
theorem guarded_of_budget (spends : p.Spends Idle Taking k) (budget : Budget (k + rest) m.disk) :
    Guarded (machine volumeDisk E) Fits p m ∧
      ∀ r m', exec (machine volumeDisk E) p m = .done (r, m') → Budget rest m'.disk := by
  refine guarded_of_spends (B := fun k (m : Machine Volume) => Budget k m.disk) ?_ ?_
    (fun j k m hle h => h.mono hle) spends budget
  · intro k m c idle budget
    refine ⟨?_, fun r m' hstep => by rwa [disk_of_idle idle hstep]⟩
    cases c with
    | next | write buf n => exact idle.elim
    | _ => trivial
  · intro k m c taking budget
    cases c with
    | next =>
      refine ⟨budget.free, fun r m' hstep => ?_⟩
      obtain ⟨_, rfl⟩ := Prod.mk.inj (Outcome.done.inj hstep)
      exact budget.next
    | write buf n =>
      refine ⟨⟨budget.data, fun _ => budget.free⟩, fun r m' hstep => ?_⟩
      rw [disk_of_write hstep]
      exact budget.write buf n
    | _ => exact taking.elim

theorem spends_idle {c : Cmd} (h : Idle c) : (Cmd.give c).Spends Idle Taking 0 :=
  .free h fun r => .done 0 r

theorem spends_hodoRead (n : Nat) (buf : Block) : (hodoRead n buf).Spends Idle Taking 0 :=
  spends_bind (spends_idle (c := .read n buf) trivial) fun _ => spends_pure 0 _

theorem spends_hodoWrite (buf : Block) (n : Nat) : (hodoWrite buf n).Spends Idle Taking 1 :=
  .takes trivial fun _ => spends_pure 0 _

theorem spends_kmallocUnchecked : kmallocUnchecked.Spends Idle Taking 0 := by
  apply spends_bind (j := 0) (k := 0) (spends_idle (c := .kmalloc) trivial)
  intro b
  cases b with
  | none => exact .crash 0
  | some b => exact spends_pure 0 _

theorem spends_addDirentFrom (dir : Nat) (sub inode : Block) (blocks i : Nat) (temp : Block) :
    (addDirentFrom dir sub inode blocks i temp).Spends Idle Taking 2 := by
  induction blocks generalizing i temp with
  | zero => exact spends_pure 2 _
  | succ blocks ih =>
    rw [addDirentFrom]
    split
    · refine spends_bind (j := 0) (k := 2) (spends_hodoRead _ _) fun temp => ?_
      cases freeOffset temp with
      | none => exact ih (i + 1) temp
      | some j =>
        exact spends_bind (j := 1) (k := 1) (spends_hodoWrite _ _) fun _ =>
          spends_bind (j := 1) (k := 0) (spends_hodoWrite _ _) fun _ => spends_pure 0 _
    · exact spends_bind (j := 0) (k := 2) (spends_idle trivial) fun stack =>
        spends_bind (j := 1) (k := 1) (spends_hodoWrite _ _) fun _ =>
          spends_bind (j := 1) (k := 0) (spends_hodoWrite _ _) fun _ => spends_pure 0 _

theorem spends_addDirent (dir : Nat) (sub : Block) : (addDirent dir sub).Spends Idle Taking 2 :=
  spends_bind (j := 0) (k := 2) (spends_hodoRead _ _) fun _ =>
    spends_bind (j := 0) (k := 2) spends_kmallocUnchecked fun temp =>
      spends_addDirentFrom _ _ _ 10 0 temp

theorem spends_storeNewInode (kind : Kind) (cred : Cred) (dir : Nat) (name : List UInt8)
    (mode : Nat) (now : Timespec) :
    (storeNewInode kind cred dir name mode now).Spends Idle Taking 4 := by
  refine spends_bind (j := 0) (k := 4) (spends_idle trivial) fun stack => ?_
  refine spends_bind (j := 1) (k := 3) (.takes trivial fun n => spends_pure 0 n) fun n => ?_
  refine spends_bind (j := 1) (k := 2) (spends_hodoWrite _ _) fun _ => ?_
  refine spends_bind (j := 0) (k := 2) (spends_idle trivial) fun parent => ?_
  exact spends_bind (j := 2) (k := 0) (spends_addDirent _ _) fun _ => spends_pure 0 n

theorem spends_hodoCreate (cred : Cred) (dir : Nat) (name : List UInt8) (mode : Nat) :
    (hodoCreate cred dir name mode).Spends Idle Taking 4 := by
  refine spends_bind (j := 0) (k := 4) (spends_idle trivial) fun inode => ?_
  refine spends_bind (j := 0) (k := 4) (spends_idle trivial) fun now => ?_
  refine spends_bind (j := 4) (k := 0) (spends_storeNewInode _ _ _ _ _ _) fun n => ?_
  refine spends_bind (j := 0) (k := 0) (spends_idle trivial) fun _ => ?_
  exact spends_bind (j := 0) (k := 0) (spends_idle trivial) fun _ => spends_pure 0 _

end Spending
