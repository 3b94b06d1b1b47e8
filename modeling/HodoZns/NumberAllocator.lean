import HodoZns.ZoneLog

/-!
# Logical numbers: allocation and release

`hodo_get_next_logical_number` hands out `starting_logical_number + k` for the
first clear bit `k`; `hodo_erase_table_entry` clears the bit whose index is the
number itself. The two agree on no number as soon as the starting number is not
zero, and the last section says what a run may still rely on.
-/

namespace NumberAllocator

open BitmapWords Layout BlockLog ZoneLog

/-- Bit `k` of `logical_entry_bitmap`: number `starting_logical_number + k` is taken. -/
def allocated (m : MappingInfo) (k : Nat) : Bool := bit m.logicalEntryBitmap k

/-- Everything a call of the allocator can do. -/
theorem getNext_cases (m : MappingInfo) :
    (∃ k, k < numberMappingTableEntry ∧ allocated m k = false ∧
      (∀ j, j < k → allocated m j = true) ∧
      hodoGetNextLogicalNumber m = ((m.startingLogicalNumber + k) % 2 ^ 32,
        hodoSetLogicalBitmap m (k / 32) (k % 32))) ∨
    ((∀ k, k < numberMappingTableEntry → allocated m k = true) ∧
      hodoGetNextLogicalNumber m = (2 ^ 32 - 1, m)) := by
  cases hscan : firstBit m.logicalEntryBitmap false (numberMappingTableEntry / 32) with
  | none =>
    refine Or.inr ⟨fun k hk => ?_, by
      simp only [hodoGetNextLogicalNumber, hscan]⟩
    exact firstBit_eq_none hscan (by simp at hk ⊢; omega)
  | some ij =>
    obtain ⟨i, j⟩ := ij
    obtain ⟨hi, hj, hbit, hbefore⟩ := firstBit_eq_some hscan
    refine Or.inl ⟨i * 32 + j, by simp at hi ⊢; omega, hbit, hbefore, ?_⟩
    have h1 : (i * 32 + j) / 32 = i := by omega
    have h2 : (i * 32 + j) % 32 = j := by omega
    simp only [hodoGetNextLogicalNumber, hscan, h1, h2]

theorem allocated_setLogicalBitmap (m : MappingInfo) (k n : Nat) :
    allocated (hodoSetLogicalBitmap m (k / 32) (k % 32)) n = (decide (n = k) || allocated m n) := by
  have hk : k % 32 < 32 := Nat.mod_lt _ (by omega)
  rw [allocated, hodoSetLogicalBitmap, bit_setBit _ hk, Nat.div_add_mod' k 32, allocated]

/-- Releasing number `n` can only change the bit with index `n`. -/
theorem allocated_eraseTableEntry (m : MappingInfo) {n k : Nat} (hk : k ≠ n % 2 ^ 32) :
    allocated (hodoEraseTableEntry m n) k = allocated m k := by
  simp only [hodoEraseTableEntry, hodoUnsetLogicalBitmap]
  split
  case isFalse => rfl
  case isTrue h =>
    have hneg : 0 ≤ toInt32 n := by
      by_contra hlt
      have h1 := h.1
      have h2 := h.2
      have hsum := Int.tdiv_mul_add_tmod (toInt32 n) 32
      omega
    have hval : toInt32 n = ((n % 2 ^ 32 : Nat) : Int) := by
      simp only [toInt32] at hneg ⊢
      split <;> omega
    have hdiv : ((toInt32 n).tdiv 32).toNat = n % 2 ^ 32 / 32 := by rw [hval]; rfl
    have hmod : ((toInt32 n).tmod 32).toNat = n % 2 ^ 32 % 32 := by rw [hval]; rfl
    have hlt : n % 2 ^ 32 % 32 < 32 := Nat.mod_lt _ (by omega)
    simp only [allocated, hdiv, hmod, bit_clearBit _ hlt, Nat.div_add_mod' (n % 2 ^ 32) 32, hk,
      decide_false, Bool.not_false, Bool.true_and]
    rfl

inductive Call where
  | getNext
  | erase (n : Nat)

/-- The value of a call that found no free number. -/
def noNumber : Nat := 2 ^ 32 - 1

/-- Every erased number was handed out in the run and not erased since. -/
def Lawful (m : MappingInfo) (inUse : List Nat) : List Call → Prop
  | [] => True
  | .getNext :: cs =>
    let r := hodoGetNextLogicalNumber m
    Lawful r.2 (if r.1 = noNumber then inUse else r.1 :: inUse) cs
  | .erase n :: cs => n ∈ inUse ∧ Lawful (hodoEraseTableEntry m n) (inUse.erase n) cs

instance Lawful.decidable : (m : MappingInfo) → (inUse : List Nat) → (cs : List Call) →
    Decidable (Lawful m inUse cs)
  | _, _, [] => isTrue trivial
  | m, _, .getNext :: cs => Lawful.decidable (hodoGetNextLogicalNumber m).2 _ cs
  | m, inUse, .erase n :: cs =>
    have := Lawful.decidable (hodoEraseTableEntry m n) (inUse.erase n) cs
    inferInstanceAs (Decidable (n ∈ inUse ∧ Lawful (hodoEraseTableEntry m n) (inUse.erase n) cs))

/-- The state after `i` more calls of the allocator. -/
def afterGetNext (m : MappingInfo) : Nat → MappingInfo
  | 0 => m
  | i + 1 => (hodoGetNextLogicalNumber (afterGetNext m i)).2

/-- From `m` on the allocator returns numbers smaller than `n` and then `n`. -/
def Reuses (m : MappingInfo) (n : Nat) : Prop :=
  ∃ i, (hodoGetNextLogicalNumber (afterGetNext m i)).1 = n ∧
    ∀ j, j < i → tableIndex m (hodoGetNextLogicalNumber (afterGetNext m j)).1 < tableIndex m n

/-- No number in use is handed out; an erase changes the bit of its number, no
other bit, and brings the number back in its turn. -/
def Exact (m : MappingInfo) (inUse : List Nat) : List Call → Prop
  | [] => True
  | .getNext :: cs =>
    let r := hodoGetNextLogicalNumber m
    (r.1 ≠ noNumber → r.1 ∉ inUse) ∧
      Exact r.2 (if r.1 = noNumber then inUse else r.1 :: inUse) cs
  | .erase n :: cs =>
    let m' := hodoEraseTableEntry m n
    (∀ k, k < numberMappingTableEntry → (allocated m' k ≠ allocated m k ↔ k = tableIndex m n)) ∧
      Reuses m' n ∧ Exact m' (inUse.erase n) cs

/-- Numbers in use are numbers of the table. -/
def FromTable (m : MappingInfo) (inUse : List Nat) : Prop :=
  ∀ n ∈ inUse, ∃ k, k < numberMappingTableEntry ∧ n = (m.startingLogicalNumber + k) % 2 ^ 32

/-- Numbers in use have their bits set; this part does not survive an erase. -/
def Marked (m : MappingInfo) (inUse : List Nat) : Prop :=
  ∀ n ∈ inUse, ∃ k, k < numberMappingTableEntry ∧
    n = (m.startingLogicalNumber + k) % 2 ^ 32 ∧ allocated m k = true

@[simp] theorem getNext_starting (m : MappingInfo) :
    (hodoGetNextLogicalNumber m).2.startingLogicalNumber = m.startingLogicalNumber := by
  simp only [hodoGetNextLogicalNumber]
  split <;> rfl

@[simp] theorem erase_starting (m : MappingInfo) (n : Nat) :
    (hodoEraseTableEntry m n).startingLogicalNumber = m.startingLogicalNumber := by
  simp only [hodoEraseTableEntry, hodoUnsetLogicalBitmap, setTableEntry]
  split <;> rfl

@[simp] theorem getNext_wp (m : MappingInfo) : (hodoGetNextLogicalNumber m).2.wp = m.wp := by
  simp only [hodoGetNextLogicalNumber]
  split <;> rfl

theorem getNext_mappingTable (m : MappingInfo) :
    (hodoGetNextLogicalNumber m).2.mappingTable = m.mappingTable := by
  simp only [hodoGetNextLogicalNumber]
  split <;> rfl

theorem getNext_strayStores (m : MappingInfo) :
    (hodoGetNextLogicalNumber m).2.strayStores = m.strayStores := by
  simp only [hodoGetNextLogicalNumber]
  split <;> rfl

@[simp] theorem getNext_gcBitmap (m : MappingInfo) :
    (hodoGetNextLogicalNumber m).2.gcBitmap = m.gcBitmap := by
  simp only [hodoGetNextLogicalNumber]
  split <;> rfl

@[simp] theorem erase_wp (m : MappingInfo) (n : Nat) : (hodoEraseTableEntry m n).wp = m.wp := by
  simp only [hodoEraseTableEntry, hodoUnsetLogicalBitmap, setTableEntry]
  split <;> rfl

theorem tableIndex_number (m : MappingInfo) {k : Nat} (hk : k < numberMappingTableEntry) :
    tableIndex m ((m.startingLogicalNumber + k) % 2 ^ 32) = k := by
  simp only [tableIndex]
  simp at hk
  omega

theorem getNext_fromTable {m : MappingInfo} {inUse : List Nat} (h : FromTable m inUse) :
    FromTable (hodoGetNextLogicalNumber m).2
      (if (hodoGetNextLogicalNumber m).1 = noNumber then inUse
        else (hodoGetNextLogicalNumber m).1 :: inUse) := by
  intro n hn
  rw [getNext_starting]
  rcases getNext_cases m with ⟨k, hk, _, _, heq⟩ | ⟨_, heq⟩
  · split at hn
    · exact h n hn
    · rcases List.mem_cons.mp hn with rfl | hn
      · exact ⟨k, hk, by rw [heq]⟩
      · exact h n hn
  · have hfull : (hodoGetNextLogicalNumber m).1 = noNumber := by rw [heq]; rfl
    rw [if_pos hfull] at hn
    exact h n hn

theorem getNext_marked {m : MappingInfo} {inUse : List Nat} (h : Marked m inUse) :
    ((hodoGetNextLogicalNumber m).1 ≠ noNumber → (hodoGetNextLogicalNumber m).1 ∉ inUse) ∧
    Marked (hodoGetNextLogicalNumber m).2
      (if (hodoGetNextLogicalNumber m).1 = noNumber then inUse
        else (hodoGetNextLogicalNumber m).1 :: inUse) := by
  rcases getNext_cases m with ⟨k, hk, hclear, _, heq⟩ | ⟨_, heq⟩
  · have kept : Marked (hodoSetLogicalBitmap m (k / 32) (k % 32)) inUse := by
      intro n hn
      obtain ⟨k', hk', hnk, hset⟩ := h n hn
      exact ⟨k', hk', hnk, by rw [allocated_setLogicalBitmap, hset, Bool.or_true]⟩
    rw [heq]
    refine ⟨fun _ hmem => ?_, ?_⟩
    · obtain ⟨k', hk', hnk, hset⟩ := h _ hmem
      have hidx := congrArg (tableIndex m) hnk
      rw [tableIndex_number m hk, tableIndex_number m hk'] at hidx
      rw [hidx, hset] at hclear
      cases hclear
    · split
      · exact kept
      · intro n hn
        rcases List.mem_cons.mp hn with rfl | hn
        · exact ⟨k, hk, rfl, by rw [allocated_setLogicalBitmap]; simp⟩
        · exact kept n hn
  · have hfull : (hodoGetNextLogicalNumber m).1 = noNumber := by rw [heq]; rfl
    refine ⟨fun hne => absurd hfull hne, ?_⟩
    rw [if_pos hfull, heq]
    exact h

/-- The bit of an erased number keeps its value: a different bit is cleared. -/
theorem erase_misses_own_bit {m : MappingInfo} (hs : m.startingLogicalNumber % 2 ^ 32 ≠ 0)
    {n k : Nat} (hn : n = (m.startingLogicalNumber + k) % 2 ^ 32) :
    allocated (hodoEraseTableEntry m n) k = allocated m k := by
  apply allocated_eraseTableEntry
  omega

theorem exact_of_no_erase {m : MappingInfo} {inUse : List Nat} (marked : Marked m inUse)
    {cs : List Call} (hcs : ∀ c ∈ cs, c = .getNext) : Exact m inUse cs := by
  induction cs generalizing m inUse with
  | nil => trivial
  | cons c cs ih =>
    obtain rfl := hcs c List.mem_cons_self
    obtain ⟨hfresh, hmarked⟩ := getNext_marked marked
    exact ⟨hfresh, ih hmarked fun c hc => hcs c (List.mem_cons_of_mem _ hc)⟩

theorem no_erase_of_exact {m : MappingInfo} {inUse : List Nat}
    (hs : m.startingLogicalNumber % 2 ^ 32 ≠ 0) (numbers : FromTable m inUse) {cs : List Call}
    (lawful : Lawful m inUse cs) (exact : Exact m inUse cs) : ∀ c ∈ cs, c = .getNext := by
  induction cs generalizing m inUse with
  | nil => simp
  | cons c cs ih =>
    cases c with
    | getNext =>
      intro c hc
      rcases List.mem_cons.mp hc with rfl | hc
      · rfl
      · exact ih (by rwa [getNext_starting]) (getNext_fromTable numbers) lawful exact.2 c hc
    | erase n =>
      exfalso
      obtain ⟨k, hk, hn⟩ := numbers n lawful.1
      have hchanged := (exact.1 k hk).mpr (by rw [hn, tableIndex_number m hk])
      exact hchanged (erase_misses_own_bit hs hn)

/-- `mapping_info` before the first allocation, for a given starting number. -/
def freshInfo (start : UInt32) : MappingInfo :=
  { zeroMappingInfo with startingLogicalNumber := start.toNat }

/-- The allocator keeps its promises on exactly the runs that release nothing. -/
theorem exact_iff_no_erase (start : UInt32) (hpos : 0 < start) (cs : List Call)
    (lawful : Lawful (freshInfo start) [] cs) :
    Exact (freshInfo start) [] cs ↔ ∀ c ∈ cs, c = .getNext := by
  have hs : (freshInfo start).startingLogicalNumber % 2 ^ 32 ≠ 0 := by
    have h1 : start.toNat < 2 ^ 32 := start.toNat_lt
    have h2 : 0 < start.toNat := UInt32.lt_iff_toNat_lt.mp hpos
    simp only [freshInfo]
    omega
  constructor
  · exact no_erase_of_exact hs (by intro n hn; cases hn) lawful
  · exact exact_of_no_erase (by intro n hn; cases hn)

/-- Two allocations on a device of 16 zones. -/
theorem exact_two_allocations : Exact (freshInfo 16) [] [.getNext, .getNext] :=
  (exact_iff_no_erase 16 (by decide) [.getNext, .getNext] (by decide +kernel)).mpr (by simp)

/-- Numbers 16 to 32 are taken and 16 is given back. -/
def releaseRun : List Call := List.replicate 17 .getNext ++ [.erase 16, .getNext]

theorem releaseRun_not_exact :
    Lawful (freshInfo 16) [] releaseRun ∧ ¬ Exact (freshInfo 16) [] releaseRun := by
  have lawful : Lawful (freshInfo 16) [] releaseRun := by decide +kernel
  refine ⟨lawful, fun exact => ?_⟩
  have herase := no_erase_of_exact (by decide) (by intro n hn; cases hn) lawful exact (.erase 16)
    (by simp [releaseRun])
  cases herase

/-- The last call of that run returns 32, which is still in use; 16 stays taken. -/
example : (hodoGetNextLogicalNumber
    (hodoEraseTableEntry (afterGetNext (freshInfo 16) 17) 16)).1 = 32 := by decide +kernel

end NumberAllocator
