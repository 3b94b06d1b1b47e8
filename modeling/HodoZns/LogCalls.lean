import HodoZns.CallRuns
import HodoZns.Collector
import HodoZns.NumberAllocator

/-!
# Calls of the block log

The functions of `trans.c` that the rest of the file system uses to allocate,
write, read, release and collect blocks, as calls of one system whose state is
the volume.
-/

namespace LogCalls

open BitmapWords Layout BlockLog ZoneLog NumberAllocator Collector

inductive LogCall where
  | next
  | write (buf : Option Block) (len n : Nat)
  | read (n : Nat) (outBuf : Option Block) (len : Nat)
  | erase (n : Nat)
  | gc (kmem : Block)

/-- What the caller sees: return value, number and buffer. -/
structure Answer where
  ret : Int
  number : Nat
  buf : Option Block

/-- There is no answer to a read whose load is not from `mapping_table`. A store outside it
shows in `strayStores`. -/
def callStep (G : Geometry) (v : Volume) : LogCall → Option (Answer × Volume)
  | .next =>
    let (n, m) := hodoGetNextLogicalNumber v.info
    some (⟨0, n, none⟩, { v with info := m })
  | .write buf len n =>
    let r := hodoWriteStruct G ioOk v buf len n
    some (⟨r.ret, r.number, r.buf⟩, r.volume)
  | .read n outBuf len =>
    (hodoReadStruct G ioOk v n outBuf len).map fun (ret, buf) => (⟨ret, n, buf⟩, v)
  | .erase n => some (⟨0, n, none⟩, { v with info := hodoEraseTableEntry v.info n })
  | .gc kmem => (GC G kmem v).map fun v' => (⟨0, 0, none⟩, v')

theorem callStep_next (G : Geometry) (v : Volume) :
    callStep G v .next = some (⟨0, (hodoGetNextLogicalNumber v.info).1, none⟩,
      { v with info := (hodoGetNextLogicalNumber v.info).2 }) :=
  rfl

theorem callStep_write (G : Geometry) (v : Volume) (buf : Option Block) (len n : Nat) :
    callStep G v (.write buf len n) =
      some (⟨(hodoWriteStruct G ioOk v buf len n).ret, (hodoWriteStruct G ioOk v buf len n).number,
        (hodoWriteStruct G ioOk v buf len n).buf⟩, (hodoWriteStruct G ioOk v buf len n).volume) :=
  rfl

theorem callStep_read {G : Geometry} {v : Volume} {n : Nat} (h : InTable v.info n)
    (outBuf : Option Block) (len : Nat) :
    callStep G v (.read n outBuf len) =
      some (⟨(readAt G ioOk v (tableEntry v.info n) outBuf len).1, n,
        (readAt G ioOk v (tableEntry v.info n) outBuf len).2⟩, v) := by
  rw [callStep, hodoReadStruct_eq, if_pos h]
  rfl

def FreeNumber (m : MappingInfo) : Prop :=
  ∃ k, k < numberMappingTableEntry ∧ allocated m k = false

theorem freeNumber_iff (m : MappingInfo) : FreeNumber m ↔
    (firstBit m.logicalEntryBitmap false (numberMappingTableEntry / 32)).isSome = true := by
  cases hscan : firstBit m.logicalEntryBitmap false (numberMappingTableEntry / 32) with
  | none =>
    refine iff_of_false ?_ (by simp)
    rintro ⟨k, hk, hfree⟩
    have htaken := firstBit_eq_none hscan (n := k) (by simp at hk ⊢; omega)
    rw [allocated, htaken] at hfree
    cases hfree
  | some ij =>
    obtain ⟨hi, hj, hfree, _⟩ := firstBit_eq_some hscan
    exact iff_of_true ⟨_, by simp at hi ⊢; omega, hfree⟩ rfl

instance (m : MappingInfo) : Decidable (FreeNumber m) :=
  decidable_of_iff _ (freeNumber_iff m).symm

/-- `wp` is in a data zone. -/
def WpInData (v : Volume) : Prop := 1 ≤ v.info.wp.zoneId ∧ v.info.wp.zoneId ≤ 13

instance (v : Volume) : Decidable (WpInData v) :=
  inferInstanceAs (Decidable (1 ≤ v.info.wp.zoneId ∧ v.info.wp.zoneId ≤ 13))

end LogCalls
