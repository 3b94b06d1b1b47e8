import Mathlib.Tactic.Common
import Mathlib.Data.BitVec

/-!
# Bitmaps kept in 32-bit words

Bit `j` of a word is counted from the top, as `1 << (31 - j)`, and bit `n` of a
bitmap is bit `n % 32` of word `n / 32`. `firstBit` is the usual two-level scan:
it passes over a word in which no bit can match and looks through the others
bit by bit.
-/

namespace BitmapWords

abbrev Word := BitVec 32

def mask (j : Nat) : Word := 1#32 <<< (31 - j)

def setBit (w : Word) (j : Nat) : Word := w ||| mask j

def clearBit (w : Word) (j : Nat) : Word := w &&& ~~~mask j

def testBit (w : Word) (j : Nat) : Bool := (w &&& mask j) != 0#32

theorem getLsbD_mask (j k : Nat) (hk : k < 32) :
    (mask j).getLsbD k = decide (k = 31 - j) := by
  simp only [mask, BitVec.getLsbD_shiftLeft, BitVec.getLsbD_one]
  by_cases h : k = 31 - j
  · subst h
    simp [hk]
  · rcases Nat.lt_or_ge k (31 - j) with hlt | hge
    · simp [h, hlt]
    · have : k - (31 - j) ≠ 0 := by omega
      simp [h, this]

theorem testBit_eq_getLsbD (w : Word) (j : Nat) : testBit w j = w.getLsbD (31 - j) := by
  have hlt : 31 - j < 32 := by omega
  cases hw : w.getLsbD (31 - j) with
  | true =>
    simp only [testBit, bne_iff_ne]
    intro hzero
    have hbit := congrArg (fun x : Word => x.getLsbD (31 - j)) hzero
    simp [getLsbD_mask j _ hlt, hw] at hbit
  | false =>
    have hzero : w &&& mask j = 0#32 := by
      apply BitVec.eq_of_getLsbD_eq
      intro k hk
      rw [BitVec.getLsbD_and, getLsbD_mask j k hk]
      by_cases h : k = 31 - j
      · subst h
        simp [hw]
      · simp [h]
    simp [testBit, hzero]

theorem testBit_setBit (w : Word) {j k : Nat} (hj : j < 32) (hk : k < 32) :
    testBit (setBit w j) k = (decide (k = j) || testBit w k) := by
  have hlt : 31 - k < 32 := by omega
  simp only [testBit_eq_getLsbD, setBit, BitVec.getLsbD_or, getLsbD_mask j _ hlt]
  have : (31 - k = 31 - j) ↔ k = j := by omega
  simp only [this, Bool.or_comm]

theorem testBit_clearBit (w : Word) {j k : Nat} (hj : j < 32) (hk : k < 32) :
    testBit (clearBit w j) k = (!decide (k = j) && testBit w k) := by
  have hlt : 31 - k < 32 := by omega
  simp only [testBit_eq_getLsbD, clearBit, BitVec.getLsbD_and, BitVec.getLsbD_not,
    getLsbD_mask j _ hlt, hlt, decide_true, Bool.true_and]
  have : (31 - k = 31 - j) ↔ k = j := by omega
  simp only [this, Bool.and_comm]

theorem clearBit_of_clear {w : Word} {j : Nat} (hj : j < 32) (h : testBit w j = false) :
    clearBit w j = w := by
  apply BitVec.eq_of_getLsbD_eq
  intro k hk
  have hbit := testBit_clearBit w hj (k := 31 - k) (by omega)
  simp only [testBit_eq_getLsbD, show 31 - (31 - k) = k by omega] at hbit
  rw [hbit]
  by_cases hkj : 31 - k = j
  · rw [testBit_eq_getLsbD, ← hkj, show 31 - (31 - k) = k by omega] at h
    simp [hkj, h]
  · simp [hkj]

/-- The word in which every bit is `v`. -/
def full (v : Bool) : Word := if v then 0xFFFFFFFF#32 else 0#32

theorem testBit_full (v : Bool) (j : Nat) : testBit (full v) j = v := by
  have hlt : 31 - j < 32 := by omega
  rw [testBit_eq_getLsbD]
  cases v with
  | false => simp [full]
  | true =>
    have hones : (0xFFFFFFFF#32 : Word) = BitVec.allOnes 32 := by decide
    simp only [full, if_true, hones, BitVec.getLsbD_allOnes, hlt, decide_true]

theorem exists_bit_of_ne_full {w : Word} {v : Bool} (h : w ≠ full !v) :
    ∃ j, j < 32 ∧ testBit w j = v := by
  by_contra hno
  apply h
  apply BitVec.eq_of_getLsbD_eq
  intro k hk
  have hback : 31 - (31 - k) = k := by omega
  have hbit : testBit w (31 - k) = !v := by
    by_contra hne
    exact hno ⟨31 - k, by omega, by simpa using hne⟩
  have hfull := testBit_full (!v) (31 - k)
  rw [testBit_eq_getLsbD, hback] at hbit hfull
  rw [hbit, hfull]

/-- The first answer of `p` at the indices `i, i + 1, …`, at most `count` of them. -/
def firstFrom {α : Type*} (p : Nat → Option α) : (count i : Nat) → Option α
  | 0, _ => none
  | count + 1, i =>
    match p i with
    | some a => some a
    | none => firstFrom p count (i + 1)

theorem firstFrom_eq_none {α : Type*} {p : Nat → Option α} {count i : Nat}
    (h : firstFrom p count i = none) {j : Nat} (hi : i ≤ j) (hj : j < i + count) :
    p j = none := by
  induction count generalizing i with
  | zero => omega
  | succ count ih =>
    rw [firstFrom] at h
    cases hp : p i with
    | some a => simp [hp] at h
    | none =>
      by_cases hji : j = i
      · rw [hji, hp]
      · exact ih (by simpa [hp] using h) (by omega) (by omega)

theorem firstFrom_eq_some {α : Type*} {p : Nat → Option α} {count i : Nat} {a : α}
    (h : firstFrom p count i = some a) :
    ∃ j, i ≤ j ∧ j < i + count ∧ p j = some a ∧ ∀ j', i ≤ j' → j' < j → p j' = none := by
  induction count generalizing i with
  | zero => simp [firstFrom] at h
  | succ count ih =>
    rw [firstFrom] at h
    cases hp : p i with
    | some b =>
      have hb : b = a := by simpa [hp] using h
      exact ⟨i, by omega, by omega, hb ▸ hp, by omega⟩
    | none =>
      obtain ⟨j, hij, hj, hpj, hmin⟩ := ih (by simpa [hp] using h)
      refine ⟨j, by omega, by omega, hpj, fun j' h1 h2 => ?_⟩
      by_cases hji : j' = i
      · rw [hji, hp]
      · exact hmin j' (by omega) h2

/-- Bit `n` of a bitmap. -/
def bit (bm : Nat → Word) (n : Nat) : Bool := testBit (bm (n / 32)) (n % 32)

def modifyWord (bm : Nat → Word) (i : Nat) (f : Word → Word) : Nat → Word :=
  fun i' => if i' = i then f (bm i) else bm i'

theorem bit_index {i j : Nat} (bm : Nat → Word) (hj : j < 32) :
    bit bm (i * 32 + j) = testBit (bm i) j := by
  have h1 : (i * 32 + j) / 32 = i := by omega
  have h2 : (i * 32 + j) % 32 = j := by omega
  rw [bit, h1, h2]

theorem bit_setBit (bm : Nat → Word) {i j : Nat} (hj : j < 32) (n : Nat) :
    bit (modifyWord bm i fun w => setBit w j) n = (decide (n = i * 32 + j) || bit bm n) := by
  have hn : n % 32 < 32 := Nat.mod_lt _ (by omega)
  simp only [bit, modifyWord]
  by_cases hi : n / 32 = i
  · have : (n % 32 = j) ↔ n = i * 32 + j := by omega
    rw [if_pos hi, testBit_setBit _ hj hn, hi]
    simp only [this]
  · have : n ≠ i * 32 + j := by omega
    simp [if_neg hi, this]

theorem bit_clearBit (bm : Nat → Word) {i j : Nat} (hj : j < 32) (n : Nat) :
    bit (modifyWord bm i fun w => clearBit w j) n = (!decide (n = i * 32 + j) && bit bm n) := by
  have hn : n % 32 < 32 := Nat.mod_lt _ (by omega)
  simp only [bit, modifyWord]
  by_cases hi : n / 32 = i
  · have : (n % 32 = j) ↔ n = i * 32 + j := by omega
    rw [if_pos hi, testBit_clearBit _ hj hn, hi]
    simp only [this]
  · have : n ≠ i * 32 + j := by omega
    simp [if_neg hi, this]

/-- A bitmap is its bits. -/
theorem ext_bit {bm bm' : Nat → Word} (h : ∀ n, bit bm n = bit bm' n) : bm = bm' := by
  funext i
  apply BitVec.eq_of_getLsbD_eq
  intro k hk
  have hbit := h (i * 32 + (31 - k))
  rw [bit_index bm (by omega), bit_index bm' (by omega), testBit_eq_getLsbD,
    testBit_eq_getLsbD] at hbit
  rwa [show 31 - (31 - k) = k by omega] at hbit

/-- Clearing a bit that is clear changes nothing. -/
theorem modifyWord_clearBit {bm : Nat → Word} {n : Nat} (h : bit bm n = false) :
    (modifyWord bm (n / 32) fun w => clearBit w (n % 32)) = bm := by
  funext i
  simp only [modifyWord]
  split
  case isTrue hi =>
    rw [clearBit_of_clear (Nat.mod_lt _ (by omega)) h, hi]
  case isFalse => rfl

/-- The word and bit of the first bit equal to `v` among the first `words` words. -/
def firstBit (bm : Nat → Word) (v : Bool) (words : Nat) : Option (Nat × Nat) :=
  firstFrom (fun i =>
    if bm i ≠ full !v then
      firstFrom (fun j => if testBit (bm i) j = v then some (i, j) else none) 32 0
    else none) words 0

theorem firstBit_eq_some {bm : Nat → Word} {v : Bool} {words i j : Nat}
    (h : firstBit bm v words = some (i, j)) :
    i < words ∧ j < 32 ∧ bit bm (i * 32 + j) = v ∧ ∀ n, n < i * 32 + j → bit bm n = !v := by
  obtain ⟨i', _, hi', hword, hbefore⟩ := firstFrom_eq_some h
  split at hword
  case isFalse => cases hword
  obtain ⟨j', _, hj', hbit, hfirst⟩ := firstFrom_eq_some hword
  split at hbit
  case isFalse => cases hbit
  case isTrue hv =>
  obtain ⟨rfl, rfl⟩ : i' = i ∧ j' = j := by simpa using hbit
  refine ⟨by omega, by omega, by rw [bit_index bm (by omega), hv], fun n hn => ?_⟩
  rcases Nat.lt_or_ge (n / 32) i' with hlt | hge
  · have hnone := hbefore (n / 32) (by omega) hlt
    have hfull : bm (n / 32) = full !v := by
      by_contra hne
      obtain ⟨k, hk, hkv⟩ := exists_bit_of_ne_full hne
      rw [if_pos hne] at hnone
      simpa [hkv] using firstFrom_eq_none hnone (Nat.zero_le k) (by omega)
    rw [bit, hfull, testBit_full]
  · have hi : n / 32 = i' := by omega
    have hnone := hfirst (n % 32) (by omega) (by omega)
    have hne : testBit (bm i') (n % 32) ≠ v := by
      intro hv'
      simp [hv'] at hnone
    rw [bit, hi]
    exact Bool.eq_not.mpr hne

theorem firstBit_eq_none {bm : Nat → Word} {v : Bool} {words : Nat}
    (h : firstBit bm v words = none) {n : Nat} (hn : n < words * 32) : bit bm n = !v := by
  have hmod : n % 32 < 32 := Nat.mod_lt _ (by omega)
  have hnone := firstFrom_eq_none h (Nat.zero_le (n / 32)) (by omega)
  split at hnone
  case isTrue hne =>
    have hbit := firstFrom_eq_none hnone (Nat.zero_le (n % 32)) (by omega)
    rw [bit]
    by_contra hv
    have : testBit (bm (n / 32)) (n % 32) = v := by simpa using hv
    simp [this] at hbit
  case isFalse heq =>
    have hfull : bm (n / 32) = full !v := not_not.mp heq
    rw [bit, hfull, testBit_full]

end BitmapWords
