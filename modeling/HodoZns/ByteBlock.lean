import Mathlib.Tactic.Common
import Mathlib.Algebra.Order.Ring.Nat

/-!
# Byte blocks of a fixed size

A block of `N` bytes, read and written at natural-number offsets. Reading
outside the block gives 0 and writing outside it does nothing, so offsets need
no proofs; `copyIn` is `memcpy` into a block, `getLE`/`putLE` are the
little-endian integer fields that C structures lay over the bytes.
-/

namespace ByteBlock

abbrev Bytes (N : Nat) := Fin N → UInt8

variable {N : Nat}

def byteAt (b : Bytes N) (i : Nat) : UInt8 :=
  if h : i < N then b ⟨i, h⟩ else 0

/-- The block whose byte at each offset is given by `f`. -/
def ofBytes (f : Nat → UInt8) : Bytes N := fun i => f i.val

def zeros : Bytes N := fun _ => 0

/-- `memcpy(b + lo, f, len)`. -/
def copyIn (b : Bytes N) (lo len : Nat) (f : Nat → UInt8) : Bytes N :=
  ofBytes fun i => if lo ≤ i ∧ i < lo + len then f (i - lo) else byteAt b i

/-- The little-endian unsigned integer in `k` bytes from `off` on. -/
def getLE (b : Bytes N) (off : Nat) : Nat → Nat
  | 0 => 0
  | k + 1 => (byteAt b off).toNat + 256 * getLE b (off + 1) k

def putLE (b : Bytes N) (off k v : Nat) : Bytes N :=
  copyIn b off k fun i => UInt8.ofNat (v / 256 ^ i)

theorem byteAt_ofBytes (f : Nat → UInt8) (i : Nat) :
    byteAt (ofBytes f : Bytes N) i = if i < N then f i else 0 := by
  simp only [byteAt, ofBytes]
  split <;> rfl

theorem byteAt_of_lt (b : Bytes N) {i : Nat} (h : i < N) : byteAt b i = b ⟨i, h⟩ := by
  simp only [byteAt, dif_pos h]

theorem byteAt_of_le (b : Bytes N) {i : Nat} (h : N ≤ i) : byteAt b i = 0 := by
  simp only [byteAt, dif_neg (Nat.not_lt.mpr h)]

@[simp] theorem byteAt_zeros (i : Nat) : byteAt (zeros : Bytes N) i = 0 := by
  simp [byteAt, zeros]

theorem ext_byteAt {a b : Bytes N} (h : ∀ i, i < N → byteAt a i = byteAt b i) : a = b := by
  funext i
  have hi := h i.val i.isLt
  rwa [byteAt_of_lt a i.isLt, byteAt_of_lt b i.isLt] at hi

theorem byteAt_copyIn (b : Bytes N) (lo len : Nat) (f : Nat → UInt8) (i : Nat) :
    byteAt (copyIn b lo len f) i =
      if i < N ∧ lo ≤ i ∧ i < lo + len then f (i - lo) else byteAt b i := by
  rw [copyIn, byteAt_ofBytes]
  by_cases hN : i < N
  · simp only [hN, if_true, true_and]
  · rw [if_neg hN, if_neg (fun h => hN h.1), byteAt_of_le b (Nat.not_lt.mp hN)]

theorem byteAt_copyIn_inside (b : Bytes N) {lo len : Nat} (f : Nat → UInt8) {i : Nat}
    (hN : i < N) (hlo : lo ≤ i) (hhi : i < lo + len) :
    byteAt (copyIn b lo len f) i = f (i - lo) := by
  rw [byteAt_copyIn, if_pos ⟨hN, hlo, hhi⟩]

theorem byteAt_copyIn_outside (b : Bytes N) {lo len : Nat} (f : Nat → UInt8) {i : Nat}
    (h : i < lo ∨ lo + len ≤ i) : byteAt (copyIn b lo len f) i = byteAt b i := by
  rw [byteAt_copyIn, if_neg (by omega)]

theorem getLE_lt (b : Bytes N) (off k : Nat) : getLE b off k < 256 ^ k := by
  induction k generalizing off with
  | zero => simp [getLE]
  | succ k ih =>
    have hb : (byteAt b off).toNat < 256 := UInt8.toNat_lt _
    have ht := ih (off + 1)
    rw [getLE, Nat.pow_succ]
    omega

/-- An integer field depends only on its own bytes. -/
theorem getLE_congr {a b : Bytes N} {off k : Nat}
    (h : ∀ i, off ≤ i → i < off + k → byteAt a i = byteAt b i) :
    getLE a off k = getLE b off k := by
  induction k generalizing off with
  | zero => rfl
  | succ k ih =>
    rw [getLE, getLE, h off (Nat.le_refl _) (by omega),
      ih fun i h1 h2 => h i (by omega) (by omega)]

@[simp] theorem getLE_zeros (off k : Nat) : getLE (zeros : Bytes N) off k = 0 := by
  induction k generalizing off with
  | zero => rfl
  | succ k ih => simp [getLE, ih]

theorem getLE_copyIn_outside (b : Bytes N) {lo len off k : Nat} (f : Nat → UInt8)
    (h : off + k ≤ lo ∨ lo + len ≤ off) : getLE (copyIn b lo len f) off k = getLE b off k :=
  getLE_congr fun i h1 h2 => byteAt_copyIn_outside b f (by omega)

theorem byteAt_putLE_outside (b : Bytes N) {off k : Nat} (v : Nat) {i : Nat}
    (h : i < off ∨ off + k ≤ i) : byteAt (putLE b off k v) i = byteAt b i :=
  byteAt_copyIn_outside b _ h

theorem getLE_putLE_outside (b : Bytes N) {off k off' k' : Nat} (v : Nat)
    (h : off' + k' ≤ off ∨ off + k ≤ off') : getLE (putLE b off k v) off' k' = getLE b off' k' :=
  getLE_copyIn_outside b _ h

/-- A little-endian run of bytes spelled out from a number reads back as that
number, up to the width of the field. -/
theorem getLE_of_digits {b : Bytes N} {off k v : Nat}
    (h : ∀ i, i < k → byteAt b (off + i) = UInt8.ofNat (v / 256 ^ i)) :
    getLE b off k = v % 256 ^ k := by
  induction k generalizing off v with
  | zero => simp [getLE, Nat.mod_one]
  | succ k ih =>
    have h0 : byteAt b off = UInt8.ofNat v := by simpa using h 0 (by omega)
    have hrest : getLE b (off + 1) k = v / 256 % 256 ^ k := by
      apply ih
      intro i hi
      have := h (i + 1) (by omega)
      rwa [Nat.pow_succ', ← Nat.div_div_eq_div_mul, show off + (i + 1) = off + 1 + i by omega]
        at this
    have hsplit : v % 256 ^ (k + 1) = v % 256 + 256 * (v / 256 % 256 ^ k) := by
      rw [Nat.pow_succ', Nat.mod_mul]
    rw [getLE, h0, hrest, hsplit, UInt8.toNat_ofNat']

theorem getLE_putLE (b : Bytes N) {off k : Nat} (v : Nat) (h : off + k ≤ N) :
    getLE (putLE b off k v) off k = v % 256 ^ k := by
  apply getLE_of_digits
  intro i hi
  rw [putLE, byteAt_copyIn_inside b _ (by omega) (by omega) (by omega)]
  simp

theorem digit_getLE (b : Bytes N) {off k i : Nat} (h : i < k) :
    UInt8.ofNat (getLE b off k / 256 ^ i) = byteAt b (off + i) := by
  induction i generalizing off k with
  | zero =>
    obtain ⟨k, rfl⟩ : ∃ k', k = k' + 1 := ⟨k - 1, by omega⟩
    apply UInt8.toNat_inj.mp
    have hlt : (byteAt b off).toNat < 256 := UInt8.toNat_lt _
    simp only [getLE, pow_zero, Nat.div_one, UInt8.toNat_ofNat', Nat.add_zero]
    omega
  | succ i ih =>
    obtain ⟨k, rfl⟩ : ∃ k', k = k' + 1 := ⟨k - 1, by omega⟩
    have hlt : (byteAt b off).toNat < 256 := UInt8.toNat_lt _
    have hdiv : getLE b off (k + 1) / 256 = getLE b (off + 1) k := by
      rw [getLE]
      omega
    rw [Nat.pow_succ', ← Nat.div_div_eq_div_mul, hdiv, ih (by omega)]
    congr 1
    omega

/-- Writing a field back changes nothing. -/
theorem putLE_getLE (b : Bytes N) (off k : Nat) : putLE b off k (getLE b off k) = b := by
  apply ext_byteAt
  intro i hi
  by_cases hin : off ≤ i ∧ i < off + k
  · rw [putLE, byteAt_copyIn_inside b _ hi hin.1 hin.2, digit_getLE b (by omega)]
    congr 1
    omega
  · exact byteAt_putLE_outside b _ (by omega)

end ByteBlock
