import Mathlib.Algebra.BigOperators.Group.Finset.Basic
import Mathlib.Algebra.BigOperators.Ring.Finset
import Mathlib.Tactic.Abel

/-!
# Families with a shared part

A system has members and a part that all of them share; a step works on the shared
part and on one member. A count in the shared part stays the total of a measure of
the members when each step changes both by the same amount.
-/

namespace Families

universe u v w x

structure Family (ι : Type u) (γ : Type v) (μ : Type w) where
  shared : γ
  member : ι → μ

variable {ι : Type u} {γ : Type v} {μ : Type w} {M : Type x} [DecidableEq ι] [AddCommGroup M]

/-- The family with a new shared part and a new member `i`. -/
def Family.set (s : Family ι γ μ) (i : ι) (y : γ × μ) : Family ι γ μ where
  shared := y.1
  member := Function.update s.member i y.2

@[simp] theorem Family.set_shared (s : Family ι γ μ) (i : ι) (y : γ × μ) :
    (s.set i y).shared = y.1 := rfl

@[simp] theorem Family.set_member_same (s : Family ι γ μ) (i : ι) (y : γ × μ) :
    (s.set i y).member i = y.2 := by
  simp [Family.set]

@[simp] theorem Family.set_member_other (s : Family ι γ μ) {i j : ι} (y : γ × μ) (h : j ≠ i) :
    (s.set i y).member j = s.member j := by
  simp [Family.set, h]

theorem Family.set_set (s : Family ι γ μ) (i : ι) (y y' : γ × μ) :
    (s.set i y).set i y' = s.set i y' := by
  simp [Family.set]

theorem Family.set_self (s : Family ι γ μ) (i : ι) : s.set i (s.shared, s.member i) = s := by
  simp [Family.set]

def Family.total [Fintype ι] (measure : μ → M) (s : Family ι γ μ) : M :=
  ∑ i, measure (s.member i)

theorem Family.total_set [Fintype ι] (measure : μ → M) (s : Family ι γ μ) (i : ι) (y : γ × μ) :
    (s.set i y).total measure = s.total measure - measure (s.member i) + measure y.2 := by
  have hnew := Finset.add_sum_erase Finset.univ (fun j => measure ((s.set i y).member j))
    (Finset.mem_univ i)
  have hold := Finset.add_sum_erase Finset.univ (fun j => measure (s.member j))
    (Finset.mem_univ i)
  have hrest : ∑ j ∈ Finset.univ.erase i, measure ((s.set i y).member j) =
      ∑ j ∈ Finset.univ.erase i, measure (s.member j) := by
    apply Finset.sum_congr rfl
    intro j hj
    rw [Family.set_member_other s y (Finset.ne_of_mem_erase hj)]
  rw [hrest, Family.set_member_same] at hnew
  rw [Family.total, Family.total, ← hnew, ← hold]
  abel

/-- The change from `x` to `y` keeps what the count is ahead of the measure. -/
def Balanced (count : γ → M) (measure : μ → M) (x y : γ × μ) : Prop :=
  count y.1 - measure y.2 = count x.1 - measure x.2

variable {count : γ → M} {measure : μ → M} {x y z : γ × μ}

/-- The count is the total of the measure, and `extra` more. -/
def Family.Counted [Fintype ι] (count : γ → M) (measure : μ → M) (extra : M) (s : Family ι γ μ) :
    Prop :=
  count s.shared = s.total measure + extra

/-- What a step adds to the count alone is put down as extra. -/
theorem Family.Counted.set_extra [Fintype ι] {s : Family ι γ μ} {extra more : M}
    (h : s.Counted count measure extra) (i : ι)
    (ahead : count y.1 - measure y.2 = count s.shared - measure (s.member i) + more) :
    (s.set i y).Counted count measure (extra + more) := by
  rw [Family.Counted] at h ⊢
  rw [Family.total_set, Family.set_shared, eq_add_of_sub_eq ahead, h]
  abel

theorem Family.Counted.set [Fintype ι] {s : Family ι γ μ} {extra : M}
    (h : s.Counted count measure extra) (i : ι)
    (balanced : Balanced count measure (s.shared, s.member i) y) :
    (s.set i y).Counted count measure extra := by
  have ahead : count y.1 - measure y.2 = count s.shared - measure (s.member i) + 0 := by
    rw [add_zero]
    exact balanced
  simpa only [add_zero] using h.set_extra i ahead

omit [DecidableEq ι] in
/-- The total of a measure that marks members is the number of the marked ones. -/
theorem Family.total_mark [Fintype ι] (p : μ → Bool) (s : Family ι γ μ) :
    s.total (fun m => if p m then (1 : Int) else 0) =
      (Finset.univ.filter fun i => p (s.member i)).card := by
  rw [Family.total, Finset.card_filter, Nat.cast_sum]
  apply Finset.sum_congr rfl
  intro i _
  cases p (s.member i) with
  | true => rfl
  | false => rfl

def Family.Everywhere (P : γ → μ → Prop) (s : Family ι γ μ) : Prop :=
  ∀ i, P s.shared (s.member i)

theorem Family.Everywhere.set {P : γ → μ → Prop} {s : Family ι γ μ} (h : s.Everywhere P) (i : ι)
    (here : P y.1 y.2) (others : ∀ m, P s.shared m → P y.1 m) : (s.set i y).Everywhere P := by
  intro j
  by_cases hj : j = i
  · subst hj
    rw [Family.set_member_same]
    exact here
  · rw [Family.set_member_other s y hj]
    exact others _ (h j)

end Families
