import Mathlib.Logic.Relation
import Mathlib.Order.Basic

/-!
# Forests

A relation in which every node has at most one owner, and along which a rank
falls. What two nodes can reach overlaps only when one of them reaches the other.
-/

namespace Ancestry

open Relation

universe u

variable {α : Type u} {E E' : α → α → Prop} {rank : α → Nat} {a b c p q x : α}

abbrev Reach (E : α → α → Prop) : α → α → Prop := ReflTransGen E

structure Forest (E : α → α → Prop) (rank : α → Nat) : Prop where
  owner : ∀ {a b c}, E a c → E b c → a = b
  falls : ∀ {a b}, E a b → rank b < rank a

theorem Forest.rank_le (h : Forest E rank) (hab : Reach E a b) : rank b ≤ rank a := by
  induction hab with
  | refl => exact Nat.le_refl _
  | tail _ hbc ih => exact Nat.le_trans (Nat.le_of_lt (h.falls hbc)) ih

/-- No node is reached from what it owns. -/
theorem Forest.acyclic (h : Forest E rank) (hab : E a b) : ¬ Reach E b a := fun hba =>
  Nat.lt_irrefl _ (Nat.lt_of_lt_of_le (h.falls hab) (h.rank_le hba))

theorem Forest.comparable (h : Forest E rank) (ha : Reach E a x) (hb : Reach E b x) :
    Reach E a b ∨ Reach E b a := by
  have unique : Relator.RightUnique (Function.swap E) := fun _ _ _ hxa hxb => h.owner hxa hxb
  have hxa : ReflTransGen (Function.swap E) x a := reflTransGen_swap.mpr ha
  have hxb : ReflTransGen (Function.swap E) x b := reflTransGen_swap.mpr hb
  rcases ReflTransGen.total_of_right_unique unique hxa hxb with hab | hba
  · exact Or.inr (reflTransGen_swap.mp hab)
  · exact Or.inl (reflTransGen_swap.mp hba)

/-- What owns `p` lies on every way to `p`. -/
theorem Forest.reach_owner (h : Forest E rank) (hap : E a p) (hbp : Reach E b p) (hne : b ≠ p) :
    Reach E b a := by
  rcases ReflTransGen.cases_tail hbp with heq | ⟨c, hbc, hcp⟩
  · exact absurd heq.symm hne
  · exact h.owner hcp hap ▸ hbc

theorem Forest.siblings_disjoint (h : Forest E rank) (hp : E a p) (hq : E a q) (hne : p ≠ q)
    (hpx : Reach E p x) : ¬ Reach E q x := by
  intro hqx
  rcases h.comparable hpx hqx with hpq | hqp
  · exact h.acyclic hp (h.reach_owner hq hpq hne)
  · exact h.acyclic hq (h.reach_owner hp hqp hne.symm)

/-- A node without an owner is reached only from itself. -/
theorem eq_of_reach_root (root : ∀ c, ¬ E c a) (hba : Reach E b a) : b = a := by
  rcases ReflTransGen.cases_tail hba with heq | ⟨c, _, hca⟩
  · exact heq.symm
  · exact absurd hca (root c)

theorem Forest.roots_disjoint (h : Forest E rank) (ha : ∀ c, ¬ E c a) (hb : ∀ c, ¬ E c b)
    (hne : a ≠ b) (hax : Reach E a x) : ¬ Reach E b x := by
  intro hbx
  rcases h.comparable hax hbx with hab | hba
  · exact hne (eq_of_reach_root hb hab)
  · exact hne (eq_of_reach_root ha hba).symm

/-- What is reached from `a` depends only on the edges met on the way. -/
theorem reach_congr (same : ∀ b c, Reach E a b → E b c → E' b c) (hax : Reach E a x) :
    Reach E' a x := by
  induction hax with
  | refl => exact ReflTransGen.refl
  | tail hab hbc ih => exact ih.tail (same _ _ hab hbc)

end Ancestry
