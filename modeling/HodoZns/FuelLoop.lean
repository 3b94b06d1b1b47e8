import Mathlib.Tactic.Common

/-!
# Loops with fuel

`loop body n s` takes at most `n` turns of `body`, which either goes on with a
new state or leaves the loop with a result. One rule carries every use: an
invariant, a variant that each turn makes smaller, and enough fuel for it.
-/

namespace FuelLoop

universe u v

variable {σ : Type u} {ρ : Type v}

def loop (body : σ → σ ⊕ ρ) : Nat → σ → Option ρ
  | 0, _ => none
  | n + 1, s =>
    match body s with
    | .inl s' => loop body n s'
    | .inr r => some r

/-- Total correctness: the loop ends, and with the result it promises. -/
theorem loop_total (body : σ → σ ⊕ ρ) (Inv : σ → Prop) (variant : σ → Nat) (Post : ρ → Prop)
    (goesOn : ∀ s s', Inv s → body s = .inl s' → Inv s' ∧ variant s' < variant s)
    (leaves : ∀ s r, Inv s → body s = .inr r → Post r)
    {n : Nat} {s : σ} (inv : Inv s) (enough : variant s < n) :
    ∃ r, loop body n s = some r ∧ Post r := by
  induction n generalizing s with
  | zero => omega
  | succ n ih =>
    cases hb : body s with
    | inl s' =>
      obtain ⟨inv', hlt⟩ := goesOn s s' inv hb
      obtain ⟨r, hr, post⟩ := ih inv' (by omega)
      exact ⟨r, by rw [loop, hb]; exact hr, post⟩
    | inr r => exact ⟨r, by rw [loop, hb], leaves s r inv hb⟩

/-- Partial correctness: whatever comes out is as promised. -/
theorem loop_keeps (body : σ → σ ⊕ ρ) (Inv : σ → Prop) (Post : ρ → Prop)
    (goesOn : ∀ s s', Inv s → body s = .inl s' → Inv s')
    (leaves : ∀ s r, Inv s → body s = .inr r → Post r)
    {n : Nat} {s : σ} {r : ρ} (inv : Inv s) (h : loop body n s = some r) : Post r := by
  induction n generalizing s with
  | zero => cases h
  | succ n ih =>
    rw [loop] at h
    cases hb : body s with
    | inl s' =>
      rw [hb] at h
      exact ih (goesOn s s' inv hb) h
    | inr r' =>
      rw [hb] at h
      obtain rfl := Option.some.inj h
      exact leaves s r' inv hb

/-- Two loops whose turns are related end alike. -/
theorem loop_simulates {τ ω : Type*} (body : σ → σ ⊕ ρ) (body' : τ → τ ⊕ ω) (R : σ → τ → Prop)
    (Post : ρ → ω → Prop) (turn : ∀ s t, R s t → Sum.LiftRel R Post (body s) (body' t)) (n : Nat)
    {s : σ} {t : τ} (related : R s t) : Option.Rel Post (loop body n s) (loop body' n t) := by
  induction n generalizing s t with
  | zero => exact .none
  | succ n ih =>
    have next := turn s t related
    rw [loop, loop]
    generalize body s = x at next ⊢
    generalize body' t = y at next ⊢
    cases next with
    | inl related' => exact ih related'
    | inr post => exact .some post

/-- What follows a loop that may not end. -/
theorem rel_bind {α β γ ζ : Type*} {R : α → β → Prop} {S : γ → ζ → Prop} {x : Option α}
    {y : Option β} (h : Option.Rel R x y) {f : α → Option γ} {g : β → Option ζ}
    (after : ∀ a b, R a b → Option.Rel S (f a) (g b)) : Option.Rel S (x.bind f) (y.bind g) := by
  cases h with
  | none => exact .none
  | some related => exact after _ _ related

theorem rel_map {α β γ ζ : Type*} {R : α → β → Prop} {S : γ → ζ → Prop} {x : Option α}
    {y : Option β} (h : Option.Rel R x y) {f : α → γ} {g : β → ζ}
    (after : ∀ a b, R a b → S (f a) (g b)) : Option.Rel S (x.map f) (y.map g) := by
  cases h with
  | none => exact .none
  | some related => exact .some (after _ _ related)

end FuelLoop
