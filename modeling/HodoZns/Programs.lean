import Mathlib.Tactic.Common

/-!
# Programs over commands

A program computes and gives commands; a handler answers them over some state.
`wp` is the weakest precondition of a program that may run out of room but never
gets stuck. A handler that matches another one command by command matches it on
every program.
-/

namespace Programs

/-- A program with commands `c : C`, each answered by a value of `R c`. -/
inductive Prog (C : Type) (R : C → Type) (α : Type) where
  | done (a : α)
  | crash
  | call (c : C) (next : R c → Prog C R α)

/-- What a command or a program comes to. -/
inductive Outcome (α : Type) where
  | done (a : α)
  | noRoom
  | stuck

variable {C : Type} {R : C → Type} {α β σ τ : Type}

def Prog.bind : Prog C R α → (α → Prog C R β) → Prog C R β
  | .done a, f => f a
  | .crash, _ => .crash
  | .call c next, f => .call c fun r => (next r).bind f

instance : Monad (Prog C R) where
  pure := .done
  bind := .bind

theorem Prog.bind_done (p : Prog C R α) : p.bind .done = p := by
  induction p with
  | done a => rfl
  | crash => rfl
  | call c next ih => exact congrArg (Prog.call c) (funext ih)

theorem Prog.bind_assoc {γ : Type} (p : Prog C R α) (f : α → Prog C R β) (g : β → Prog C R γ) :
    (p.bind f).bind g = p.bind fun a => (f a).bind g := by
  induction p with
  | done a => rfl
  | crash => rfl
  | call c next ih => exact congrArg (Prog.call c) (funext ih)

instance : LawfulMonad (Prog C R) :=
  LawfulMonad.mk' (Prog C R) (fun p => p.bind_done) (fun _ _ => rfl) Prog.bind_assoc

def Prog.cmd (c : C) : Prog C R (R c) := .call c .done

def Outcome.map (f : α → β) : Outcome α → Outcome β
  | .done a => .done (f a)
  | .noRoom => .noRoom
  | .stuck => .stuck

theorem Outcome.map_eq_done {f : α → β} {o : Outcome α} {b : β} :
    o.map f = .done b ↔ ∃ a, o = .done a ∧ f a = b := by
  cases o with
  | done a => simp only [Outcome.map, Outcome.done.injEq, exists_eq_left']
  | noRoom => simp only [Outcome.map, reduceCtorEq, false_and, exists_false]
  | stuck => simp only [Outcome.map, reduceCtorEq, false_and, exists_false]

abbrev Handler (C : Type) (R : C → Type) (σ : Type) := (c : C) → σ → Outcome (R c × σ)

def exec (h : Handler C R σ) : Prog C R α → σ → Outcome (α × σ)
  | .done a, s => .done (a, s)
  | .crash, _ => .stuck
  | .call c next, s =>
    match h c s with
    | .done (r, s') => exec h (next r) s'
    | .noRoom => .noRoom
    | .stuck => .stuck

/-- Whatever comes out satisfies `Q`, and something does unless there is no room. -/
def Outcome.Meets (Q : α → σ → Prop) : Outcome (α × σ) → Prop
  | .done (a, s) => Q a s
  | .noRoom => True
  | .stuck => False

def wp (h : Handler C R σ) (p : Prog C R α) (Q : α → σ → Prop) (s : σ) : Prop :=
  (exec h p s).Meets Q

theorem Outcome.Meets.mono {Q Q' : α → σ → Prop} (hQ : ∀ a s, Q a s → Q' a s)
    {o : Outcome (α × σ)} (h : o.Meets Q) : o.Meets Q' := by
  cases o with
  | done r => exact hQ r.1 r.2 h
  | noRoom => trivial
  | stuck => exact h

theorem wp_mono {h : Handler C R σ} {p : Prog C R α} {Q Q' : α → σ → Prop}
    (hQ : ∀ a s, Q a s → Q' a s) {s : σ} (hp : wp h p Q s) : wp h p Q' s :=
  Outcome.Meets.mono hQ hp

@[simp] theorem wp_pure (h : Handler C R σ) (a : α) (Q : α → σ → Prop) (s : σ) :
    wp h (pure a) Q s ↔ Q a s :=
  Iff.rfl

theorem wp_call (h : Handler C R σ) (c : C) (next : R c → Prog C R α) (Q : α → σ → Prop) (s : σ) :
    wp h (.call c next) Q s ↔ (h c s).Meets fun r s' => wp h (next r) Q s' := by
  simp only [wp, exec]
  cases h c s with
  | done r => rfl
  | noRoom => rfl
  | stuck => rfl

@[simp] theorem wp_cmd (h : Handler C R σ) (c : C) (Q : R c → σ → Prop) (s : σ) :
    wp h (Prog.cmd c) Q s ↔ (h c s).Meets Q :=
  wp_call h c .done Q s

@[simp] theorem wp_bind (h : Handler C R σ) (p : Prog C R α) (f : α → Prog C R β)
    (Q : β → σ → Prop) (s : σ) :
    wp h (p >>= f) Q s ↔ wp h p (fun a s' => wp h (f a) Q s') s := by
  change wp h (p.bind f) Q s ↔ _
  induction p generalizing s with
  | done a => rfl
  | crash => rfl
  | call c next ih =>
    simp only [Prog.bind, wp_call]
    cases h c s with
    | done r => exact ih r.1 r.2
    | noRoom => rfl
    | stuck => rfl

@[simp] theorem wp_map (h : Handler C R σ) (p : Prog C R α) (f : α → β) (Q : β → σ → Prop)
    (s : σ) : wp h (f <$> p) Q s ↔ wp h p (fun a s' => Q (f a) s') s :=
  wp_bind h p (fun a => pure (f a)) Q s

/-- A program runs in one way, so what holds after it may be proved piece by piece. -/
theorem wp_and {h : Handler C R σ} {p : Prog C R α} {Q Q' : α → σ → Prop} {s : σ}
    (hp : wp h p Q s) (hp' : wp h p Q' s) : wp h p (fun a s' => Q a s' ∧ Q' a s') s := by
  rw [wp] at hp hp' ⊢
  cases he : exec h p s with
  | done r =>
    rw [he] at hp hp'
    exact ⟨hp, hp'⟩
  | noRoom => trivial
  | stuck =>
    rw [he] at hp
    exact hp.elim

theorem not_wp_crash (h : Handler C R σ) (Q : α → σ → Prop) (s : σ) : ¬ wp h .crash Q s :=
  id

-- otherwise every use of a specification runs the program symbolically
attribute [irreducible] wp

/-- Every command is given in a state in which `P` admits it. -/
def Guarded (h : Handler C R σ) (P : σ → C → Prop) : Prog C R α → σ → Prop
  | .done _, _ => True
  | .crash, _ => True
  | .call c next, s => P s c ∧ ∀ r s', h c s = .done (r, s') → Guarded h P (next r) s'

instance decidableDone (o : Outcome α) (Q : α → Prop) [∀ a, Decidable (Q a)] :
    Decidable (∀ a, o = .done a → Q a) :=
  match o with
  | .done a => decidable_of_iff (Q a) ⟨fun h _ ha => Outcome.done.inj ha ▸ h, fun h => h a rfl⟩
  | .noRoom => isTrue fun _ ha => nomatch ha
  | .stuck => isTrue fun _ ha => nomatch ha

instance decidableExistsDone (o : Outcome α) (Q : α → Prop) [∀ a, Decidable (Q a)] :
    Decidable (∃ a, o = .done a ∧ Q a) :=
  match o with
  | .done a => decidable_of_iff (Q a)
      ⟨fun h => ⟨a, rfl, h⟩, fun ⟨_, ha, h⟩ => Outcome.done.inj ha ▸ h⟩
  | .noRoom => isFalse fun ⟨_, ha, _⟩ => nomatch ha
  | .stuck => isFalse fun ⟨_, ha, _⟩ => nomatch ha

instance decidableGuarded (h : Handler C R σ) (P : σ → C → Prop) [∀ s c, Decidable (P s c)] :
    (p : Prog C R α) → (s : σ) → Decidable (Guarded h P p s)
  | .done _, _ => isTrue trivial
  | .crash, _ => isTrue trivial
  | .call c next, s =>
    have : ∀ a : R c × σ, Decidable (Guarded h P (next a.1) a.2) := fun a =>
      decidableGuarded h P (next a.1) a.2
    decidable_of_iff (P s c ∧ ∀ a, h c s = .done a → Guarded h P (next a.1) a.2)
      ⟨fun ⟨hp, hn⟩ => ⟨hp, fun r s' => hn (r, s')⟩, fun ⟨hp, hn⟩ => ⟨hp, fun a => hn a.1 a.2⟩⟩

/-- Whatever the answers are, the program gives no commands but those in `P`. -/
inductive Prog.Only (P : C → Prop) : Prog C R α → Prop
  | done (a : α) : Only P (.done a)
  | crash : Only P .crash
  | call {c : C} {next : R c → Prog C R α} : P c → (∀ r, Only P (next r)) → Only P (.call c next)

theorem only_pure (P : C → Prop) (a : α) : (pure a : Prog C R α).Only P :=
  .done a

theorem only_cmd {P : C → Prop} {c : C} (h : P c) : (Prog.cmd c : Prog C R (R c)).Only P :=
  .call h .done

theorem only_bind {P : C → Prop} {p : Prog C R α} {f : α → Prog C R β} (hp : p.Only P)
    (hf : ∀ a, (f a).Only P) : (p >>= f).Only P := by
  change (p.bind f).Only P
  induction hp with
  | done a => exact hf a
  | crash => exact .crash
  | call hc _ ih => exact .call hc ih

theorem only_any (p : Prog C R α) : p.Only fun _ => True := by
  induction p with
  | done a => exact .done a
  | crash => exact .crash
  | call c next ih => exact .call trivial ih

theorem Prog.Only.after {P : C → Prop} {c : C} {f : R c → Prog C R α}
    (h : ((Prog.cmd c : Prog C R (R c)) >>= f).Only P) : P c ∧ ∀ r, (f r).Only P := by
  have hcall : Prog.Only P (.call c f) := h
  cases hcall with
  | call hc hf => exact ⟨hc, hf⟩

theorem only_ite {P : C → Prop} {c : Prop} [Decidable c] {p q : Prog C R α} (hp : p.Only P)
    (hq : q.Only P) : (if c then p else q).Only P := by
  split
  · exact hp
  · exact hq

theorem Prog.Only.mono {P Q : C → Prop} {p : Prog C R α} (hp : p.Only P) (h : ∀ c, P c → Q c) :
    p.Only Q := by
  induction hp with
  | done a => exact .done a
  | crash => exact .crash
  | call hc _ ih => exact .call (h _ hc) ih

/-- Nor does it come to another result than one in `Q`. -/
inductive Prog.Within (P : C → Prop) (Q : α → Prop) : Prog C R α → Prop
  | done {a : α} : Q a → Within P Q (.done a)
  | crash : Within P Q .crash
  | call {c : C} {next : R c → Prog C R α} : P c → (∀ r, Within P Q (next r)) →
      Within P Q (.call c next)

theorem within_pure {P : C → Prop} {Q : α → Prop} {a : α} (h : Q a) :
    (pure a : Prog C R α).Within P Q :=
  .done h

theorem within_of_only {P : C → Prop} {p : Prog C R α} (hp : p.Only P) :
    p.Within P fun _ => True := by
  induction hp with
  | done a => exact .done trivial
  | crash => exact .crash
  | call hc _ ih => exact .call hc ih

theorem Prog.Within.only {P : C → Prop} {Q : α → Prop} {p : Prog C R α} (hp : p.Within P Q) :
    p.Only P := by
  induction hp with
  | done _ => exact .done _
  | crash => exact .crash
  | call hc _ ih => exact .call hc ih

theorem within_bind {P : C → Prop} {Q : α → Prop} {Q' : β → Prop} {p : Prog C R α}
    {f : α → Prog C R β} (hp : p.Within P Q) (hf : ∀ a, Q a → (f a).Within P Q') :
    (p >>= f).Within P Q' := by
  change (p.bind f).Within P Q'
  induction hp with
  | done ha => exact hf _ ha
  | crash => exact .crash
  | call hc _ ih => exact .call hc ih

/-- Commands that are always admitted need no guard. -/
theorem guarded_of_only {h : Handler C R σ} {Q : σ → C → Prop} {P : C → Prop}
    (admitted : ∀ s c, P c → Q s c) {p : Prog C R α} (hp : p.Only P) (s : σ) :
    Guarded h Q p s := by
  induction hp generalizing s with
  | done a => trivial
  | crash => trivial
  | call hc _ ih => exact ⟨admitted s _ hc, fun r s' _ => ih r s'⟩

@[simp] theorem exec_pure (h : Handler C R σ) (a : α) (s : σ) :
    exec h (pure a) s = .done (a, s) :=
  rfl

theorem exec_cmd (h : Handler C R σ) (c : C) (s : σ) : exec h (Prog.cmd c) s = h c s := by
  rw [Prog.cmd, exec]
  cases h c s with
  | done r => rfl
  | noRoom => rfl
  | stuck => rfl

theorem exec_bind (h : Handler C R σ) (p : Prog C R α) (f : α → Prog C R β) (s : σ) :
    exec h (p >>= f) s =
      match exec h p s with
      | .done (a, s') => exec h (f a) s'
      | .noRoom => .noRoom
      | .stuck => .stuck := by
  change exec h (p.bind f) s = _
  induction p generalizing s with
  | done a => rfl
  | crash => rfl
  | call c next ih =>
    simp only [Prog.bind, exec]
    cases h c s with
    | done r => exact ih r.1 r.2
    | noRoom => rfl
    | stuck => rfl

theorem exec_call_eq_done {h : Handler C R σ} {c : C} {next : R c → Prog C R α} {s s' : σ} {a : α}
    (he : exec h (.call c next) s = .done (a, s')) :
    ∃ r s₁, h c s = .done (r, s₁) ∧ exec h (next r) s₁ = .done (a, s') := by
  rw [exec] at he
  cases hr : h c s with
  | done r =>
    rw [hr] at he
    exact ⟨r.1, r.2, rfl, he⟩
  | noRoom =>
    rw [hr] at he
    cases he
  | stuck =>
    rw [hr] at he
    cases he

theorem exec_bind_done {h : Handler C R σ} {p : Prog C R α} {s s' : σ} {a : α}
    (he : exec h p s = .done (a, s')) (f : α → Prog C R β) :
    exec h (p >>= f) s = exec h (f a) s' := by
  rw [exec_bind, he]

theorem exec_bind_eq_done {h : Handler C R σ} {p : Prog C R α} {f : α → Prog C R β} {s s'' : σ}
    {b : β} (he : exec h (p >>= f) s = .done (b, s'')) :
    ∃ a s', exec h p s = .done (a, s') ∧ exec h (f a) s' = .done (b, s'') := by
  rw [exec_bind] at he
  cases hp : exec h p s with
  | done r =>
    rw [hp] at he
    exact ⟨r.1, r.2, rfl, he⟩
  | noRoom =>
    rw [hp] at he
    cases he
  | stuck =>
    rw [hp] at he
    cases he

/-- What the commands of a program keep, the program keeps. -/
theorem exec_keeps {h : Handler C R σ} {P : C → Prop} {I : σ → Prop}
    (keeps : ∀ s c r s', P c → I s → h c s = .done (r, s') → I s') {p : Prog C R α}
    (hp : p.Only P) {s s' : σ} {a : α} (inv : I s) (he : exec h p s = .done (a, s')) : I s' := by
  induction hp generalizing s with
  | done b =>
    obtain ⟨_, rfl⟩ := Prod.mk.inj (Outcome.done.inj he)
    exact inv
  | crash => cases he
  | call hc _ ih =>
    obtain ⟨r, s₁, hr, he⟩ := exec_call_eq_done he
    exact ih r (keeps s _ r s₁ hc inv hr) he

/-- What the commands of a program keep may be told after it too. -/
theorem wp_keeps {h : Handler C R σ} {P : C → Prop} {I : σ → Prop}
    (keeps : ∀ s c r s', P c → I s → h c s = .done (r, s') → I s') {p : Prog C R α}
    (hp : p.Only P) {Q : α → σ → Prop} {s : σ} (inv : I s) (safe : wp h p Q s) :
    wp h p (fun a s' => Q a s' ∧ I s') s := by
  rw [wp] at safe ⊢
  cases he : exec h p s with
  | done r =>
    rw [he] at safe
    exact ⟨safe, exec_keeps keeps hp inv he⟩
  | noRoom => trivial
  | stuck =>
    rw [he] at safe
    exact safe.elim

theorem Guarded.mono {h : Handler C R σ} {P Q : σ → C → Prop} (hPQ : ∀ s c, P s c → Q s c)
    {p : Prog C R α} {s : σ} (guarded : Guarded h P p s) : Guarded h Q p s := by
  induction p generalizing s with
  | done a => trivial
  | crash => trivial
  | call c next ih => exact ⟨hPQ s c guarded.1, fun r s' hr => ih r (guarded.2 r s' hr)⟩

/-- The guard after an answered command is that of the rest. -/
theorem guarded_call {h : Handler C R σ} {P : σ → C → Prop} {c : C} {next : R c → Prog C R α}
    {s s' : σ} {r : R c} (hstep : h c s = .done (r, s')) :
    Guarded h P (.call c next) s ↔ P s c ∧ Guarded h P (next r) s' := by
  constructor
  · rintro ⟨hc, hnext⟩
    exact ⟨hc, hnext r s' hstep⟩
  · rintro ⟨hc, hnext⟩
    refine ⟨hc, fun r' s'' hstep' => ?_⟩
    obtain ⟨rfl, rfl⟩ := Prod.mk.inj (Outcome.done.inj (hstep.symm.trans hstep'))
    exact hnext

theorem guarded_bind {h : Handler C R σ} {P : σ → C → Prop} {p : Prog C R α} {f : α → Prog C R β}
    {s : σ} : Guarded h P (p >>= f) s ↔
      Guarded h P p s ∧ ∀ a s', exec h p s = .done (a, s') → Guarded h P (f a) s' := by
  change Guarded h P (p.bind f) s ↔ _
  induction p generalizing s with
  | done a =>
    constructor
    · intro guarded
      refine ⟨trivial, fun a' s' he => ?_⟩
      obtain ⟨rfl, rfl⟩ := Prod.mk.inj (Outcome.done.inj he)
      exact guarded
    · exact fun guarded => guarded.2 a s rfl
  | crash => exact iff_of_true trivial ⟨trivial, fun a s' he => nomatch he⟩
  | call c next ih =>
    constructor
    · rintro ⟨hc, hnext⟩
      refine ⟨⟨hc, fun r s' hr => ((ih r).mp (hnext r s' hr)).1⟩, fun a s' he => ?_⟩
      obtain ⟨r, s₁, hr, he'⟩ := exec_call_eq_done he
      exact ((ih r).mp (hnext r s₁ hr)).2 a s' he'
    · rintro ⟨⟨hc, hnext⟩, hrest⟩
      refine ⟨hc, fun r s' hr => (ih r).mpr ⟨hnext r s' hr, fun a s'' he => hrest a s'' ?_⟩⟩
      rw [exec, hr]
      exact he

/-- Whatever the answers are, the program gives commands in `Free` and at most `k` in `Takes`. -/
inductive Prog.Spends (Free Takes : C → Prop) : Nat → Prog C R α → Prop
  | done (k : Nat) (a : α) : Spends Free Takes k (.done a)
  | crash (k : Nat) : Spends Free Takes k .crash
  | free {k : Nat} {c : C} {next : R c → Prog C R α} : Free c →
      (∀ r, Spends Free Takes k (next r)) → Spends Free Takes k (.call c next)
  | takes {k : Nat} {c : C} {next : R c → Prog C R α} : Takes c →
      (∀ r, Spends Free Takes k (next r)) → Spends Free Takes (k + 1) (.call c next)

section Spending

variable {Free Takes : C → Prop}

theorem Prog.Spends.mono {j k : Nat} {p : Prog C R α} (h : p.Spends Free Takes j) (hle : j ≤ k) :
    p.Spends Free Takes k := by
  induction h generalizing k with
  | done => exact .done k _
  | crash => exact .crash k
  | free hc _ ih => exact .free hc fun r => ih r hle
  | takes hc _ ih =>
    obtain ⟨k, rfl⟩ : ∃ k', k = k' + 1 := ⟨k - 1, by omega⟩
    exact .takes hc fun r => ih r (by omega)

theorem spends_pure (k : Nat) (a : α) : (pure a : Prog C R α).Spends Free Takes k :=
  .done k a

theorem spends_bind {j k : Nat} {p : Prog C R α} {f : α → Prog C R β} (hp : p.Spends Free Takes j)
    (hf : ∀ a, (f a).Spends Free Takes k) : (p >>= f).Spends Free Takes (j + k) := by
  change (p.bind f).Spends Free Takes (j + k)
  induction hp with
  | done j a => exact (hf a).mono (Nat.le_add_left k j)
  | crash => exact .crash _
  | free hc _ ih => exact .free hc ih
  | @takes j c next hc _ ih =>
    rw [Nat.add_right_comm]
    exact .takes hc ih

/-- What the commands in `Takes` need is there as long as the budget lasts. -/
theorem guarded_of_spends {h : Handler C R σ} {P : σ → C → Prop} {B : Nat → σ → Prop}
    (free : ∀ k s c, Free c → B k s → P s c ∧ ∀ r s', h c s = .done (r, s') → B k s')
    (takes : ∀ k s c, Takes c → B (k + 1) s →
      P s c ∧ ∀ r s', h c s = .done (r, s') → B k s')
    (less : ∀ j k s, j ≤ k → B k s → B j s)
    {k rest : Nat} {p : Prog C R α} {s : σ} (spends : p.Spends Free Takes k)
    (budget : B (k + rest) s) :
    Guarded h P p s ∧ ∀ a s', exec h p s = .done (a, s') → B rest s' := by
  induction spends generalizing s with
  | done k a =>
    refine ⟨trivial, fun a' s' he => ?_⟩
    obtain ⟨_, rfl⟩ := Prod.mk.inj (Outcome.done.inj he)
    exact less _ _ _ (Nat.le_add_left rest k) budget
  | crash => exact ⟨trivial, fun a s' he => nomatch he⟩
  | @free k c next hc _ ih =>
    obtain ⟨hP, hstep⟩ := free _ s c hc budget
    refine ⟨⟨hP, fun r s' hr => (ih r (hstep r s' hr)).1⟩, fun a s' he => ?_⟩
    obtain ⟨r, s₁, hr, he'⟩ := exec_call_eq_done he
    exact (ih r (hstep r s₁ hr)).2 a s' he'
  | @takes k c next hc _ ih =>
    rw [Nat.add_right_comm] at budget
    obtain ⟨hP, hstep⟩ := takes _ s c hc budget
    refine ⟨⟨hP, fun r s' hr => (ih r (hstep r s' hr)).1⟩, fun a s' he => ?_⟩
    obtain ⟨r, s₁, hr, he'⟩ := exec_call_eq_done he
    exact (ih r (hstep r s₁ hr)).2 a s' he'

end Spending

/-- How `h` has to answer a command that the other handler answers with `o`. -/
def Matches (Rel : σ → τ → Prop) (o : Outcome (α × σ)) : Outcome (α × τ) → Prop
  | .done (a, t) => ∃ s, o = .done (a, s) ∧ Rel s t
  | .noRoom => False
  | .stuck => True

/-- The simulation rule: a program that is safe over the second handler runs over
the first one, with the same answer. -/
theorem exec_simulates {h : Handler C R σ} {h' : Handler C R τ} (P : σ → C → Prop)
    (Rel : σ → τ → Prop)
    (commands : ∀ s t c, Rel s t → P s c → Matches Rel (h c s) (h' c t))
    {p : Prog C R α} {Q : α → τ → Prop} {s : σ} {t : τ} (related : Rel s t)
    (guarded : Guarded h P p s) (safe : wp h' p Q t) :
    ∃ a s' t', exec h p s = .done (a, s') ∧ Rel s' t' ∧ Q a t' := by
  induction p generalizing s t with
  | done a => exact ⟨a, s, t, rfl, related, (wp_pure h' a Q t).mp safe⟩
  | crash => exact absurd safe (not_wp_crash h' Q t)
  | call c next ih =>
    have hmatch := commands s t c related guarded.1
    rw [wp_call] at safe
    cases ho : h' c t with
    | noRoom =>
      rw [ho] at hmatch
      exact hmatch.elim
    | stuck =>
      rw [ho] at safe
      exact safe.elim
    | done r =>
      obtain ⟨r, t'⟩ := r
      rw [ho] at hmatch safe
      obtain ⟨s', hs, related'⟩ := hmatch
      obtain ⟨a, s'', t'', hexec, related'', hq⟩ := ih r related' (guarded.2 r s' hs) safe
      exact ⟨a, s'', t'', by simp only [exec, hs, hexec], related'', hq⟩

/-- Two outcomes with the same answer, in states that belong together. -/
def Outcome.Rel (Rel : σ → τ → Prop) : Outcome (α × σ) → Outcome (α × τ) → Prop
  | .done (a, s), .done (b, t) => a = b ∧ Rel s t
  | .noRoom, .noRoom => True
  | .stuck, .stuck => True
  | _, _ => False

theorem Outcome.Rel.cases {Rel : σ → τ → Prop} {o : Outcome (α × σ)} {o' : Outcome (α × τ)}
    (h : Outcome.Rel Rel o o') :
    (∃ a s t, o = .done (a, s) ∧ o' = .done (a, t) ∧ Rel s t) ∨
      o = .noRoom ∧ o' = .noRoom ∨ o = .stuck ∧ o' = .stuck := by
  cases o with
  | done r =>
    cases o' with
    | done r' =>
      obtain ⟨a, s⟩ := r
      obtain ⟨b, t⟩ := r'
      obtain ⟨rfl, related⟩ := h
      exact .inl ⟨a, s, t, rfl, rfl, related⟩
    | _ => exact h.elim
  | noRoom =>
    cases o' with
    | noRoom => exact .inr (.inl ⟨rfl, rfl⟩)
    | _ => exact h.elim
  | stuck =>
    cases o' with
    | stuck => exact .inr (.inr ⟨rfl, rfl⟩)
    | _ => exact h.elim

/-- Two handlers that answer every command alike answer every program alike. -/
theorem exec_lockstep {h : Handler C R σ} {h' : Handler C R τ} {Rel : σ → τ → Prop}
    (commands : ∀ s t c, Rel s t → Outcome.Rel Rel (h c s) (h' c t)) (p : Prog C R α)
    {s : σ} {t : τ}
    (related : Rel s t) : Outcome.Rel Rel (exec h p s) (exec h' p t) := by
  induction p generalizing s t with
  | done a => exact ⟨rfl, related⟩
  | crash => trivial
  | call c next ih =>
    simp only [exec]
    rcases (commands s t c related).cases with
      ⟨a, s', t', ho, ho', related'⟩ | ⟨ho, ho'⟩ | ⟨ho, ho'⟩
    · rw [ho, ho']
      exact ih a related'
    · rw [ho, ho']
      trivial
    · rw [ho, ho']
      trivial

end Programs
