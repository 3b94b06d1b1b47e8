import Mathlib.Tactic.Common

/-!
# Runs of calls

A system takes calls of a type `κ` one after the other; a call that ends gives
an answer and a new state. The rules carry an invariant, or a relation to a
second system, from one call to a whole run.
-/

namespace CallRuns

universe u v w x

variable {σ : Type u} {τ : Type v} {κ : Type w} {α : Type x}

def run (step : σ → κ → Option (α × σ)) : List κ → σ → Option (List α × σ)
  | [], s => some ([], s)
  | c :: cs, s =>
    match step s c with
    | none => none
    | some (a, s') => (run step cs s').map fun (as, s'') => (a :: as, s'')

/-- The answers of a run that ends. -/
def runAnswers (step : σ → κ → Option (α × σ)) (cs : List κ) (s : σ) : List α :=
  ((run step cs s).map Prod.fst).getD []

/-- The state a run ends in. -/
def runState (step : σ → κ → Option (α × σ)) (cs : List κ) (s : σ) : σ :=
  ((run step cs s).map Prod.snd).getD s

/-- Every call of the run is made in a state in which `P` admits it. -/
def EachCall (step : σ → κ → Option (α × σ)) (P : σ → κ → Prop) : List κ → σ → Prop
  | [], _ => True
  | c :: cs, s => P s c ∧ ∀ a s', step s c = some (a, s') → EachCall step P cs s'

/-- Every call of the run that ends does as `P` says of states and answer. -/
def EachStep (step : σ → κ → Option (α × σ)) (P : σ → α → σ → Prop) : List κ → σ → Prop
  | [], _ => True
  | c :: cs, s => ∀ a s', step s c = some (a, s') → P s a s' ∧ EachStep step P cs s'

instance decidableSome (o : Option α) (Q : α → Prop) [∀ a, Decidable (Q a)] :
    Decidable (∀ a, o = some a → Q a) :=
  match o with
  | some a => decidable_of_iff (Q a) ⟨fun h _ ha => Option.some.inj ha ▸ h, fun h => h a rfl⟩
  | none => isTrue fun _ ha => nomatch ha

instance decidableExistsSome (o : Option α) (Q : α → Prop) [∀ a, Decidable (Q a)] :
    Decidable (∃ a, o = some a ∧ Q a) :=
  match o with
  | some a => decidable_of_iff (Q a)
      ⟨fun h => ⟨a, rfl, h⟩, fun ⟨_, ha, h⟩ => Option.some.inj ha ▸ h⟩
  | none => isFalse fun ⟨_, ha, _⟩ => nomatch ha

instance decidableEachCall (step : σ → κ → Option (α × σ)) (P : σ → κ → Prop)
    [∀ s c, Decidable (P s c)] : (cs : List κ) → (s : σ) → Decidable (EachCall step P cs s)
  | [], _ => isTrue trivial
  | c :: cs, s =>
    have : ∀ a : α × σ, Decidable (EachCall step P cs a.2) := fun a =>
      decidableEachCall step P cs a.2
    decidable_of_iff (P s c ∧ ∀ a, step s c = some a → EachCall step P cs a.2)
      ⟨fun ⟨hp, hn⟩ => ⟨hp, fun a s' => hn (a, s')⟩, fun ⟨hp, hn⟩ => ⟨hp, fun a => hn a.1 a.2⟩⟩

theorem run_cons {step : σ → κ → Option (α × σ)} {c : κ} {cs : List κ} {s s' : σ} {a : α}
    (h : step s c = some (a, s')) :
    run step (c :: cs) s = (run step cs s').map fun (as, s'') => (a :: as, s'') := by
  rw [run, h]

theorem run_ends (step : σ → κ → Option (α × σ)) (cs : List κ) (s : σ)
    (h : (run step cs s).isSome = true) :
    run step cs s = some (runAnswers step cs s, runState step cs s) := by
  obtain ⟨r, hr⟩ := Option.isSome_iff_exists.mp h
  rw [runAnswers, runState, hr]
  rfl

theorem step_ends (step : σ → κ → Option (α × σ)) (c : κ) (s : σ) (a : α)
    (h : (step s c).map Prod.fst = some a) : step s c = some (a, runState step [c] s) := by
  obtain ⟨⟨a', s'⟩, hstep, rfl⟩ := Option.map_eq_some_iff.mp h
  rw [runState, run_cons hstep, hstep]
  rfl

theorem eachStep_cons {step : σ → κ → Option (α × σ)} {P : σ → α → σ → Prop} {c : κ} {cs : List κ}
    {s s' : σ} {a : α} (h : step s c = some (a, s')) :
    EachStep step P (c :: cs) s ↔ P s a s' ∧ EachStep step P cs s' := by
  constructor
  · exact fun each => each a s' h
  · rintro each a₁ s₁ h₁
    obtain ⟨rfl, rfl⟩ := Prod.mk.inj (Option.some.inj (h.symm.trans h₁))
    exact each

theorem eachCall_cons {step : σ → κ → Option (α × σ)} {P : σ → κ → Prop} {c : κ} {cs : List κ}
    {s s' : σ} {a : α} (h : step s c = some (a, s')) :
    EachCall step P (c :: cs) s ↔ P s c ∧ EachCall step P cs s' := by
  refine and_congr Iff.rfl ⟨fun each => each a s' h, ?_⟩
  rintro each a₁ s₁ h₁
  obtain ⟨rfl, rfl⟩ := Prod.mk.inj (Option.some.inj (h.symm.trans h₁))
  exact each

theorem EachCall.after {step : σ → κ → Option (α × σ)} {P : σ → κ → Prop} {cs ds : List κ}
    {s s' : σ} {as : List α} (h : EachCall step P (cs ++ ds) s)
    (hrun : run step cs s = some (as, s')) : EachCall step P ds s' := by
  induction cs generalizing s as with
  | nil =>
    obtain ⟨_, rfl⟩ := Prod.mk.inj (Option.some.inj hrun)
    exact h
  | cons c cs ih =>
    cases hstep : step s c with
    | none =>
      rw [run, hstep] at hrun
      cases hrun
    | some r =>
      obtain ⟨a, s₁⟩ := r
      rw [run_cons hstep, Option.map_eq_some_iff] at hrun
      obtain ⟨⟨as', s₂⟩, hrun', heq⟩ := hrun
      obtain ⟨_, rfl⟩ := Prod.mk.inj heq
      exact ih (h.2 a s₁ hstep) hrun'

theorem EachCall.before {step : σ → κ → Option (α × σ)} {P : σ → κ → Prop} {cs ds : List κ} {s : σ}
    (h : EachCall step P (cs ++ ds) s) : EachCall step P cs s := by
  induction cs generalizing s with
  | nil => trivial
  | cons c cs ih => exact ⟨h.1, fun a s' hstep => ih (h.2 a s' hstep)⟩

theorem EachCall.mono {step : σ → κ → Option (α × σ)} {P Q : σ → κ → Prop}
    (hPQ : ∀ s c, P s c → Q s c)
    {cs : List κ} {s : σ} (h : EachCall step P cs s) : EachCall step Q cs s := by
  induction cs generalizing s with
  | nil => trivial
  | cons c cs ih => exact ⟨hPQ s c h.1, fun a s' hstep => ih (h.2 a s' hstep)⟩

theorem EachCall.and_mem {step : σ → κ → Option (α × σ)} {P : σ → κ → Prop} {Q : κ → Prop}
    {cs : List κ} {s : σ} (h : EachCall step P cs s) (hQ : ∀ c ∈ cs, Q c) :
    EachCall step (fun s c => P s c ∧ Q c) cs s := by
  induction cs generalizing s with
  | nil => trivial
  | cons c cs ih =>
    exact ⟨⟨h.1, hQ c List.mem_cons_self⟩, fun a s' hstep =>
      ih (h.2 a s' hstep) fun d hd => hQ d (List.mem_cons_of_mem c hd)⟩

theorem run_concat {step : σ → κ → Option (α × σ)} {c : κ} {cs : List κ} {s s' s'' : σ}
    {as : List α} {a : α} (hrun : run step cs s = some (as, s'))
    (hstep : step s' c = some (a, s'')) :
    run step (cs ++ [c]) s = some (as ++ [a], s'') := by
  induction cs generalizing s as with
  | nil =>
    obtain ⟨rfl, rfl⟩ := Prod.mk.inj (Option.some.inj hrun)
    rw [List.nil_append, run_cons hstep]
    rfl
  | cons d cs ih =>
    cases hd : step s d with
    | none =>
      rw [run, hd] at hrun
      cases hrun
    | some r =>
      obtain ⟨b, s₁⟩ := r
      rw [run_cons hd, Option.map_eq_some_iff] at hrun
      obtain ⟨⟨bs, s₂⟩, hrun', heq⟩ := hrun
      obtain ⟨rfl, rfl⟩ := Prod.mk.inj heq
      rw [List.cons_append, run_cons hd, ih hrun']
      rfl

/-- The invariant rule. -/
theorem run_total {step : σ → κ → Option (α × σ)} (P : σ → κ → Prop) (Inv : σ → Prop)
    (kept : ∀ s c, Inv s → P s c → ∃ a s', step s c = some (a, s') ∧ Inv s')
    {cs : List κ} {s : σ} (inv : Inv s) (calls : EachCall step P cs s) :
    ∃ as s', run step cs s = some (as, s') ∧ Inv s' := by
  induction cs generalizing s with
  | nil => exact ⟨[], s, rfl, inv⟩
  | cons c cs ih =>
    obtain ⟨a, s', hstep, inv'⟩ := kept s c inv calls.1
    obtain ⟨as, s'', hrun, inv''⟩ := ih inv' (calls.2 a s' hstep)
    exact ⟨a :: as, s'', by rw [run_cons hstep, hrun]; rfl, inv''⟩

/-- What every call of the run keeps, a run that ends keeps. -/
theorem run_keeps_mem {step : σ → κ → Option (α × σ)} (Inv : σ → Prop) {cs : List κ}
    (kept : ∀ s c a s', c ∈ cs → Inv s → step s c = some (a, s') → Inv s') {s s' : σ}
    {as : List α} (inv : Inv s) (hrun : run step cs s = some (as, s')) : Inv s' := by
  induction cs generalizing s as with
  | nil =>
    obtain ⟨_, rfl⟩ := Prod.mk.inj (Option.some.inj hrun)
    exact inv
  | cons c cs ih =>
    cases hstep : step s c with
    | none =>
      rw [run, hstep] at hrun
      cases hrun
    | some r =>
      obtain ⟨a, s₁⟩ := r
      rw [run_cons hstep, Option.map_eq_some_iff] at hrun
      obtain ⟨⟨as', s₂⟩, hrun', heq⟩ := hrun
      obtain ⟨_, rfl⟩ := Prod.mk.inj heq
      have next := kept s c a s₁ List.mem_cons_self inv hstep
      exact ih (fun s d a s' hd => kept s d a s' (List.mem_cons_of_mem c hd)) next hrun'

theorem run_keeps {step : σ → κ → Option (α × σ)} (Inv : σ → Prop)
    (kept : ∀ s c a s', Inv s → step s c = some (a, s') → Inv s') {cs : List κ} {s s' : σ}
    {as : List α} (inv : Inv s) (hrun : run step cs s = some (as, s')) : Inv s' :=
  run_keeps_mem Inv (fun s c a s' _ => kept s c a s') inv hrun

/-- What every admitted call keeps, a run of them that ends keeps. -/
theorem run_keeps_calls {step : σ → κ → Option (α × σ)} (P : σ → κ → Prop) (Inv : σ → Prop)
    (kept : ∀ s c a s', Inv s → P s c → step s c = some (a, s') → Inv s') {cs : List κ}
    {s s' : σ} {as : List α} (inv : Inv s) (calls : EachCall step P cs s)
    (hrun : run step cs s = some (as, s')) : Inv s' := by
  induction cs generalizing s as with
  | nil =>
    obtain ⟨_, rfl⟩ := Prod.mk.inj (Option.some.inj hrun)
    exact inv
  | cons c cs ih =>
    cases hstep : step s c with
    | none =>
      rw [run, hstep] at hrun
      cases hrun
    | some r =>
      obtain ⟨a, s₁⟩ := r
      rw [run_cons hstep, Option.map_eq_some_iff] at hrun
      obtain ⟨⟨as', s₂⟩, hrun', heq⟩ := hrun
      obtain ⟨_, rfl⟩ := Prod.mk.inj heq
      exact ih (kept s c a s₁ inv calls.1 hstep) (calls.2 a s₁ hstep) hrun'

/-- The invariant rule with the answers that have been given. -/
theorem run_answers {step : σ → κ → Option (α × σ)} (Inv : List α → σ → Prop)
    (kept : ∀ as s c a s', Inv as s → step s c = some (a, s') → Inv (as ++ [a]) s')
    {cs : List κ} {s s' : σ} {before as : List α} (inv : Inv before s)
    (hrun : run step cs s = some (as, s')) : Inv (before ++ as) s' := by
  induction cs generalizing s before as with
  | nil =>
    obtain ⟨rfl, rfl⟩ := Prod.mk.inj (Option.some.inj hrun)
    rwa [List.append_nil]
  | cons c cs ih =>
    cases hstep : step s c with
    | none =>
      rw [run, hstep] at hrun
      cases hrun
    | some r =>
      obtain ⟨a, s₁⟩ := r
      rw [run_cons hstep, Option.map_eq_some_iff] at hrun
      obtain ⟨⟨as', s₂⟩, hrun', heq⟩ := hrun
      obtain ⟨rfl, rfl⟩ := Prod.mk.inj heq
      have next := ih (kept before s c a s₁ inv hstep) hrun'
      rwa [List.append_assoc] at next

/-- The simulation rule: what the second system answers, the first one answers. -/
theorem run_simulates {step : σ → κ → Option (α × σ)} {step' : τ → κ → Option (α × τ)}
    (P : σ → κ → Prop) (R : σ → τ → Prop)
    (simulates : ∀ s t c a t', R s t → P s c → step' t c = some (a, t') →
      ∃ s', step s c = some (a, s') ∧ R s' t')
    {cs : List κ} {s : σ} {t t' : τ} {as : List α} (related : R s t)
    (calls : EachCall step P cs s) (runs : run step' cs t = some (as, t')) :
    ∃ s', run step cs s = some (as, s') ∧ R s' t' := by
  induction cs generalizing s t as with
  | nil =>
    obtain ⟨rfl, rfl⟩ := Prod.mk.inj (Option.some.inj runs)
    exact ⟨s, rfl, related⟩
  | cons c cs ih =>
    cases hstep' : step' t c with
    | none =>
      rw [run, hstep'] at runs
      cases runs
    | some r =>
      obtain ⟨a, t₁⟩ := r
      rw [run_cons hstep', Option.map_eq_some_iff] at runs
      obtain ⟨⟨as', t₂⟩, hrun', heq⟩ := runs
      obtain ⟨rfl, rfl⟩ := Prod.mk.inj heq
      obtain ⟨s₁, hstep, related₁⟩ := simulates s t c a t₁ related calls.1 hstep'
      obtain ⟨s', hrun, related'⟩ := ih related₁ (calls.2 a s₁ hstep) hrun'
      exact ⟨s', by rw [run_cons hstep, hrun]; rfl, related'⟩

/-- Two systems that answer every call alike answer every run alike. -/
theorem run_lockstep {step : σ → κ → Option (α × σ)} {step' : τ → κ → Option (α × τ)}
    {R : σ → τ → Prop}
    (steps : ∀ s t c, R s t →
      Option.Rel (fun r r' => r.1 = r'.1 ∧ R r.2 r'.2) (step s c) (step' t c))
    (cs : List κ) {s : σ} {t : τ} (related : R s t) :
    Option.Rel (fun r r' => r.1 = r'.1 ∧ R r.2 r'.2) (run step cs s) (run step' cs t) := by
  induction cs generalizing s t with
  | nil => exact .some ⟨rfl, related⟩
  | cons c cs ih =>
    have same := steps s t c related
    rw [run, run]
    generalize step s c = r at same ⊢
    generalize step' t c = r' at same ⊢
    cases same with
    | none => exact .none
    | @some r r' h =>
      obtain ⟨a, s'⟩ := r
      obtain ⟨b, t'⟩ := r'
      obtain ⟨rfl, related'⟩ := h
      have rest := ih related'
      simp only
      generalize run step cs s' = q at rest ⊢
      generalize run step' cs t' = q' at rest ⊢
      cases rest with
      | none => exact .none
      | some h => exact .some ⟨congrArg (a :: ·) h.1, h.2⟩

end CallRuns
