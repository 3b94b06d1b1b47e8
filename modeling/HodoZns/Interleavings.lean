import HodoZns.CallRuns
import HodoZns.Programs

/-!
# Interleaved programs

Tasks take turns on a shared state: a step is one command of one of them. Some
commands open a section, some close it; while the sections of the tasks do not
overlap, each of them may be looked at as if the task were alone.
-/

namespace Interleavings

open CallRuns Programs

variable {C : Type} {R : C → Type} {α β σ τ ι γ κ : Type}

/-- The shared state, and what is left of each task. -/
structure Tasks (C : Type) (R : C → Type) (α σ ι : Type) where
  state : σ
  program : ι → Prog C R α

/-- What the task `i` has returned. -/
def Tasks.answer (t : Tasks C R α σ ι) (i : ι) : Option α :=
  match t.program i with
  | .done a => some a
  | _ => none

theorem answer_eq_some {t : Tasks C R α σ ι} {i : ι} {a : α} :
    t.answer i = some a ↔ t.program i = .done a := by
  rw [Tasks.answer]
  cases t.program i with
  | done b => simp only [Option.some.injEq, Prog.done.injEq]
  | crash => simp only [reduceCtorEq]
  | call c next => simp only [reduceCtorEq]

section Steps

variable [DecidableEq ι]

/-- The next command of the task `i`. -/
def taskStep (h : Handler C R σ) (t : Tasks C R α σ ι) (i : ι) : Option (C × Tasks C R α σ ι) :=
  match t.program i with
  | .call c next =>
    match h c t.state with
    | .done (r, s) => some (c, ⟨s, Function.update t.program i (next r)⟩)
    | _ => none
  | _ => none

/-- The task has a command to give, and `P` admits it. -/
def Admits (P : σ → C → Prop) (t : Tasks C R α σ ι) (i : ι) : Prop :=
  match t.program i with
  | .call c _ => P t.state c
  | _ => False

instance (P : σ → C → Prop) [∀ s c, Decidable (P s c)] (t : Tasks C R α σ ι) (i : ι) :
    Decidable (Admits P t i) := by
  unfold Admits
  split <;> infer_instance

theorem taskStep_call {h : Handler C R σ} {t : Tasks C R α σ ι} {i : ι} {c : C}
    {next : R c → Prog C R α} {r : R c} {s : σ} (hi : t.program i = .call c next)
    (hc : h c t.state = .done (r, s)) :
    taskStep h t i = some (c, ⟨s, Function.update t.program i (next r)⟩) := by
  simp only [taskStep, hi, hc]

theorem taskStep_cases {h : Handler C R σ} {t t' : Tasks C R α σ ι} {i : ι} {c : C}
    (hstep : taskStep h t i = some (c, t')) : ∃ next r s, t.program i = .call c next ∧
      h c t.state = .done (r, s) ∧ t' = ⟨s, Function.update t.program i (next r)⟩ := by
  simp only [taskStep] at hstep
  split at hstep
  case h_1 c' next hi =>
    split at hstep
    case h_1 r s hc =>
      obtain ⟨rfl, rfl⟩ := Prod.mk.inj (Option.some.inj hstep)
      exact ⟨next, r, s, hi, hc, rfl⟩
    case h_2 => cases hstep
  case h_2 => cases hstep

/-- Tasks that each run on a state of their own, of which the shared one is made: what the
steps keep, every run of them keeps. -/
theorem separate_run {ν : Type} {h : Handler C R σ} {P : σ → C → Prop}
    {Whole : σ → (ι → ν) → Prop} {Safe : ι → Prog C R α → ν → Prop}
    (steps : ∀ {s vs i c next}, Whole s vs → P s c → Safe i (.call c next) (vs i) →
      ∃ r s' v, h c s = .done (r, s') ∧ Whole s' (Function.update vs i v) ∧ Safe i (next r) v)
    {schedule : List ι} {t : Tasks C R α σ ι} {vs : ι → ν} (whole : Whole t.state vs)
    (safe : ∀ i, Safe i (t.program i) (vs i))
    (admitted : EachCall (taskStep h) (Admits P) schedule t) :
    ∃ cs t' vs', run (taskStep h) schedule t = some (cs, t') ∧ Whole t'.state vs' ∧
      ∀ i, Safe i (t'.program i) (vs' i) := by
  have kept : ∀ (t : Tasks C R α σ ι) i,
      (∃ vs, Whole t.state vs ∧ ∀ i, Safe i (t.program i) (vs i)) → Admits P t i →
      ∃ c t', taskStep h t i = some (c, t') ∧
        ∃ vs, Whole t'.state vs ∧ ∀ i, Safe i (t'.program i) (vs i) := by
    rintro t i ⟨vs, whole, safe⟩ admits
    have hsafe := safe i
    rw [Admits] at admits
    cases hi : t.program i with
    | done a =>
      rw [hi] at admits
      exact admits.elim
    | crash =>
      rw [hi] at admits
      exact admits.elim
    | call c next =>
      rw [hi] at admits hsafe
      obtain ⟨r, s', v, hc, whole', hnext⟩ := steps whole admits hsafe
      refine ⟨c, _, taskStep_call hi hc, Function.update vs i v, whole', fun j => ?_⟩
      by_cases hj : j = i
      · subst hj
        simp only [Function.update_self]
        exact hnext
      · simp only [Function.update_of_ne hj]
        exact safe j
  obtain ⟨cs, t', hrun, vs', whole', safe'⟩ := run_total (Admits P)
    (fun t => ∃ vs, Whole t.state vs ∧ ∀ i, Safe i (t.program i) (vs i)) kept
    ⟨vs, whole, safe⟩ admitted
  exact ⟨cs, t', vs', hrun, whole', safe'⟩

end Steps

section Sections

variable (h : Handler C R τ) (closes : C → Bool)

/-- The program runs up to the command that closes its section, or comes to its end before. -/
def ToClose (Done : α → Prop) (Closed : Prog C R α → τ → Prop) : Prog C R α → τ → Prop
  | .done a, _ => Done a
  | .crash, _ => False
  | .call c next, t => (h c t).Meets fun r t' =>
    if closes c then Closed (next r) t' else ToClose Done Closed (next r) t'

/-- Whatever the answers are, the program closes its section with its last command, and
without that comes to an answer in `E`. -/
def OneSection (E : α → Prop) : Prog C R α → Prop
  | .done a => E a
  | .crash => True
  | .call c next => if closes c then ∀ r, ∃ a, next r = .done a else ∀ r, OneSection E (next r)

variable {h closes}

theorem oneSection_bind {E : β → Prop} {p : Prog C R α} {f : α → Prog C R β}
    (hp : p.Only fun c => closes c = false) (hf : ∀ a, OneSection closes E (f a)) :
    OneSection closes E (p >>= f) := by
  change OneSection closes E (p.bind f)
  induction hp with
  | done a => exact hf a
  | crash => trivial
  | @call c next hc _ ih =>
    simp only [Prog.bind, OneSection, hc, Bool.false_eq_true, if_false]
    exact ih

/-- A section at the beginning of a program, by what is known of its own program. -/
theorem toClose_bind {E : α → Prop} {Q : α → τ → Prop} {p : Prog C R α} {f : α → Prog C R β}
    {Done : β → Prop} {Closed : Prog C R β → τ → Prop} {t : τ} (one : OneSection closes E p)
    (safe : wp h p Q t)
    (ended : ∀ a t', Q a t' → E a → ToClose h closes Done Closed (f a) t')
    (closed : ∀ a t', Q a t' → Closed (f a) t') : ToClose h closes Done Closed (p >>= f) t := by
  change ToClose h closes Done Closed (p.bind f) t
  induction p generalizing t with
  | done a => exact ended a t ((wp_pure h a Q t).mp safe) one
  | crash => exact absurd safe (not_wp_crash h Q t)
  | call c next ih =>
    rw [wp_call] at safe
    rw [OneSection] at one
    simp only [Prog.bind, ToClose]
    cases hc : h c t with
    | noRoom => trivial
    | stuck =>
      rw [hc] at safe
      exact safe.elim
    | done r =>
      rw [hc] at safe
      change wp h (next r.1) Q r.2 at safe
      change if closes c = true then _ else _
      split at one
      case isTrue hcloses =>
        rw [if_pos hcloses]
        obtain ⟨a, ha⟩ := one r.1
        rw [ha] at safe ⊢
        exact closed a r.2 ((wp_pure h a Q r.2).mp safe)
      case isFalse hgoes =>
        rw [if_neg hgoes]
        exact ih r.1 (one r.1) safe

end Sections

/-- A resource that the tasks change in sections. Between the sections `Inv` holds of it for
what has been done, of which each task has its `part`. -/
structure Resource (C : Type) (R : C → Type) (α τ ι γ κ : Type) where
  handler : Handler C R τ
  opens : C → Bool
  closes : C → Bool
  /-- The commands of a section. -/
  Command : C → Prop
  /-- States that a section does not tell apart. -/
  Alike : τ → τ → Prop
  /-- What holds within the sections too. -/
  Fixed : τ → Prop
  Inv : γ → τ → Prop
  part : γ → ι → κ
  /-- The task `i` stands behind a section, with its part done. -/
  Behind : ι → κ → Prog C R α → Prop
  /-- The answer of the task `i` at its end. -/
  End : ι → κ → α → Prop
  Fails : α → Prop

namespace Resource

variable (S : Resource C R α τ ι γ κ)

/-- What a section of the task `i` comes to. -/
def Closed (i : ι) (g : γ) (p : Prog C R α) (t : τ) : Prop :=
  (∃ a, p = .done a ∧ S.Fails a) ∨
    ∃ g', S.Inv g' t ∧ (∀ j, j ≠ i → S.part g' j = S.part g j) ∧ S.Behind i (S.part g' i) p

/-- In the middle of a section, which began with `g`. -/
def Inside (i : ι) (g : γ) (p : Prog C R α) (t : τ) : Prop :=
  p.Only S.Command ∧ ToClose S.handler S.closes S.Fails (S.Closed i g) p t

/-- The commands up to the next section change nothing, whatever other tasks do meanwhile. -/
def Outside (i : ι) (k : κ) : Prog C R α → Prop
  | .done a => S.Fails a ∨ S.End i k a
  | .crash => False
  | .call c next =>
    if S.opens c then ∀ g t, S.part g i = k → S.Inv g t → S.Inside i g (.call c next) t
    else ∀ t, S.Fixed t → (S.handler c t).Meets fun r t' => S.Alike t t' ∧ Outside i k (next r)

/-- What the commands do to the states, and that a task goes on behind a section. -/
structure Lawful : Prop where
  opens_of_closes : ∀ {c}, S.closes c = true → S.opens c = true
  alike : ∀ {c t t'}, S.Command c → S.Alike t t' →
    Outcome.Rel S.Alike (S.handler c t) (S.handler c t')
  command_fixed : ∀ {c r t t'}, S.Command c → S.Fixed t → S.handler c t = .done (r, t') →
    S.Fixed t'
  alike_fixed : ∀ {t t'}, S.Alike t t' → S.Fixed t → S.Fixed t'
  alike_inv : ∀ {g t t'}, S.Alike t t' → S.Inv g t → S.Inv g t'
  fixed_of_inv : ∀ {g t}, S.Inv g t → S.Fixed t
  goesOn : ∀ {i k p}, S.Behind i k p → S.Outside i k p

variable {S}

theorem outside_of_opens {i : ι} {k : κ} {c : C} {next : R c → Prog C R α}
    (opens : S.opens c = true)
    (inside : ∀ g t, S.part g i = k → S.Inv g t → S.Inside i g (.call c next) t) :
    S.Outside i k (.call c next) := by
  rw [Outside, if_pos opens]
  exact inside

theorem outside_of_quiet {i : ι} {k : κ} {c : C} {next : R c → Prog C R α}
    (quiet : S.opens c = false)
    (rest : ∀ t, S.Fixed t → ∃ r t', S.handler c t = .done (r, t') ∧ S.Alike t t' ∧
      S.Outside i k (next r)) : S.Outside i k (.call c next) := by
  rw [Outside, if_neg (by rw [quiet]; decide)]
  intro t fixed
  obtain ⟨r, t', ht, alike, outside⟩ := rest t fixed
  rw [ht]
  exact ⟨alike, outside⟩

theorem closed_alike (lawful : S.Lawful) {i : ι} {g : γ} {p : Prog C R α} {t t' : τ}
    (alike : S.Alike t t') (closed : S.Closed i g p t) : S.Closed i g p t' := by
  rcases closed with fails | ⟨g', inv, parts, behind⟩
  · exact Or.inl fails
  · exact Or.inr ⟨g', lawful.alike_inv alike inv, parts, behind⟩

theorem inside_alike (lawful : S.Lawful) {i : ι} {g : γ} {p : Prog C R α} {t t' : τ}
    (alike : S.Alike t t') (inside : S.Inside i g p t) : S.Inside i g p t' := by
  obtain ⟨only, runs⟩ := inside
  refine ⟨only, ?_⟩
  induction only generalizing t t' with
  | done a => exact runs
  | crash => exact runs
  | @call c next hc _ ih =>
    simp only [ToClose] at runs ⊢
    rcases (lawful.alike hc alike).cases with
      ⟨r, t₁, t₁', ht, ht', alike₁⟩ | ⟨_, ht'⟩ | ⟨ht, _⟩
    · rw [ht] at runs
      rw [ht']
      change if S.closes c = true then _ else _ at runs
      change if S.closes c = true then _ else _
      split at runs
      case isTrue hcloses =>
        rw [if_pos hcloses]
        exact closed_alike lawful alike₁ runs
      case isFalse hgoes =>
        rw [if_neg hgoes]
        exact ih r alike₁ runs
    · rw [ht']
      trivial
    · rw [ht] at runs
      exact runs.elim

end Resource

section Runs

variable [DecidableEq ι]

/-- Who is in a section after a command of the task `i`. -/
def holderAfter (opens closes : C → Bool) (holder : Option ι) (i : ι) (c : C) : Option ι :=
  if closes c then none else if opens c then some i else holder

/-- The step with a note beside the state: which task is in a section. -/
def sectionStep (h : Handler C R σ) (opens closes : C → Bool)
    (s : Tasks C R α σ ι × Option ι) (i : ι) : Option (C × (Tasks C R α σ ι × Option ι)) :=
  (taskStep h s.1 i).map fun (c, t) => (c, t, holderAfter opens closes s.2 i c)

/-- No task opens a section while another one is in its own. -/
def Excludes (opens : C → Bool) (P : σ → C → Prop) (s : Tasks C R α σ ι × Option ι) (i : ι) :
    Prop :=
  Admits (fun t c => P t c ∧ (opens c = true → s.2 = none ∨ s.2 = some i)) s.1 i

instance (opens : C → Bool) (P : σ → C → Prop) [∀ s c, Decidable (P s c)]
    (s : Tasks C R α σ ι × Option ι) (i : ι) : Decidable (Excludes opens P s i) :=
  inferInstanceAs (Decidable (Admits _ _ _))

/-- Until a task fails, the resource is as `Inv` says, or as the one task in a section left
it. -/
def Steady (S : Resource C R α τ ι γ κ) (Rel : σ → τ → Prop) (s : Tasks C R α σ ι × Option ι) :
    Prop :=
  (∃ i a, s.1.program i = .done a ∧ S.Fails a) ∨
    ∃ g t, Rel s.1.state t ∧ S.Fixed t ∧
      (∀ i, s.2 ≠ some i → S.Outside i (S.part g i) (s.1.program i)) ∧
      (s.2 = none → S.Inv g t) ∧ ∀ i, s.2 = some i → S.Inside i g (s.1.program i) t

theorem answer_of_matches {Rel : σ → τ → Prop} {o : Outcome (α × σ)} {o' : Outcome (α × τ)}
    {Q : α → τ → Prop} {a : α} {s : σ} (matched : Matches Rel o o') (ho : o = .done (a, s))
    (meets : o'.Meets Q) : ∃ t, o' = .done (a, t) ∧ Rel s t ∧ Q a t := by
  cases o' with
  | noRoom => exact matched.elim
  | stuck => exact meets.elim
  | done r =>
    obtain ⟨b, t⟩ := r
    obtain ⟨s', ho', related⟩ := matched
    obtain ⟨rfl, rfl⟩ := Prod.mk.inj (Outcome.done.inj (ho.symm.trans ho'))
    exact ⟨t, rfl, related, meets⟩

variable {S : Resource C R α τ ι γ κ} {Rel : σ → τ → Prop} {h : Handler C R σ}
  {P : σ → C → Prop} {s s' : Tasks C R α σ ι × Option ι} {i : ι} {c : C}

/-- A command of the task in the section. -/
theorem steady_of_inside (lawful : S.Lawful) {next : R c → Prog C R α} {r : R c} {g : γ}
    {st : σ} {t : τ} (fixed : S.Fixed t) (inside : S.Inside i g (.call c next) t)
    (matched : Matches Rel (h c s.1.state) (S.handler c t))
    (hc : h c s.1.state = .done (r, st)) (here : S.opens c = true ∨ s.2 = some i)
    (others : ∀ j, j ≠ i → S.Outside j (S.part g j) (s.1.program j)) :
    Steady S Rel (⟨st, Function.update s.1.program i (next r)⟩,
      holderAfter S.opens S.closes s.2 i c) := by
  obtain ⟨only, runs⟩ := inside
  obtain ⟨t', ht, related, hnext⟩ := answer_of_matches matched hc runs
  obtain ⟨hcommand, honly⟩ : S.Command c ∧ ∀ r, (next r).Only S.Command := by
    cases only with
    | call hcommand honly => exact ⟨hcommand, honly⟩
  have fixed' := lawful.command_fixed hcommand fixed ht
  have elsewhere : ∀ j, j ≠ i → Function.update s.1.program i (next r) j = s.1.program j :=
    fun j hj => Function.update_of_ne hj _ _
  have itself : Function.update s.1.program i (next r) i = next r := Function.update_self ..
  split at hnext
  case isTrue hcloses =>
    rw [holderAfter, if_pos hcloses]
    rcases hnext with ⟨a, ha, fails⟩ | ⟨g', inv, parts, behind⟩
    · exact Or.inl ⟨i, a, itself.trans ha, fails⟩
    · refine Or.inr ⟨g', t', related, fixed', fun j _ => ?_, fun _ => inv,
        fun j hj => absurd hj (Option.some_ne_none j).symm⟩
      change S.Outside j _ (Function.update s.1.program i (next r) j)
      by_cases hj : j = i
      · rw [hj, itself]
        exact lawful.goesOn behind
      · rw [elsewhere j hj, parts j hj]
        exact others j hj
  case isFalse hgoes =>
    have hholder : holderAfter S.opens S.closes s.2 i c = some i := by
      rw [holderAfter, if_neg hgoes]
      split
      case isTrue => rfl
      case isFalse hopens => exact here.resolve_left hopens
    rw [hholder]
    refine Or.inr ⟨g, t', related, fixed', fun j hj => ?_,
      fun hnone => absurd hnone (Option.some_ne_none i), fun j hj => ?_⟩
    · have hne : j ≠ i := fun heq => hj (congrArg some heq.symm)
      change S.Outside j _ (Function.update s.1.program i (next r) j)
      rw [elsewhere j hne]
      exact others j hne
    · obtain rfl := Option.some.inj hj
      change S.Inside i g (Function.update s.1.program i (next r) i) t'
      rw [itself]
      exact ⟨honly r, hnext⟩

/-- The step lemma: a failed task stays failed, and other tasks may move while one is in its
section, as long as they open none. -/
theorem steady_step (lawful : S.Lawful)
    (commands : ∀ s t c, Rel s t → P s c → Matches Rel (h c s) (S.handler c t))
    (steady : Steady S Rel s) (admitted : Excludes S.opens P s i)
    (hstep : sectionStep h S.opens S.closes s i = some (c, s')) : Steady S Rel s' := by
  obtain ⟨⟨c', t'⟩, htask, heq⟩ := Option.map_eq_some_iff.mp hstep
  obtain ⟨rfl, rfl⟩ := Prod.mk.inj heq
  obtain ⟨next, r, st, hi, hc, rfl⟩ := taskStep_cases htask
  simp only [Excludes, Admits, hi] at admitted
  obtain ⟨allowed, alone⟩ := admitted
  rcases steady with ⟨j, a, hj, fails⟩ | ⟨g, t, related, fixed, outside, between, inside⟩
  · have hne : j ≠ i := by
      rintro rfl
      rw [hi] at hj
      cases hj
    exact Or.inl ⟨j, a, (Function.update_of_ne hne _ _).trans hj, fails⟩
  · have matched := commands _ _ c' related allowed
    by_cases hin : s.2 = some i
    · have hinside := inside i hin
      rw [hi] at hinside
      refine steady_of_inside lawful fixed hinside matched hc (Or.inr hin) fun j hj => outside j ?_
      rw [hin]
      exact fun heq => hj (Option.some.inj heq).symm
    · have hout := outside i hin
      rw [hi, Resource.Outside] at hout
      split at hout
      case isTrue hopens =>
        have hnone := (alone hopens).resolve_right hin
        refine steady_of_inside lawful fixed (hout g t rfl (between hnone)) matched hc
          (Or.inl hopens) fun j _ => outside j ?_
        rw [hnone]
        exact (Option.some_ne_none j).symm
      case isFalse hquiet =>
        obtain ⟨t', _, related', alike, hnext⟩ :=
          answer_of_matches matched hc (hout t fixed)
        have hholder : holderAfter S.opens S.closes s.2 i c' = s.2 := by
          rw [holderAfter, if_neg fun hcloses => hquiet (lawful.opens_of_closes hcloses),
            if_neg hquiet]
        rw [hholder]
        refine Or.inr ⟨g, t', related', lawful.alike_fixed alike fixed, fun j hj => ?_,
          fun hnone => lawful.alike_inv alike (between hnone), fun j hj => ?_⟩
        · change S.Outside j _ (Function.update s.1.program i (next r) j)
          by_cases hji : j = i
          · rw [hji, Function.update_self]
            exact hnext
          · rw [Function.update_of_ne hji]
            exact outside j hj
        · have hji : j ≠ i := fun heq => hin (heq ▸ hj)
          change S.Inside j g (Function.update s.1.program i (next r) j) t'
          rw [Function.update_of_ne hji]
          exact Resource.inside_alike lawful alike (inside j hj)

/-- A run in which no sections overlap. -/
theorem steady_run (lawful : S.Lawful)
    (commands : ∀ s t c, Rel s t → P s c → Matches Rel (h c s) (S.handler c t))
    {schedule : List ι} {cs : List C} (steady : Steady S Rel s)
    (admitted : EachCall (sectionStep h S.opens S.closes) (Excludes S.opens P) schedule s)
    (hrun : run (sectionStep h S.opens S.closes) schedule s = some (cs, s')) :
    Steady S Rel s' :=
  run_keeps_calls (Excludes S.opens P) (Steady S Rel)
    (fun _ _ _ _ steady admitted => steady_step lawful commands steady admitted)
    steady admitted hrun

omit [DecidableEq ι] in
/-- Once all tasks have returned and none has failed, each one's part is done. -/
theorem parts_done (steady : Steady S Rel s)
    (returned : ∀ i, ∃ a, s.1.answer i = some a ∧ ¬ S.Fails a) :
    ∃ g t, Rel s.1.state t ∧ S.Inv g t ∧
      ∀ i a, s.1.answer i = some a → S.End i (S.part g i) a := by
  simp only [answer_eq_some] at returned ⊢
  rcases steady with ⟨i, a, hi, fails⟩ | ⟨g, t, related, _, outside, between, inside⟩
  · obtain ⟨a', hi', succeeds⟩ := returned i
    obtain rfl : a = a' := Prog.done.inj (hi.symm.trans hi')
    exact absurd fails succeeds
  · have hnone : s.2 = none := by
      cases hs : s.2 with
      | none => rfl
      | some i =>
        obtain ⟨a, hi, succeeds⟩ := returned i
        have hinside := (inside i hs).2
        rw [hi] at hinside
        exact absurd hinside succeeds
    refine ⟨g, t, related, between hnone, fun i a hi => ?_⟩
    have hout := outside i (by rw [hnone]; exact (Option.some_ne_none i).symm)
    obtain ⟨a', hi', succeeds⟩ := returned i
    obtain rfl : a = a' := Prog.done.inj (hi.symm.trans hi')
    rw [hi] at hout
    exact hout.resolve_left succeeds

end Runs

end Interleavings
