import Mathlib.Tactic.Common

/-!
# Runs of systems whose steps may fault

A system is a function `step : σ → α → Except ε σ`: the label `α` carries everything a step does not
decide by itself (which party moves, what its environment answers), an error is a fault. A run is a
list of labels. Two rules are proved here once:

* `run_invariant`: what every step that meets a condition keeps, without faulting, every run whose
  steps all meet it keeps, without faulting; `run_invariant_of` lets the steps rely on a property
  that all states of the run have, and `throughout_iff_meets` says which runs stay in a property;
* `runOut_eq`: two systems whose steps answer alike in related states answer alike along every run.
-/

namespace Runs

universe u v

variable {ε σ τ β : Type u} {α : Type v}

@[simp] theorem ok_bind {γ δ : Type u} (a : γ) (f : γ → Except ε δ) :
    ((Except.ok a : Except ε γ) >>= f) = f a := rfl

@[simp] theorem error_bind {γ δ : Type u} (e : ε) (f : γ → Except ε δ) :
    ((Except.error e : Except ε γ) >>= f) = .error e := rfl

theorem bind_eq_ok {γ δ : Type u} {x : Except ε γ} {f : γ → Except ε δ} {b : δ} :
    x >>= f = .ok b ↔ ∃ a, x = .ok a ∧ f a = .ok b := by
  cases x with
  | error e => simp
  | ok a => simp

theorem exists_of_map_eq_ok {γ δ : Type u} {x : Except ε γ} {f : γ → δ} {b : δ}
    (h : x.map f = .ok b) : ∃ a, x = .ok a ∧ f a = b := by
  cases x with
  | error e => simp [Except.map] at h
  | ok a => exact ⟨a, rfl, Except.ok.inj h⟩

/-- A traversal that never faults is a map. -/
theorem mapM_eq_ok {γ δ : Type u} {f : γ → Except ε δ} {g : γ → δ} {xs : List γ}
    (h : ∀ x ∈ xs, f x = .ok (g x)) : xs.mapM f = .ok (xs.map g) := by
  induction xs with
  | nil => rfl
  | cons x xs ih =>
      have hrest := ih fun y hy => h y (List.mem_cons_of_mem x hy)
      rw [List.mapM_cons, h x List.mem_cons_self, ok_bind, hrest]
      rfl

/-- Take the steps `as` one after another. -/
def run (step : σ → α → Except ε σ) : σ → List α → Except ε σ
  | s, [] => .ok s
  | s, a :: as => do
    let s' ← step s a
    run step s' as

/-- Every step of the run `as` from `s` is taken in a state and with a label that satisfy `C`. -/
def Meets (step : σ → α → Except ε σ) (C : σ → α → Prop) : σ → List α → Prop
  | _, [] => True
  | s, a :: as => C s a ∧ match step s a with
    | .ok s' => Meets step C s' as
    | .error _ => True

instance decidableMeets (step : σ → α → Except ε σ) (C : σ → α → Prop)
    [∀ s a, Decidable (C s a)] : ∀ s as, Decidable (Meets step C s as)
  | _, [] => instDecidableTrue
  | s, a :: as =>
    have : Decidable (match step s a with
        | .ok s' => Meets step C s' as
        | .error _ => True) :=
      match step s a with
      | .ok s' => decidableMeets step C s' as
      | .error _ => instDecidableTrue
    instDecidableAnd

/-- Every state of the run `as` from `s`, the first and the last included, satisfies `P`. -/
def Throughout (step : σ → α → Except ε σ) (P : σ → Prop) : σ → List α → Prop
  | s, [] => P s
  | s, a :: as => P s ∧ match step s a with
    | .ok s' => Throughout step P s' as
    | .error _ => True

instance decidableThroughout (step : σ → α → Except ε σ) (P : σ → Prop) [∀ s, Decidable (P s)] :
    ∀ s as, Decidable (Throughout step P s as)
  | s, [] => inferInstanceAs (Decidable (P s))
  | s, a :: as =>
    have : Decidable (match step s a with
        | .ok s' => Throughout step P s' as
        | .error _ => True) :=
      match step s a with
      | .ok s' => decidableThroughout step P s' as
      | .error _ => instDecidableTrue
    instDecidableAnd

variable {step : σ → α → Except ε σ} {C : σ → α → Prop} {I P : σ → Prop}

theorem Throughout.head {s : σ} {as : List α} (h : Throughout step P s as) : P s := by
  cases as with
  | nil => exact h
  | cons a as => exact h.1

theorem Throughout.imp {Q : σ → Prop} (hPQ : ∀ s, P s → Q s) {s : σ} {as : List α}
    (h : Throughout step P s as) : Throughout step Q s as := by
  induction as generalizing s with
  | nil => exact hPQ s h
  | cons a as ih =>
      have hrest := h.2
      refine ⟨hPQ s h.1, ?_⟩
      cases hs : step s a with
      | error e => trivial
      | ok s' =>
          rw [hs] at hrest
          exact ih hrest

/-- An invariant of the steps that meet `C`, between states that satisfy `P`, is an invariant of the
runs that meet `C` and stay in `P`. -/
theorem run_invariant_of
    (hstep : ∀ s a, I s → P s → C s a → ∃ s', step s a = .ok s' ∧ (P s' → I s'))
    {s : σ} {as : List α} (hs : I s) (hP : Throughout step P s as) (has : Meets step C s as) :
    ∃ s', run step s as = .ok s' ∧ I s' := by
  induction as generalizing s with
  | nil => exact ⟨s, rfl, hs⟩
  | cons a as ih =>
      obtain ⟨s₁, hs₁, hI₁⟩ := hstep s a hs hP.1 has.1
      have hrest := has.2
      have hP₁ := hP.2
      rw [hs₁] at hrest hP₁
      -- `I` holds in `s₁`, since the rest of the run begins in `P`
      obtain ⟨s', hrun, hI'⟩ := ih (hI₁ hP₁.head) hP₁ hrest
      exact ⟨s', by simp only [run, hs₁, ok_bind, hrun], hI'⟩

/-- Steps that keep an invariant between states that satisfy `P`, and meet `C` there, make runs that
do both as long as they stay in `P`. -/
theorem run_invariant_meets
    (hstep : ∀ s a, I s → P s → ∃ s', step s a = .ok s' ∧ (P s' → I s' ∧ C s a))
    {s : σ} {as : List α} (hs : I s) (hP : Throughout step P s as) :
    ∃ s', run step s as = .ok s' ∧ I s' ∧ Meets step C s as := by
  induction as generalizing s with
  | nil => exact ⟨s, rfl, hs, trivial⟩
  | cons a as ih =>
      obtain ⟨s₁, hs₁, hboth⟩ := hstep s a hs hP.1
      have hrest := hP.2
      rw [hs₁] at hrest
      obtain ⟨hI₁, hC⟩ := hboth hrest.head
      obtain ⟨s', hrun, hI', hmeets⟩ := ih hI₁ hrest
      refine ⟨s', ?_, hI', hC, ?_⟩
      · simp only [run, hs₁, ok_bind, hrun]
      · rw [hs₁]
        exact hmeets

/-- A run that stays in `P` does so from any of its states on. -/
theorem Throughout.split {s s₁ : σ} {as bs : List α} (h : Throughout step P s (as ++ bs))
    (hrun : run step s as = .ok s₁) : Throughout step P s₁ bs := by
  induction as generalizing s with
  | nil =>
      obtain rfl := Except.ok.inj hrun
      exact h
  | cons a as ih =>
      have hrest := h.2
      cases hs : step s a with
      | error e => simp [run, hs] at hrun
      | ok s' =>
          rw [hs] at hrest
          apply ih hrest
          simpa only [run, hs, ok_bind] using hrun

theorem Throughout.left {s : σ} {as bs : List α} (h : Throughout step P s (as ++ bs)) :
    Throughout step P s as := by
  induction as generalizing s with
  | nil => exact h.head
  | cons a as ih =>
      have hrest := h.2
      refine ⟨h.1, ?_⟩
      cases hs : step s a with
      | error e => trivial
      | ok s' =>
          rw [hs] at hrest
          exact ih hrest

theorem throughout_true (s : σ) (as : List α) : Throughout step (fun _ => True) s as := by
  induction as generalizing s with
  | nil => trivial
  | cons a as ih =>
      refine ⟨trivial, ?_⟩
      cases step s a with
      | error e => trivial
      | ok s' => exact ih s'

/-- What holds of every label of a run in every state, holds along the run. -/
theorem meets_of_forall {as : List α} (h : ∀ a ∈ as, ∀ s, C s a) (s : σ) : Meets step C s as := by
  induction as generalizing s with
  | nil => trivial
  | cons a as ih =>
      refine ⟨h a (List.mem_cons_self ..) s, ?_⟩
      cases step s a with
      | error e => trivial
      | ok s' => exact ih (fun b hb => h b (List.mem_cons_of_mem _ hb)) s'

theorem meets_true (s : σ) (as : List α) : Meets step (fun _ _ => True) s as :=
  meets_of_forall (fun _ _ _ => trivial) s

/-- An invariant of the steps that meet `C` is an invariant of the runs that meet `C`. -/
theorem run_invariant (hstep : ∀ s a, I s → C s a → ∃ s', step s a = .ok s' ∧ I s')
    {s : σ} {as : List α} (hs : I s) (has : Meets step C s as) :
    ∃ s', run step s as = .ok s' ∧ I s' := by
  refine run_invariant_of (P := fun _ => True) (fun s a hI _ hC => ?_) hs (throughout_true s as) has
  obtain ⟨s', hs', hI'⟩ := hstep s a hI hC
  exact ⟨s', hs', fun _ => hI'⟩

/-- An invariant of all steps is an invariant of all runs. -/
theorem run_invariant_always (hstep : ∀ s a, I s → ∃ s', step s a = .ok s' ∧ I s') {s : σ}
    (hs : I s) (as : List α) : ∃ s', run step s as = .ok s' ∧ I s' := by
  apply run_invariant (C := fun _ _ => True) _ hs (meets_true s as)
  intro s a hI _
  exact hstep s a hI

/-- If a step from a state in `I` and `P` keeps `P` if and only if it meets `C`, the runs that stay
in `P` are those that meet `C`. -/
theorem throughout_iff_meets
    (hstep : ∀ s a, I s → ∃ s', step s a = .ok s' ∧ I s' ∧ (P s → (P s' ↔ C s a)))
    {s : σ} (hs : I s) (hP : P s) (as : List α) : Throughout step P s as ↔ Meets step C s as := by
  induction as generalizing s with
  | nil => exact iff_of_true hP trivial
  | cons a as ih =>
      obtain ⟨s₁, hs₁, hI₁, hiff⟩ := hstep s a hs
      have hiff := hiff hP
      -- whether the first step meets `C` shows in `s₁`, where the rest of the run begins
      simp only [Throughout, Meets, hs₁]
      constructor
      · rintro ⟨-, hrest⟩
        exact ⟨hiff.mp hrest.head, (ih hI₁ hrest.head).mp hrest⟩
      · rintro ⟨hC, hrest⟩
        exact ⟨hP, (ih hI₁ (hiff.mpr hC)).mpr hrest⟩

/-- Steps that meet `C` from states in `I` meet `D` too, so the runs do. -/
theorem Meets.imp_of_invariant {D : σ → α → Prop}
    (hstep : ∀ s a, I s → C s a → D s a ∧ ∀ s', step s a = .ok s' → I s')
    {s : σ} {as : List α} (hs : I s) (has : Meets step C s as) : Meets step D s as := by
  induction as generalizing s with
  | nil => trivial
  | cons a as ih =>
      obtain ⟨hD, hI⟩ := hstep s a hs has.1
      have hrest := has.2
      refine ⟨hD, ?_⟩
      cases hs' : step s a with
      | error e => trivial
      | ok s' =>
          rw [hs'] at hrest
          exact ih (hI s' hs') hrest

theorem run_append (s : σ) (as bs : List α) :
    run step s (as ++ bs) = (do let s' ← run step s as; run step s' bs) := by
  induction as generalizing s with
  | nil => rfl
  | cons a as ih =>
      simp only [List.cons_append, run]
      cases step s a with
      | error e => rfl
      | ok s₁ => simpa using ih s₁

theorem Meets.left {s : σ} {as bs : List α} (h : Meets step C s (as ++ bs)) :
    Meets step C s as := by
  induction as generalizing s with
  | nil => trivial
  | cons a as ih =>
      have hrest := h.2
      refine ⟨h.1, ?_⟩
      cases hs : step s a with
      | error e => trivial
      | ok s' =>
          rw [hs] at hrest
          exact ih hrest

/-- A run that meets `C` does so from any of its states on. -/
theorem Meets.split {s s₁ : σ} {as bs : List α} (h : Meets step C s (as ++ bs))
    (hrun : run step s as = .ok s₁) : Meets step C s₁ bs := by
  induction as generalizing s with
  | nil =>
      obtain rfl := Except.ok.inj hrun
      exact h
  | cons a as ih =>
      have hrest := h.2
      cases hs : step s a with
      | error e => simp [run, hs] at hrun
      | ok s' =>
          rw [hs] at hrest
          apply ih hrest
          simpa only [run, hs, ok_bind] using hrun

/-- A run that goes through takes one more step. -/
theorem run_concat {s s' : σ} {as : List α} (hrun : run step s as = .ok s') (a : α) :
    run step s (as ++ [a]) = step s' a := by
  rw [run_append, hrun, ok_bind]
  simp only [run]
  cases step s' a <;> rfl

theorem Meets.concat {s s' : σ} {as : List α} {a : α} (has : Meets step C s as)
    (hrun : run step s as = .ok s') (ha : C s' a) : Meets step C s (as ++ [a]) := by
  induction as generalizing s with
  | nil =>
      obtain rfl := Except.ok.inj hrun
      refine ⟨ha, ?_⟩
      cases step s a <;> trivial
  | cons b as ih =>
      have hrest := has.2
      refine ⟨has.1, ?_⟩
      cases hs : step s b with
      | error e => trivial
      | ok s₁ =>
          rw [hs] at hrest
          apply ih hrest
          simpa only [run, hs, ok_bind] using hrun

/-- Two systems whose steps keep `R`, when the right one meets `C`, have runs that go
through together. -/
theorem run_lockstep {stepL : σ → α → Except ε σ} {stepR : τ → α → Except ε τ} {R : σ → τ → Prop}
    {D : τ → α → Prop}
    (hstep : ∀ s t a, R s t → D t a → ∃ s' t', stepL s a = .ok s' ∧ stepR t a = .ok t' ∧ R s' t')
    {s : σ} {t : τ} {as : List α} (hR : R s t) (has : Meets stepR D t as) :
    ∃ s' t', run stepL s as = .ok s' ∧ run stepR t as = .ok t' ∧ R s' t' := by
  induction as generalizing s t with
  | nil => exact ⟨s, t, rfl, rfl, hR⟩
  | cons a as ih =>
      obtain ⟨s₁, t₁, hs₁, ht₁, hR₁⟩ := hstep s t a hR has.1
      have hrest := has.2
      rw [ht₁] at hrest
      obtain ⟨s', t', hs', ht', hR'⟩ := ih hR₁ hrest
      refine ⟨s', t', ?_, ?_, hR'⟩
      · simp only [run, hs₁, ok_bind, hs']
      · simp only [run, ht₁, ok_bind, ht']

/-- Some step of the run `as` from `s` is taken in a state and with a label that satisfy `C`. -/
def Hits (step : σ → α → Except ε σ) (C : σ → α → Prop) : σ → List α → Prop
  | _, [] => False
  | s, a :: as => C s a ∨ match step s a with
    | .ok s' => Hits step C s' as
    | .error _ => False

theorem Hits.tail {s s' : σ} {a : α} {as : List α} (hs : step s a = .ok s')
    (h : Hits step C s' as) : Hits step C s (a :: as) := by
  right
  rw [hs]
  exact h

/-! ## Steps that answer -/

/-- Take the steps `as` one after another and collect their answers. -/
def runOut (step : σ → α → Except ε (σ × β)) : σ → List α → Except ε (σ × List β)
  | s, [] => .ok (s, [])
  | s, a :: as => do
    let (s', b) ← step s a
    let (s'', bs) ← runOut step s' as
    .ok (s'', b :: bs)

/-- Every step of the run `as` from `s` is taken in a state and with a label that satisfy `C`. -/
def MeetsOut (step : σ → α → Except ε (σ × β)) (C : σ → α → Prop) : σ → List α → Prop
  | _, [] => True
  | s, a :: as => C s a ∧ match step s a with
    | .ok (s', _) => MeetsOut step C s' as
    | .error _ => True

instance decidableMeetsOut (step : σ → α → Except ε (σ × β)) (C : σ → α → Prop)
    [∀ s a, Decidable (C s a)] : ∀ s as, Decidable (MeetsOut step C s as)
  | _, [] => instDecidableTrue
  | s, a :: as =>
    have : Decidable (match step s a with
        | .ok (s', _) => MeetsOut step C s' as
        | .error _ => True) :=
      match step s a with
      | .ok (s', _) => decidableMeetsOut step C s' as
      | .error _ => instDecidableTrue
    instDecidableAnd

/-- Steps that keep `R` and answer alike, when the left one meets `C`, make runs that
answer alike. -/
theorem runOut_eq {stepL : σ → α → Except ε (σ × β)} {stepR : τ → α → Except ε (τ × β)}
    {R : σ → τ → Prop} {C : σ → α → Prop}
    (hstep : ∀ s t a, R s t → C s a →
      ∃ s' t' b, stepL s a = .ok (s', b) ∧ stepR t a = .ok (t', b) ∧ R s' t')
    {s : σ} {t : τ} {as : List α} (hR : R s t) (has : MeetsOut stepL C s as) :
    ∃ s' t' bs, runOut stepL s as = .ok (s', bs) ∧ runOut stepR t as = .ok (t', bs) ∧ R s' t' := by
  induction as generalizing s t with
  | nil => exact ⟨s, t, [], rfl, rfl, hR⟩
  | cons a as ih =>
      obtain ⟨s₁, t₁, b, hs₁, ht₁, hR₁⟩ := hstep s t a hR has.1
      have hrest := has.2
      rw [hs₁] at hrest
      obtain ⟨s', t', bs, hs', ht', hR'⟩ := ih hR₁ hrest
      refine ⟨s', t', b :: bs, ?_, ?_, hR'⟩
      · simp only [runOut, hs₁, ok_bind, hs']
      · simp only [runOut, ht₁, ok_bind, ht']

end Runs
