import Mathlib.Tactic.Common

/-!
# Grace periods

A reader has sections in which what it has come by stays in memory. An object that is taken out
of a structure is freed by a callback, which is queued and waits for the sections that are under
way then. So a reader may come by an object that is in the structure, or whose callback waits for
its section (`Seen`); what it has come by it can rely on until its section ends (`Seen.requeue`).
-/

namespace GracePeriods

variable {ρ γ χ : Type} [DecidableEq ρ] [DecidableEq γ] [DecidableEq χ]

/-- The readers whose sections are under way, and those that each callback waits for. -/
structure State (ρ γ : Type) where
  sections : List ρ
  waits : γ → List ρ

namespace State

/-- `r` begins a section. -/
def lock (s : State ρ γ) (r : ρ) : State ρ γ := { s with sections := r :: s.sections }

/-- `r` ends its section. -/
def unlock (s : State ρ γ) (r : ρ) : State ρ γ where
  sections := s.sections.filter (· ≠ r)
  waits g := (s.waits g).filter (· ≠ r)

/-- The queue of the callbacks goes from `queue` to `queue'`: what is new in it waits for the
sections that are under way. -/
def requeue (s : State ρ γ) (queue queue' : List γ) : State ρ γ where
  sections := s.sections
  waits g := if g ∈ queue' ∧ g ∉ queue then s.sections else s.waits g

/-- The grace period of the callback `g` is over. -/
def Expired (s : State ρ γ) (g : γ) : Prop := s.waits g = []

instance decidableExpired (s : State ρ γ) (g : γ) : Decidable (s.Expired g) :=
  inferInstanceAs (Decidable (s.waits g = []))

/-- The reader `r` can come by the object `x` in its section: `x` is in the structure, or its
callback waits for `r`. -/
def Seen (s : State ρ γ) (callback : χ → γ) (live : List χ) (queue : List γ) (r : ρ) (x : χ) :
    Prop :=
  x ∈ live ∨ (callback x ∈ queue ∧ r ∈ s.waits (callback x))

instance decidableSeen (s : State ρ γ) (callback : χ → γ) (live : List χ) (queue : List γ) (r : ρ)
    (x : χ) : Decidable (s.Seen callback live queue r x) :=
  inferInstanceAs (Decidable (x ∈ live ∨ (callback x ∈ queue ∧ r ∈ s.waits (callback x))))

/-- The callbacks in the queue wait for sections that are under way. -/
def Bounded (s : State ρ γ) (queue : List γ) : Prop := ∀ g ∈ queue, ∀ r ∈ s.waits g, r ∈ s.sections

end State

variable {s : State ρ γ} {callback : χ → γ} {live live' : List χ} {queue queue' : List γ}
  {r r' : ρ} {x : χ}

omit [DecidableEq ρ] [DecidableEq γ] [DecidableEq χ] in
theorem State.Bounded.lock (h : s.Bounded queue) (r : ρ) : (s.lock r).Bounded queue :=
  fun g hg r' hr' => List.mem_cons_of_mem _ (h g hg r' hr')

omit [DecidableEq γ] [DecidableEq χ] in
theorem State.Bounded.unlock (h : s.Bounded queue) (r : ρ) : (s.unlock r).Bounded queue := by
  intro g hg r' hr'
  obtain ⟨hmem, hne⟩ := List.mem_filter.mp hr'
  exact List.mem_filter.mpr ⟨h g hg r' hmem, hne⟩

omit [DecidableEq ρ] [DecidableEq χ] in
theorem State.Bounded.requeue (h : s.Bounded queue) (queue' : List γ) :
    (s.requeue queue queue').Bounded queue' := by
  intro g hg r hr
  change r ∈ if g ∈ queue' ∧ g ∉ queue then s.sections else s.waits g at hr
  split at hr
  · exact hr
  · next hnot => exact h g (by_contra fun hold => hnot ⟨hg, hold⟩) r hr

omit [DecidableEq γ] [DecidableEq χ] in
/-- The sections of other readers do not matter. -/
theorem State.Seen.unlock (h : s.Seen callback live queue r x) (hne : r ≠ r') :
    (s.unlock r').Seen callback live queue r x := by
  rcases h with hlive | ⟨hmem, hwait⟩
  · exact Or.inl hlive
  · exact Or.inr ⟨hmem, List.mem_filter.mpr ⟨hwait, by simpa using hne⟩⟩

omit [DecidableEq ρ] [DecidableEq χ] in
/-- What a reader has come by stays while objects are taken out and callbacks run: each object that
is taken out has its callback queued, and a callback runs only when its grace period is over. -/
theorem State.Seen.requeue (h : s.Seen callback live queue r x) (hr : r ∈ s.sections)
    (hfree : x ∈ live → x ∈ live' ∨ (callback x ∈ queue' ∧ callback x ∉ queue))
    (hrun : ∀ g ∈ queue, g ∈ queue' ∨ s.Expired g) :
    (s.requeue queue queue').Seen callback live' queue' r x := by
  rcases h with hlive | ⟨hmem, hwait⟩
  · rcases hfree hlive with hlive' | ⟨hmem', hnot⟩
    · exact Or.inl hlive'
    · refine Or.inr ⟨hmem', ?_⟩
      show r ∈ if _ then _ else _
      rw [if_pos ⟨hmem', hnot⟩]
      exact hr
  · rcases hrun _ hmem with hmem' | hexpired
    · refine Or.inr ⟨hmem', ?_⟩
      show r ∈ if _ then _ else _
      rw [if_neg fun hnew => hnew.2 hmem]
      exact hwait
    · unfold State.Expired at hexpired
      rw [hexpired] at hwait
      exact absurd hwait List.not_mem_nil

end GracePeriods
