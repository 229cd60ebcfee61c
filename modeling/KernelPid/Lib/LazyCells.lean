import Mathlib.Logic.Function.Basic
import Mathlib.Tactic.Common

/-!
# Cells that are filled on demand

Parties ask for the values of keys. A party looks into the cell of its key; if that is empty, it
takes the lock, looks again, makes a value and stores it if the cell is still empty, gives up the
lock, and looks once more. A value cannot always be made.

Whatever the interleaving, a value is only made for a cell that is empty, so each cell is written
once and every answer is what the cell holds for good: `Guarded` is the invariant, and
`step_cell` says what a step does to the cells. A party that comes back without a value could not
make one itself.
-/

namespace LazyCells

universe u v w

variable {κ : Type u} {ν : Type v} {τ : Type w}

/-- Where a party stands; `failed` is whether it could not make a value, which nothing
depends on. -/
inductive Pc (κ : Type u) (ν : Type v)
  | idle
  | look (k : κ)
  | lock (k : κ)
  | check (k : κ)
  | make (k : κ)
  | unlock (k : κ) (failed : Bool)
  | reread (k : κ) (failed : Bool)
  | done (k : κ) (r : Option ν) (failed : Bool)

/-- The key that the party asks for. -/
def Pc.key? : Pc κ ν → Option κ
  | .idle => none
  | .look k | .lock k | .check k | .make k | .unlock k _ | .reread k _ | .done k _ _ => some k

/-- The party has the lock. -/
def Pc.Inside : Pc κ ν → Prop
  | .check _ | .make _ | .unlock _ _ => True
  | _ => False

/-- The cells, who has the lock, and where everyone stands. -/
structure State (κ : Type u) (ν : Type v) (τ : Type w) where
  cell : κ → Option ν
  holder : Option τ
  pc : τ → Pc κ ν

/-- All cells are empty. -/
def State.init : State κ ν τ where
  cell _ := none
  holder := none
  pc _ := .idle

/-! ## The invariant -/

/-- What the place of a party says about the cells. -/
def Pc.Holds (cell : κ → Option ν) : Pc κ ν → Prop
  | .make k => cell k = none
  | .unlock k failed | .reread k failed => failed = false → cell k ≠ none
  | .done k (some v) _ => cell k = some v
  | .done _ none failed => failed = true
  | _ => True

/-- One party at a time has the lock, and everyone is where the cells say. -/
structure Guarded (s : State κ ν τ) : Prop where
  inside : ∀ t, (s.pc t).Inside ↔ s.holder = some t
  holds : ∀ t, (s.pc t).Holds s.cell

theorem guarded_init : Guarded (State.init : State κ ν τ) where
  inside t := by simp [State.init, Pc.Inside]
  holds t := trivial

section Steps

variable [DecidableEq τ] {s : State κ ν τ} {t : τ} {k : κ} {pc : Pc κ ν}

/-! ## The steps -/

def State.setPc (s : State κ ν τ) (t : τ) (pc : Pc κ ν) : State κ ν τ :=
  { s with pc := Function.update s.pc t pc }

/-- `t` asks for `k`. -/
def State.ask (s : State κ ν τ) (t : τ) (k : κ) : State κ ν τ := s.setPc t (.look k)

/-- `t` takes its answer along. -/
def State.leave (s : State κ ν τ) (t : τ) : State κ ν τ := s.setPc t .idle

/-- A party moves, without the lock. -/
theorem Guarded.setPc (h : Guarded s) (hinside : pc.Inside ↔ (s.pc t).Inside)
    (hpc : pc.Holds s.cell) : Guarded (s.setPc t pc) := by
  refine ⟨fun u => ?_, fun u => ?_⟩
  · show (Function.update s.pc t pc u).Inside ↔ _
    by_cases hu : u = t
    · subst hu
      rw [Function.update_self, hinside]
      exact h.inside u
    · rw [Function.update_of_ne hu]
      exact h.inside u
  · show (Function.update s.pc t pc u).Holds s.cell
    by_cases hu : u = t
    · subst hu
      rwa [Function.update_self]
    · rw [Function.update_of_ne hu]
      exact h.holds u

/-- The lock is taken or given up. -/
theorem Guarded.setHolder (h : Guarded s) {o : Option τ} (hpc : pc.Holds s.cell)
    (hself : pc.Inside ↔ o = some t) (hother : ∀ u, u ≠ t → (s.holder = some u ↔ o = some u)) :
    Guarded { s.setPc t pc with holder := o } := by
  refine ⟨fun u => ?_, fun u => ?_⟩
  · show (Function.update s.pc t pc u).Inside ↔ o = some u
    by_cases hu : u = t
    · subst hu
      rwa [Function.update_self]
    · rw [Function.update_of_ne hu, h.inside u]
      exact hother u hu
  · show (Function.update s.pc t pc u).Holds s.cell
    by_cases hu : u = t
    · subst hu
      rwa [Function.update_self]
    · rw [Function.update_of_ne hu]
      exact h.holds u

theorem Guarded.ask (h : Guarded s) (hpc : s.pc t = .idle) (k : κ) : Guarded (s.ask t k) :=
  h.setPc (by simp [hpc, Pc.Inside]) trivial

theorem Guarded.leave (h : Guarded s) {r : Option ν} {failed : Bool}
    (hpc : s.pc t = .done k r failed) : Guarded (s.leave t) :=
  h.setPc (by simp [hpc, Pc.Inside]) trivial

variable [DecidableEq κ]

/-- The next step of `t`; `made` is the value, when one is made. -/
def State.step (s : State κ ν τ) (t : τ) (made : Option ν) : State κ ν τ :=
  match s.pc t with
  | .idle | .done _ _ _ => s
  | .look k =>
    match s.cell k with
    | some v => s.setPc t (.done k (some v) false)
    | none => s.setPc t (.lock k)
  | .lock k =>
    match s.holder with
    | none => { s.setPc t (.check k) with holder := some t }
    | some _ => s
  | .check k =>
    match s.cell k with
    | some _ => s.setPc t (.unlock k false)
    | none => s.setPc t (.make k)
  | .make k => { s.setPc t (.unlock k made.isNone) with cell := Function.update s.cell k made }
  | .unlock k failed => { s.setPc t (.reread k failed) with holder := none }
  | .reread k failed => s.setPc t (.done k (s.cell k) failed)

/-- What holds of an empty cell's neighbours still holds when it is filled by the one who
has the lock. -/
theorem Guarded.store (h : Guarded s) (hpc : s.pc t = .make k) (made : Option ν) :
    Guarded { s.setPc t (.unlock k made.isNone) with cell := Function.update s.cell k made } := by
  have hempty : s.cell k = none := by
    have hholds := h.holds t
    rwa [hpc] at hholds
  have hlock : s.holder = some t := (h.inside t).mp (by rw [hpc]; trivial)
  refine ⟨fun u => ?_, fun u => ?_⟩
  · show (Function.update s.pc t _ u).Inside ↔ s.holder = some u
    by_cases hu : u = t
    · subst hu
      rw [Function.update_self]
      exact iff_of_true trivial hlock
    · rw [Function.update_of_ne hu]
      exact h.inside u
  · show (Function.update s.pc t _ u).Holds (Function.update s.cell k made)
    by_cases hu : u = t
    · subst hu
      rw [Function.update_self]
      intro hmade hnone
      rw [Function.update_self] at hnone
      simp [hnone] at hmade
    · rw [Function.update_of_ne hu]
      have hold := h.holds u
      -- nobody else is about to fill a cell, and the others know of full ones only
      have hout : ¬ (s.pc u).Inside :=
        fun hin => hu (Option.some.inj ((h.inside u).mp hin |>.symm.trans hlock))
      cases hpcu : s.pc u with
      | idle | look _ | lock _ | check _ => trivial
      | make _ | unlock _ _ => exact absurd (by rw [hpcu]; trivial) hout
      | reread k' failed =>
          rw [hpcu] at hold
          intro hfailed
          have hfull := hold hfailed
          have hne : k' ≠ k := by
            rintro rfl
            exact hfull hempty
          rwa [Function.update_of_ne hne]
      | done k' r failed =>
          rw [hpcu] at hold
          cases r with
          | none => exact hold
          | some v =>
              have hfull : s.cell k' = some v := hold
              have hne : k' ≠ k := by
                rintro rfl
                rw [hempty] at hfull
                simp at hfull
              show Function.update s.cell k made k' = some v
              rwa [Function.update_of_ne hne]

theorem Guarded.step (h : Guarded s) (t : τ) (made : Option ν) : Guarded (s.step t made) := by
  unfold State.step
  have hholds := h.holds t
  split
  · exact h
  · exact h
  · next k hpc =>
    split
    · next v hv => exact h.setPc (by simp [hpc, Pc.Inside]) hv
    · exact h.setPc (by simp [hpc, Pc.Inside]) trivial
  · next k hpc =>
    split
    · next hfree =>
      refine h.setHolder trivial (iff_of_true trivial rfl) fun u hu => ?_
      rw [hfree]
      simpa using Ne.symm hu
    · exact h
  · next k hpc =>
    split
    · next v hv => exact h.setPc (by simp [hpc, Pc.Inside]) fun _ => by simp [hv]
    · next hnone => exact h.setPc (by simp [hpc, Pc.Inside]) hnone
  · next k hpc => exact h.store hpc made
  · next k failed hpc =>
    rw [hpc] at hholds
    have hlock : s.holder = some t := (h.inside t).mp (by rw [hpc]; trivial)
    refine h.setHolder hholds (by simp [Pc.Inside]) fun u hu => ?_
    rw [hlock]
    simpa using Ne.symm hu
  · next k failed hpc =>
    rw [hpc] at hholds
    refine h.setPc (by simp [hpc, Pc.Inside]) ?_
    cases hcell : s.cell k with
    | none =>
        cases failed with
        | true => rfl
        | false => exact absurd hcell (hholds rfl)
    | some v => exact hcell

/-! ## What a step does to the cells -/

/-- A step fills the empty cell that its party was about to fill, or no cell. -/
theorem Guarded.step_cell (h : Guarded s) (t : τ) (made : Option ν) :
    (s.step t made).cell = s.cell ∨
      ∃ k v, s.pc t = .make k ∧ s.cell k = none ∧ made = some v ∧
        (s.step t made).cell = Function.update s.cell k (some v) := by
  have hholds := h.holds t
  unfold State.step
  split
  · exact Or.inl rfl
  · exact Or.inl rfl
  · split <;> exact Or.inl rfl
  · split <;> exact Or.inl rfl
  · split <;> exact Or.inl rfl
  · next k hpc =>
    rw [hpc] at hholds
    cases made with
    | none =>
        refine Or.inl (funext fun k' => ?_)
        show Function.update s.cell k none k' = s.cell k'
        by_cases hk : k' = k
        · subst hk
          rw [Function.update_self]
          exact hholds.symm
        · rw [Function.update_of_ne hk]
    | some v => exact Or.inr ⟨k, v, hpc, hholds, rfl, rfl⟩
  · exact Or.inl rfl
  · exact Or.inl rfl

/-- A cell is written once. -/
theorem Guarded.step_eq_some (h : Guarded s) {v : ν} (hv : s.cell k = some v) (t : τ)
    (made : Option ν) : (s.step t made).cell k = some v := by
  rcases h.step_cell t made with heq | ⟨k', v', -, hempty, -, heq⟩
  · rw [heq, hv]
  · have hk : k ≠ k' := by
      rintro rfl
      rw [hempty] at hv
      simp at hv
    rw [heq, Function.update_of_ne hk, hv]

/-- A party stays with the key that it has asked for. -/
theorem key?_step (s : State κ ν τ) (t u : τ) (made : Option ν) :
    ((s.step t made).pc u).key? = (s.pc u).key? := by
  have hset : ∀ pc : Pc κ ν, pc.key? = (s.pc t).key? →
      (Function.update s.pc t pc u).key? = (s.pc u).key? := by
    intro pc hpc
    by_cases hu : u = t
    · subst hu
      rw [Function.update_self, hpc]
    · rw [Function.update_of_ne hu]
  unfold State.step
  split
  · rfl
  · rfl
  · next k hpc => split <;> exact hset _ (by rw [hpc]; rfl)
  · next k hpc =>
    split
    · exact hset _ (by rw [hpc]; rfl)
    · rfl
  · next k hpc => split <;> exact hset _ (by rw [hpc]; rfl)
  · next k hpc => exact hset _ (by rw [hpc]; rfl)
  · next k failed hpc => exact hset _ (by rw [hpc]; rfl)
  · next k failed hpc => exact hset _ (by rw [hpc]; rfl)

end Steps

end LazyCells
