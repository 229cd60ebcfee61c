import Mathlib.Data.Int.Order.Basic
import Mathlib.Tactic.Common

/-!
# The first number of an interval

`firstIn p lo hi` is what a loop that counts up from `lo` and stops below `hi` finds, if it looks
for a number with the property `p`. `cyclicFirst p s lo hi` is what two such loops find that begin
at `s` and start over from `lo`.
-/

namespace FirstIn

variable {p q : ℤ → Bool} {s lo hi k : ℤ}

/-- The first of the `n` numbers from `k` on that has the property `p`. -/
def firstFrom (p : ℤ → Bool) : ℕ → ℤ → Option ℤ
  | 0, _ => none
  | n + 1, k => if p k then some k else firstFrom p n (k + 1)

/-- The first number from `lo` on and below `hi` that has the property `p`. -/
def firstIn (p : ℤ → Bool) (lo hi : ℤ) : Option ℤ := firstFrom p (hi - lo).toNat lo

/-- The first one when counting up from `s`, below `hi`, and then from `lo`, below `s`. -/
def cyclicFirst (p : ℤ → Bool) (s lo hi : ℤ) : Option ℤ := (firstIn p s hi).or (firstIn p lo s)

theorem firstFrom_eq_some_iff {n : ℕ} {j : ℤ} :
    firstFrom p n j = some k ↔ j ≤ k ∧ k < j + n ∧ p k = true ∧
    ∀ i, j ≤ i → i < k → p i = false := by
  induction n generalizing j with
  | zero =>
      refine iff_of_false (by simp [firstFrom]) ?_
      rintro ⟨h₁, h₂, -⟩
      omega
  | succ n ih =>
      unfold firstFrom
      split
      · rename_i hp
        -- `j` is it: nothing comes before
        rw [Option.some.injEq]
        constructor
        · rintro rfl
          exact ⟨le_refl _, by omega, hp, fun i h₁ h₂ => absurd h₂ (not_lt_of_ge h₁)⟩
        · rintro ⟨hle, -, -, hfirst⟩
          by_contra hne
          have hlt : j < k := lt_of_le_of_ne hle hne
          simp [hfirst j (le_refl _) hlt] at hp
      · rename_i hp
        -- `j` is not: the first one is the first of the `n` numbers behind it
        rw [ih]
        constructor
        · rintro ⟨hle, hlt, hk, hfirst⟩
          refine ⟨by omega, by omega, hk, fun i h₁ h₂ => ?_⟩
          by_cases hj : j = i
          · rw [← hj]
            exact Bool.eq_false_iff.mpr hp
          · exact hfirst i (by omega) h₂
        · rintro ⟨hle, hlt, hk, hfirst⟩
          have hne : j ≠ k := by
            rintro rfl
            exact hp hk
          have hlt' : j < k := lt_of_le_of_ne hle hne
          exact ⟨hlt', by omega, hk, fun i h₁ h₂ => hfirst i (by omega) h₂⟩

theorem firstIn_eq_some_iff :
    firstIn p lo hi = some k ↔ lo ≤ k ∧ k < hi ∧ p k = true ∧
    ∀ i, lo ≤ i → i < k → p i = false := by
  rw [firstIn, firstFrom_eq_some_iff]
  constructor
  · rintro ⟨hle, hlt, hk⟩
    exact ⟨hle, by omega, hk⟩
  · rintro ⟨hle, hlt, hk⟩
    exact ⟨hle, by omega, hk⟩

/-- What is first in an interval is first in a longer one. -/
theorem firstIn_of_le {hi' : ℤ} (h : firstIn p lo hi = some k) (hle : hi ≤ hi') :
    firstIn p lo hi' = some k := by
  obtain ⟨h₁, h₂, hk, hfirst⟩ := firstIn_eq_some_iff.mp h
  exact firstIn_eq_some_iff.mpr ⟨h₁, lt_of_lt_of_le h₂ hle, hk, hfirst⟩

/-- What is first is first from further on, if it is not passed by then. -/
theorem firstIn_from_iff {lo' : ℤ} (h : firstIn p lo hi = some k) (hle : lo ≤ lo') :
    firstIn p lo' hi = some k ↔ ∀ i, lo ≤ i → i < lo' → p i = false := by
  obtain ⟨h₁, h₂, hk, hfirst⟩ := firstIn_eq_some_iff.mp h
  rw [firstIn_eq_some_iff]
  constructor
  · rintro ⟨hlo, -, -, -⟩ i hi₁ hi₂
    exact hfirst i hi₁ (lt_of_lt_of_le hi₂ hlo)
  · intro hnone
    refine ⟨?_, h₂, hk, fun i hi₁ hi₂ => hfirst i (le_trans hle hi₁) hi₂⟩
    by_contra hlt
    rw [hnone k h₁ (lt_of_not_ge hlt)] at hk
    exact Bool.noConfusion hk

theorem firstFrom_eq_none_iff {n : ℕ} {j : ℤ} :
    firstFrom p n j = none ↔ ∀ i, j ≤ i → i < j + n → p i = false := by
  induction n generalizing j with
  | zero => exact iff_of_true rfl fun i h₁ h₂ => by omega
  | succ n ih =>
      unfold firstFrom
      split
      · rename_i hp
        refine iff_of_false (by simp) fun hnone => ?_
        have hj := hnone j (le_refl _) (by omega)
        rw [hp] at hj
        exact Bool.noConfusion hj
      · rename_i hp
        rw [ih]
        constructor
        · intro hnone i h₁ h₂
          by_cases hj : j = i
          · rw [← hj]
            exact Bool.eq_false_iff.mpr hp
          · exact hnone i (by omega) (by omega)
        · intro hnone i h₁ h₂
          exact hnone i (by omega) (by omega)

theorem firstIn_eq_none_iff : firstIn p lo hi = none ↔ ∀ i, lo ≤ i → i < hi → p i = false := by
  rw [firstIn, firstFrom_eq_none_iff]
  constructor
  · intro hnone i h₁ h₂
    exact hnone i h₁ (by omega)
  · intro hnone i h₁ h₂
    exact hnone i h₁ (by omega)

theorem cyclicFirst_eq_some_iff : cyclicFirst p s lo hi = some k ↔
    firstIn p s hi = some k ∨ (firstIn p s hi = none ∧ firstIn p lo s = some k) := by
  rw [cyclicFirst, Option.or_eq_some_iff]

theorem cyclicFirst_eq_none_iff (h : lo ≤ s) (hs : s ≤ hi) :
    cyclicFirst p s lo hi = none ↔ ∀ i, lo ≤ i → i < hi → p i = false := by
  rw [cyclicFirst, Option.or_eq_none_iff, firstIn_eq_none_iff, firstIn_eq_none_iff]
  constructor
  · rintro ⟨hhigh, hlow⟩ i h₁ h₂
    by_cases hi' : s ≤ i
    · exact hhigh i hi' h₂
    · exact hlow i h₁ (lt_of_not_ge hi')
  · intro hnone
    exact ⟨fun i h₁ h₂ => hnone i (le_trans h h₁) h₂,
      fun i h₁ h₂ => hnone i h₁ (lt_of_lt_of_le h₂ hs)⟩

end FirstIn
