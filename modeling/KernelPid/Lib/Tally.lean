import Mathlib.Algebra.BigOperators.Group.Finset.Piecewise

/-!
# Counting over an address space

Objects live at the addresses below `k`, and each one has a weight, such as the number of references
it holds to some other object. `tally` is the weight of all of them. A write to one address changes
the tally by what it changes there (`tally_update`), and a new object at the end adds its weight
(`tally_snoc`). `count_erase_add` is the same for what a list holds. Nothing here subtracts, so that
sums on both sides can be left to `omega`.
-/

namespace Tally

universe u

variable {α : Type u} (w : α → ℕ) (f : ℕ → α) {i k : ℕ}

/-- The weight of the objects at the addresses below `k`. -/
def tally (k : ℕ) : ℕ := ∑ i ∈ Finset.range k, w (f i)

variable {w f}

theorem tally_eq_zero (h : ∀ i < k, w (f i) = 0) : tally w f k = 0 :=
  Finset.sum_eq_zero fun i hi => h i (Finset.mem_range.mp hi)

theorem tally_congr {g : ℕ → α} (h : ∀ i, w (g i) = w (f i)) : tally w g k = tally w f k :=
  Finset.sum_congr rfl fun i _ => h i

/-- Nothing is added where nothing weighs anything. -/
theorem tally_of_le {k' : ℕ} (hk : k ≤ k') (h : ∀ i, k ≤ i → w (f i) = 0) :
    tally w f k' = tally w f k := by
  refine (Finset.sum_subset (Finset.range_mono hk) fun i _ hi => h i ?_).symm
  exact Nat.not_lt.mp fun hlt => hi (Finset.mem_range.mpr hlt)

theorem le_tally (hi : i < k) : w (f i) ≤ tally w f k :=
  Nat.le.intro (Finset.add_sum_erase _ (fun j => w (f j)) (Finset.mem_range.mpr hi))

theorem exists_of_tally_pos (h : 0 < tally w f k) : ∃ i < k, 0 < w (f i) := by
  by_contra hnone
  refine absurd h (Nat.not_lt.mpr (Nat.le_of_eq (tally_eq_zero fun i hi => ?_)))
  by_contra hpos
  exact hnone ⟨i, hi, Nat.pos_of_ne_zero hpos⟩

theorem tally_update (hi : i < k) (b : α) :
    tally w (Function.update f i b) k + w (f i) = tally w f k + w b := by
  have hmem : i ∈ Finset.range k := Finset.mem_range.mpr hi
  have hcomp : ∀ j, w (Function.update f i b j) = Function.update (fun j => w (f j)) i (w b) j :=
    fun j => Function.apply_update (fun _ => w) f i b j
  have hnew := Finset.sum_update_of_mem hmem (fun j => w (f j)) (w b)
  have hold := Finset.add_sum_erase _ (fun j => w (f j)) hmem
  rw [← Finset.erase_eq] at hnew
  simp only [tally, hcomp, hnew, ← hold]
  omega

theorem tally_snoc (b : α) : tally w (Function.update f k b) (k + 1) = tally w f k + w b := by
  unfold tally
  rw [Finset.sum_range_succ, Function.update_self]
  congr 1
  refine Finset.sum_congr rfl fun j hj => ?_
  rw [Function.update_of_ne (Nat.ne_of_lt (Finset.mem_range.mp hj))]

/-- What is at an address after a write was written there, or was there before. -/
theorem update_eq_some {f : ℕ → Option α} {b : Option α} {j : ℕ} {a : α}
    (h : Function.update f i b j = some a) : (j = i ∧ b = some a) ∨ (j ≠ i ∧ f j = some a) := by
  by_cases hj : j = i
  · subst hj
    rw [Function.update_self] at h
    exact Or.inl ⟨rfl, h⟩
  · rw [Function.update_of_ne hj] at h
    exact Or.inr ⟨hj, h⟩

theorem count_erase_add {β : Type u} [DecidableEq β] {l : List β} {a : β} (h : a ∈ l) (b : β) :
    (l.erase a).count b + (if b = a then 1 else 0) = l.count b := by
  rw [(List.perm_cons_erase h).count_eq b, List.count_cons]
  simp only [beq_iff_eq, eq_comm (a := b)]

end Tally
