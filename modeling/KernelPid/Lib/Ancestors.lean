import Mathlib.Data.Nat.Basic
import Mathlib.Logic.Relation
import Mathlib.Tactic.Common

/-!
# Ancestors in a forest with levels

A forest is a parent function, and every node but the roots lies one level below its parent. The
ancestors of a node, itself included, then have pairwise different levels.
-/

namespace Ancestors

universe u

variable {ι : Type u} {parent : ι → Option ι} {level : ι → ℕ}

/-- `a` is `n` or above `n`. -/
def IsAncestor (parent : ι → Option ι) (n a : ι) : Prop :=
  Relation.ReflTransGen (fun x y => parent x = some y) n a

theorem IsAncestor.refl (n : ι) : IsAncestor parent n n := Relation.ReflTransGen.refl

theorem IsAncestor.step {n a b : ι} (h : IsAncestor parent n a) (hab : parent a = some b) :
    IsAncestor parent n b :=
  Relation.ReflTransGen.tail h hab

/-- An ancestor is the node itself, or an ancestor of its parent. -/
theorem IsAncestor.eq_or {n a : ι} (h : IsAncestor parent n a) :
    a = n ∨ ∃ p, parent n = some p ∧ IsAncestor parent p a := by
  rcases Relation.ReflTransGen.cases_head h with rfl | ⟨p, hp, hpa⟩
  · exact Or.inl rfl
  · exact Or.inr ⟨p, hp, hpa⟩

section Levels

variable (hlevel : ∀ n p, parent n = some p → level n = level p + 1)
include hlevel

theorem IsAncestor.level_le {n a : ι} (h : IsAncestor parent n a) : level a ≤ level n := by
  induction h with
  | refl => exact le_refl _
  | tail _ hab ih =>
      have := hlevel _ _ hab
      omega

/-- Two ancestors at one level are the same. -/
theorem IsAncestor.eq_of_level_eq {n a b : ι} (ha : IsAncestor parent n a)
    (hb : IsAncestor parent n b) (heq : level a = level b) : a = b := by
  induction ha using Relation.ReflTransGen.head_induction_on with
  | refl =>
      rcases hb.eq_or with rfl | ⟨p, hp, hpb⟩
      · rfl
      · have h₁ := hlevel _ _ hp
        have h₂ := hpb.level_le hlevel
        omega
  | head hnp hpa ih =>
      rcases hb.eq_or with rfl | ⟨p, hp, hpb⟩
      · have h₁ := hlevel _ _ hnp
        have h₂ := IsAncestor.level_le hlevel hpa
        omega
      · rw [hnp] at hp
        obtain rfl := Option.some.inj hp
        exact ih hpb

end Levels

end Ancestors
