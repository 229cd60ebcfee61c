import Mathlib.Data.List.Nodup
import Mathlib.Logic.Function.Basic
import Mathlib.Tactic.Common

/-!
# Intrusive lists

The node of an intrusive list is a field of the object that is listed, so an object is on at most
one of the lists of one kind, and is taken off without a search. `Lists` carries this as its
invariant: the members of a head are, once each, the nodes that are on its list.
-/

namespace IntrusiveList

universe u v

/-- The lists by their heads, and the list that each node is on. -/
structure Lists (κ : Type u) (τ : Type v) where
  head : τ → Option κ
  members : κ → List τ
  nodup : ∀ k, (members k).Nodup
  mem_iff : ∀ k t, t ∈ members k ↔ head t = some k

variable {κ : Type u} {τ : Type v}

/-- All lists are empty. -/
def Lists.empty : Lists κ τ where
  head _ := none
  members _ := []
  nodup _ := List.nodup_nil
  mem_iff _ _ := by simp

section Operations

variable [DecidableEq τ] (L : Lists κ τ)

/-- Put a node that is on no list in front of the list of `k`. -/
def Lists.addHead [DecidableEq κ] (k : κ) (t : τ) (ht : L.head t = none) : Lists κ τ where
  head := Function.update L.head t (some k)
  members := Function.update L.members k (t :: L.members k)
  nodup k' := by
    by_cases hk : k' = k
    · subst hk
      rw [Function.update_self]
      refine List.nodup_cons.mpr ⟨fun hmem => ?_, L.nodup k'⟩
      rw [L.mem_iff, ht] at hmem
      simp at hmem
    · rw [Function.update_of_ne hk]
      exact L.nodup k'
  mem_iff k' t' := by
    by_cases htt : t' = t <;> by_cases hk : k' = k
    · simp [htt, hk]
    · -- `t` is on the list of `k` now, and was on no other one
      subst htt
      rw [Function.update_of_ne hk, Function.update_self, L.mem_iff, ht]
      simp [Ne.symm hk]
    · simp [htt, hk, L.mem_iff]
    · simp [htt, hk, L.mem_iff]

/-- Take a node off its list. -/
def Lists.del (t : τ) : Lists κ τ where
  head := Function.update L.head t none
  members k := (L.members k).erase t
  nodup k := (L.nodup k).erase t
  mem_iff k t' := by
    rw [(L.nodup k).mem_erase_iff, L.mem_iff]
    by_cases htt : t' = t
    · simp [htt]
    · simp [htt]

/-- Put a node that is on no list in the place of `old`. -/
def Lists.replace (old new : τ) (hnew : L.head new = none) : Lists κ τ where
  head t := if t = new then L.head old else if t = old then none else L.head t
  members k := (L.members k).map fun t => if t = old then new else t
  nodup k := by
    refine (L.nodup k).map_on fun x hx y hy heq => ?_
    have hmem : ∀ z ∈ L.members k, z ≠ new := by
      rintro z hz rfl
      rw [L.mem_iff, hnew] at hz
      simp at hz
    split at heq <;> split at heq
    · simp_all
    · exact absurd heq.symm (hmem y hy)
    · exact absurd heq (hmem x hx)
    · exact heq
  mem_iff k t := by
    simp only [List.mem_map, L.mem_iff]
    by_cases htn : t = new
    · rw [if_pos htn]
      constructor
      · rintro ⟨x, hx, heq⟩
        split at heq
        · next hxo => rw [← hxo, hx]
        · rw [htn] at heq
          rw [heq, hnew] at hx
          simp at hx
      · intro hold
        exact ⟨old, hold, by rw [if_pos rfl, htn]⟩
    · rw [if_neg htn]
      constructor
      · rintro ⟨x, hx, heq⟩
        split at heq
        · exact absurd heq.symm htn
        · next hxo => rw [← heq, if_neg hxo, hx]
      · intro ht
        split at ht
        · simp at ht
        · next hto => exact ⟨t, ht, if_neg hto⟩

end Operations

variable {L : Lists κ τ} {k k' : κ} {t t' : τ}

/-- A node is on one list at most. -/
theorem Lists.eq_of_mem (h : t ∈ L.members k) (h' : t ∈ L.members k') : k = k' := by
  rw [L.mem_iff] at h h'
  exact Option.some.inj (h.symm.trans h')

theorem Lists.members_ne_nil (h : L.head t = some k) : L.members k ≠ [] :=
  List.ne_nil_of_mem ((L.mem_iff k t).mpr h)

theorem Lists.members_eq_nil_iff : L.members k = [] ↔ ∀ t, L.head t ≠ some k := by
  simp only [List.eq_nil_iff_forall_not_mem, L.mem_iff, ne_eq]

section Operations

variable [DecidableEq τ]

theorem Lists.head_addHead [DecidableEq κ] (ht : L.head t = none) :
    (L.addHead k t ht).head t' = if t' = t then some k else L.head t' := by
  simp only [Lists.addHead, Function.update_apply]

theorem Lists.head_del : (L.del t).head t' = if t' = t then none else L.head t' := by
  simp only [Lists.del, Function.update_apply]

theorem Lists.head_replace {new : τ} (hnew : L.head new = none) :
    (L.replace t new hnew).head t' =
      if t' = new then L.head t else if t' = t then none else L.head t' :=
  rfl

end Operations

end IntrusiveList
