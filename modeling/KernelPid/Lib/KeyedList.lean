import Mathlib.Data.List.Perm.Basic
import Mathlib.Logic.Function.Basic
import Mathlib.Order.Lattice

/-!
# Lists in the order of their keys

A list whose items ascend in a key is a finite map from keys to items, and is determined by it:
`Ascending.eq_of_lookup`. A change to what the list has at one key is a change to the map there, and
changes at different keys commute.
-/

namespace KeyedList

variable {ε κ : Type*} [LinearOrder κ] {key : ε → κ} {E F A B : List ε} {e : ε}
  {o o' : Option ε} {k : κ}

/-- The items ascend in their keys. -/
def Ascending (key : ε → κ) (E : List ε) : Prop :=
  E.Pairwise fun x y => key x < key y

/-- The first item with the key `k`. -/
def lookup (key : ε → κ) (E : List ε) (k : κ) : Option ε :=
  E.find? fun x => key x = k

/-- In an ascending list there is one item with a key at most. -/
theorem Ascending.lookup_eq_some_iff (hE : Ascending key E) :
    lookup key E k = some e ↔ e ∈ E ∧ key e = k := by
  constructor
  · intro h
    exact ⟨List.mem_of_find?_eq_some h, by simpa using List.find?_some h⟩
  · rintro ⟨he, rfl⟩
    obtain ⟨A, B, rfl⟩ := List.append_of_mem he
    have hA : ∀ a ∈ A, ¬ key a = key e := fun a ha =>
      ne_of_lt ((List.pairwise_append.mp hE).2.2 a ha e List.mem_cons_self)
    rw [lookup, List.find?_append, List.find?_eq_none.mpr (by simpa using hA), Option.none_or,
      List.find?_cons_of_pos (by simp)]

/-- The map determines the list. -/
theorem Ascending.eq_of_lookup (hE : Ascending key E) (hF : Ascending key F)
    (h : lookup key E = lookup key F) : E = F := by
  have hmem : ∀ e, e ∈ E ↔ e ∈ F := fun e => by
    have hE' : lookup key E (key e) = some e ↔ _ := hE.lookup_eq_some_iff
    have hF' : lookup key F (key e) = some e ↔ _ := hF.lookup_eq_some_iff
    rw [h] at hE'
    simpa using hE'.symm.trans hF'
  have hnodup : ∀ {E : List ε}, Ascending key E → E.Nodup := fun hE =>
    hE.imp fun hlt heq => (ne_of_lt hlt) (congrArg key heq)
  apply List.Perm.eq_of_pairwise _ hE hF
  · exact (List.perm_ext_iff_of_nodup (hnodup hE) (hnodup hF)).mpr hmem
  · intro a b _ _ hab hba
    exact absurd hba (lt_asymm hab)

/-! ## Changes at one key -/

/-- The map `m` with `f` done to what it has at `k`. -/
def changeAt (k : κ) (f : Option ε → Option ε) (m : κ → Option ε) : κ → Option ε :=
  Function.update m k (f (m k))

theorem changeAt_of_ne {k k' : κ} (f : Option ε → Option ε) (m : κ → Option ε) (h : k' ≠ k) :
    changeAt k f m k' = m k' :=
  Function.update_of_ne h _ _

/-- Changes at different keys commute. -/
theorem changeAt_comm {k k' : κ} (h : k ≠ k') (f g : Option ε → Option ε) (m : κ → Option ε) :
    changeAt k f (changeAt k' g m) = changeAt k' g (changeAt k f m) := by
  rw [changeAt, changeAt_of_ne g m h, changeAt, changeAt, changeAt_of_ne f m h.symm, changeAt]
  exact (Function.update_comm h _ _ m).symm

/-- An item with the key `k`, or none, in a list that has the key nowhere else. -/
theorem lookup_between (hA : ∀ a ∈ A, key a ≠ k) (hB : ∀ b ∈ B, key b ≠ k)
    (ho : ∀ e ∈ o, key e = k) :
    lookup key (A ++ (o.toList ++ B)) = Function.update (lookup key (A ++ B)) k o := by
  funext k'
  rw [lookup, List.find?_append, List.find?_append]
  by_cases hk : k' = k
  · subst hk
    have hA' : (A.find? fun x => decide (key x = k')) = none :=
      List.find?_eq_none.mpr (by simpa using hA)
    have hB' : (B.find? fun x => decide (key x = k')) = none :=
      List.find?_eq_none.mpr (by simpa using hB)
    rw [Function.update_self, hA', hB', Option.none_or, Option.or_none]
    cases o with
    | none => rfl
    | some e => simp [ho e rfl]
  · have hnone : (o.toList.find? fun x => decide (key x = k')) = none := by
      cases o with
      | none => rfl
      | some e =>
          have hne : ¬ k = k' := fun hc => hk hc.symm
          simp [ho e rfl, hne]
    rw [Function.update_of_ne hk, lookup, List.find?_append, hnone, Option.none_or]

/-- What is between `A` and `B` becomes another item with the same key, comes or goes. -/
theorem lookup_change (hA : ∀ a ∈ A, key a ≠ k) (hB : ∀ b ∈ B, key b ≠ k) (ho : ∀ e ∈ o, key e = k)
    (ho' : ∀ e ∈ o', key e = k) :
    lookup key (A ++ (o.toList ++ B)) k = o ∧
      lookup key (A ++ (o'.toList ++ B)) =
        Function.update (lookup key (A ++ (o.toList ++ B))) k o' := by
  rw [lookup_between hA hB ho, lookup_between hA hB ho', Function.update_self, Function.update_idem]
  exact ⟨rfl, rfl⟩

end KeyedList
