import KernelPid.Skiplist.Update
import Mathlib.Order.Bounds.Basic
import Mathlib.Data.Int.Order.Basic

/-!
# The plain skip list as a sorted finite map

The abstract value of a list is its binding of keys to values, `Bindings`; a value may be `NULL`, so
a key bound to `NULL` and a key not bound differ. `Represents s m` relates the two. Each operation
is one theorem about `Represents`, and `Represents.run` is their composition over a whole run.
-/

namespace KernelPid.PidSkiplist

open Runs Tower

variable {α : Type} {s : PidSkiplist α} {h : Addr} {k : ℤ} {v : Option α} {env : NodeEnv}
  {L : List Addr}

/-! ## The operations on a list that satisfies the invariant -/

theorem find_key_eq_none_iff (k : ℤ) :
    (L.find? fun p => s.key p = k) = none ↔ ∀ p ∈ L, s.key p ≠ k := by
  simp [List.find?_eq_none]

/-- Distinct nodes have distinct keys. -/
theorem Inv.eq_of_key_eq (hs : Inv s h L) {p q : Addr} (hp : p ∈ L) (hq : q ∈ L)
    (hk : s.key p = s.key q) : p = q := by
  have h1 := head?_above hs.sorted hp
  rw [hk, head?_above hs.sorted hq] at h1
  exact (Option.some.inj h1).symm

/-- The array the search leaves behind holds the last node of every level. -/
theorem update_eq (s : PidSkiplist α) (h : Addr) (A : List Addr) :
    ∀ j < s.level, (fun j => if j < s.level then some (lastAt s.ht j h A) else none) j =
      some (lastAt s.ht j h A) := fun _ hj => if_pos hj

/-- The search for the key of a node of the list finds that node. -/
theorem Inv.find_key (hs : Inv s h L) {p : Addr} (hp : p ∈ L) :
    (L.find? fun q => s.key q = s.key p) = some p := by
  have habove := hs.matchKey_above (s.key p)
  rw [head?_above hs.sorted hp, matchKey, deref_eq (hs.ht_pos p hp)] at habove
  simpa using habove.symm

/-- Inserting a key already there replaces the value of its node. -/
theorem Inv.insert_present (hs : Inv s h L) {p : Addr} (hp : p ∈ L) (hk : s.key p = k)
    (v : Option α) (env : NodeEnv) : s.insert k v env = .ok (s.setPid p v, 0) := by
  subst hk
  simp only [insert, hs.getHeader, hs.descend_header, ok_bind, hs.forward_below, hs.matchKey_above,
    hs.find_key hp]

/-- The insertion of a new key, once `insertNew` has made its node or found no memory for it. -/
theorem Inv.insert_of_insertNew (hs : Inv s h L) (hk : ∀ p ∈ L, s.key p ≠ k) {s' : PidSkiplist α}
    {x : Option Addr} (hnew : s.insertNew h
      (fun j => if j < s.level then some (lastAt s.ht j h (below s k L)) else none) k v env =
        .ok (s', x)) :
    s.insert k v env = .ok (s', if x.isSome then 0 else -ENOMEM) := by
  simp only [insert, hs.getHeader, hs.descend_header, ok_bind, hs.forward_below,
    hs.matchKey_above, (find_key_eq_none_iff k).mpr hk, hnew]
  cases x <;> rfl

/-- A new node for a key the list does not have goes between the smaller and the larger keys. -/
theorem Inv.insertNew_ok (hs : Inv s h L) (hk : ∀ p ∈ L, s.key p ≠ k) (henv : env.ok = true)
    (v : Option α) :
    ∃ s', s.insertNew h (fun j =>
      if j < s.level then some (lastAt s.ht j h (below s k L)) else none)
        k v env = .ok (s', some s.brk) ∧
      Inv s' h (below s k L ++ s.brk :: above s k L) ∧
      Added s s' h (below s k L) k v env.draw.val := by
  have hsplit := below_append_above s k L
  have hshape : Shape s h (below s k L ++ above s k L) := by rw [hsplit]; exact hs.toShape
  obtain ⟨s', hs', hshape', hadded⟩ := hshape.insertNew_ok (update_eq s h _) henv k v
  have hkey : ∀ p ∈ L, s'.key p = s.key p := fun p hp => by
    rw [hadded.key, if_neg (hs.ne_brk p (List.mem_cons_of_mem h hp))]
  have hbrk : s'.key s.brk = k := by rw [hadded.key, if_pos rfl]
  refine ⟨s', hs', ⟨hshape', ?_⟩, hadded⟩
  have hsorted : (below s k L ++ above s k L).Pairwise fun p q => s'.key p < s'.key q := by
    rw [hsplit]
    exact hs.sorted.imp_of_mem fun ha hb hlt => by rw [hkey _ ha, hkey _ hb]; exact hlt
  apply pairwise_insert hsorted
  · intro a ha
    rw [hbrk, hkey a (mem_of_mem_below ha)]
    exact key_lt_of_mem_below ha
  · intro b hb
    have hbL := mem_of_mem_above hb
    have hle := le_key_of_mem_above hs.sorted hb
    have hne := hk b hbL
    rw [hbrk, hkey b hbL]
    omega

/-- Inserting a new key puts a new node between the smaller and the larger keys. -/
theorem Inv.insert_absent (hs : Inv s h L) (hk : ∀ p ∈ L, s.key p ≠ k) (henv : env.ok = true)
    (v : Option α) :
    ∃ s', s.insert k v env = .ok (s', 0) ∧ Inv s' h (below s k L ++ s.brk :: above s k L) ∧
      Added s s' h (below s k L) k v env.draw.val := by
  obtain ⟨s', hs', hinv', hadded⟩ := hs.insertNew_ok hk henv v
  exact ⟨s', hs.insert_of_insertNew hk hs', hinv', hadded⟩

/-- Without memory for its node, a new key is not inserted. -/
theorem Inv.insert_enomem (hs : Inv s h L) (hk : ∀ p ∈ L, s.key p ≠ k) (henv : env.ok = false)
    (v : Option α) :
    ∃ s', s.insert k v env = .ok (s', -ENOMEM) ∧ Inv s' h L ∧ Unchanged s s' env.draw.val := by
  obtain ⟨s', hs', hu⟩ := insertNew_fail s h
    (fun j => if j < s.level then some (lastAt s.ht j h (below s k L)) else none) k v henv
  exact ⟨s', hs.insert_of_insertNew hk hs', hs.of_unchanged hu env.draw.le_max, hu⟩

/-- Removing a key that is not there does nothing. -/
theorem Inv.remove_absent (hs : Inv s h L) (hk : ∀ p ∈ L, s.key p ≠ k) : s.remove k = .ok s := by
  simp only [remove, hs.header, hs.descend_header, ok_bind, hs.forward_below, hs.matchKey_above,
    (find_key_eq_none_iff k).mpr hk]

/-- Taking out the node that the search for its key found. -/
theorem Inv.removeNode_ok (hs : Inv s h L) {p : Addr} (hp : p ∈ L) :
    ∃ s' B, s.removeNode h
        (fun j => if j < s.level then some (lastAt s.ht j h (below s (s.key p) L)) else none) p =
        .ok s' ∧
      L = below s (s.key p) L ++ p :: B ∧ Inv s' h (below s (s.key p) L ++ B) ∧
      Removed s s' h (below s (s.key p) L) p := by
  obtain ⟨B, hsplit⟩ := split_at_mem hs.sorted hp
  have hshape : Shape s h (below s (s.key p) L ++ p :: B) := hsplit ▸ hs.toShape
  obtain ⟨s', hs', hshape', hrem⟩ := hshape.removeNode_ok (update_eq s h _)
  refine ⟨s', B, hs', hsplit, ⟨hshape', ?_⟩, hrem⟩
  rw [hrem.key]
  have hsub : (below s (s.key p) L ++ B).Sublist L := by
    conv_rhs => rw [hsplit]
    exact (List.Sublist.refl _).append (List.sublist_cons_self p B)
  exact hs.sorted.sublist hsub

/-- Removing a key takes its node out. -/
theorem Inv.remove_present (hs : Inv s h L) {p : Addr} (hp : p ∈ L) :
    ∃ s' B, s.remove (s.key p) = .ok s' ∧ L = below s (s.key p) L ++ p :: B ∧
      Inv s' h (below s (s.key p) L ++ B) ∧ Removed s s' h (below s (s.key p) L) p := by
  obtain ⟨s', B, hs', hsplit, hinv', hrem⟩ := hs.removeNode_ok hp
  refine ⟨s', B, ?_, hsplit, hinv', hrem⟩
  simp only [remove, hs.header, hs.descend_header, ok_bind, hs.forward_below, hs.matchKey_above,
    hs.find_key hp]
  exact hs'

/-! ## The finite map a list represents -/

/-- A finite map from keys to values; `none` for a key not bound, `some none` for one bound to
`NULL`. -/
abbrev Bindings (α : Type) := ℤ → Option (Option α)

/-- The list `s` holds exactly the bindings `m`. -/
def Represents (s : PidSkiplist α) (m : Bindings α) : Prop :=
  ∃ h L, Inv s h L ∧ ∀ k v, m k = some v ↔ ∃ p ∈ L, s.key p = k ∧ s.pid p = v

variable {m : Bindings α}

theorem represents_init : Represents (init : PidSkiplist α) fun _ => none :=
  ⟨0, [], inv_init, by simp⟩

/-- The node that `find?` returns holds the binding. -/
theorem bindings_eq (hm : ∀ k v, m k = some v ↔ ∃ p ∈ L, s.key p = k ∧ s.pid p = v) (k : ℤ) :
    m k = (L.find? fun p => s.key p = k).map s.pid := by
  cases hf : L.find? fun p => s.key p = k with
  | some p =>
      have hp : p ∈ L := List.mem_of_find?_eq_some hf
      have hk : s.key p = k := by simpa using List.find?_some hf
      exact (hm k (s.pid p)).mpr ⟨p, hp, hk, rfl⟩
  | none =>
      have hne := (find_key_eq_none_iff k).mp hf
      rw [Option.map_none, Option.eq_none_iff_forall_ne_some]
      intro v hv
      obtain ⟨p, hp, hk, -⟩ := (hm k v).mp hv
      exact hne p hp hk

theorem Represents.isSome_iff (hm : Represents s m) : ∃ h L, Inv s h L ∧
    (∀ k v, m k = some v ↔ ∃ p ∈ L, s.key p = k ∧ s.pid p = v) ∧
    ∀ k, m k = none ↔ ∀ p ∈ L, s.key p ≠ k := by
  obtain ⟨h, L, hs, hm⟩ := hm
  refine ⟨h, L, hs, hm, fun k => ?_⟩
  rw [bindings_eq hm k, Option.map_eq_none_iff, find_key_eq_none_iff]

/-- An insertion that finds its key replaces the binding. -/
theorem Represents.insert_bound (hm : Represents s m) (hk : m k ≠ none) (v : Option α)
    (env : NodeEnv) :
    ∃ s', s.insert k v env = .ok (s', 0) ∧ Represents s' (Function.update m k (some v)) := by
  obtain ⟨h, L, hs, hm⟩ := hm
  obtain ⟨w, hw⟩ := Option.ne_none_iff_exists'.mp hk
  obtain ⟨p, hp, hpk, -⟩ := (hm k w).mp hw
  refine ⟨s.setPid p v, hs.insert_present hp hpk v env, h, L, hs.setPid p v, fun k' v' => ?_⟩
  have hpid := setPid_pid (s := s) v (hs.ht_pos p hp)
  simp only [setPid_key, hpid]
  by_cases hkk : k' = k
  · subst hkk
    rw [Function.update_self]
    constructor
    · intro hv
      exact ⟨p, hp, hpk, by rw [if_pos rfl]; exact Option.some.inj hv⟩
    · rintro ⟨q, hq, hqk, hqv⟩
      obtain rfl : q = p := hs.eq_of_key_eq hq hp (hqk.trans hpk.symm)
      rw [if_pos rfl] at hqv
      rw [hqv]
  · rw [Function.update_of_ne hkk, hm]
    refine exists_congr fun q => and_congr_right fun hq => and_congr_right fun hqk => ?_
    rw [if_neg fun hqp => hkk (by rw [← hqk, hqp, hpk])]

/-- An insertion of a new key that gets its memory adds the binding. -/
theorem Represents.insert_new (hm : Represents s m) (hk : m k = none) (henv : env.ok = true)
    (v : Option α) :
    ∃ s', s.insert k v env = .ok (s', 0) ∧ Represents s' (Function.update m k (some v)) := by
  obtain ⟨h, L, hs, hm, hnone⟩ := hm.isSome_iff
  obtain ⟨s', hs', hinv', hadded⟩ := hs.insert_absent ((hnone k).mp hk) henv v
  refine ⟨s', hs', h, _, hinv', fun k' v' => ?_⟩
  have hne : ∀ p ∈ L, p ≠ s.brk := fun p hp => hs.ne_brk p (List.mem_cons_of_mem h hp)
  have hmem : ∀ p, p ∈ below s k L ++ s.brk :: above s k L ↔ p = s.brk ∨ p ∈ L := fun p => by
    conv_rhs => rw [← below_append_above s k L]
    simp only [List.mem_append, List.mem_cons]
    tauto
  -- the old nodes hold the old bindings, and the new node the one for `k`
  have hold : (∃ p ∈ L, s'.key p = k' ∧ s'.pid p = v') ↔ m k' = some v' := by
    rw [hm]
    refine exists_congr fun p => and_congr_right fun hp => ?_
    rw [hadded.key, hadded.pid, if_neg (hne p hp), if_neg (hne p hp)]
  have hnew : (∃ p ∈ below s k L ++ s.brk :: above s k L, s'.key p = k' ∧ s'.pid p = v') ↔
      (k = k' ∧ v = v') ∨ m k' = some v' := by
    rw [← hold]
    simp only [hmem, or_and_right, exists_or, exists_eq_left]
    rw [hadded.key, hadded.pid, if_pos rfl, if_pos rfl]
  rw [hnew]
  by_cases hkk : k' = k
  · subst hkk
    rw [Function.update_self]
    simp [hk]
  · rw [Function.update_of_ne hkk]
    simp [Ne.symm hkk]

/-- An insertion of a new key without memory changes no binding. -/
theorem Represents.insert_enomem (hm : Represents s m) (hk : m k = none) (henv : env.ok = false)
    (v : Option α) : ∃ s', s.insert k v env = .ok (s', -ENOMEM) ∧ Represents s' m := by
  obtain ⟨h, L, hs, hm, hnone⟩ := hm.isSome_iff
  obtain ⟨s', hs', hinv', hu⟩ := hs.insert_enomem ((hnone k).mp hk) henv v
  exact ⟨s', hs', h, L, hinv', by rw [hu.key, hu.pid]; exact hm⟩

/-- A removal deletes the binding, if there is one. -/
theorem Represents.remove (hm : Represents s m) (k : ℤ) :
    ∃ s', s.remove k = .ok s' ∧ Represents s' (Function.update m k none) := by
  obtain ⟨h, L, hs, hm, hnone⟩ := hm.isSome_iff
  by_cases hk : m k = none
  · refine ⟨s, hs.remove_absent ((hnone k).mp hk), h, L, hs, ?_⟩
    rw [← hk, Function.update_eq_self]
    exact hm
  · obtain ⟨w, hw⟩ := Option.ne_none_iff_exists'.mp hk
    obtain ⟨p, hp, rfl, -⟩ := (hm k w).mp hw
    obtain ⟨s', B, hs', hL, hinv', hrem⟩ := hs.remove_present hp
    refine ⟨s', hs', h, _, hinv', fun k' v' => ?_⟩
    rw [hrem.key, hrem.pid]
    have hnd : (below s (s.key p) L ++ p :: B).Nodup := hL ▸ (List.nodup_cons.mp hs.nodup).2
    have hmem : ∀ q, q ∈ below s (s.key p) L ++ B ↔ q ∈ L ∧ q ≠ p := fun q => by
      conv_rhs => rw [hL]
      simp only [List.nodup_append, List.nodup_cons] at hnd
      simp only [List.mem_append, List.mem_cons]
      grind
    -- no other node has the key of `p`
    simp only [hmem]
    by_cases hkk : k' = s.key p
    · subst hkk
      rw [Function.update_self]
      refine ⟨fun hc => by simp at hc, ?_⟩
      rintro ⟨q, ⟨hq, hqp⟩, hqk, -⟩
      exact absurd (hs.eq_of_key_eq hq hp hqk) hqp
    · rw [Function.update_of_ne hkk, hm]
      refine exists_congr fun q => ?_
      constructor
      · rintro ⟨hq, hqk, hqv⟩
        exact ⟨⟨hq, fun hqp => hkk (by rw [← hqk, hqp])⟩, hqk, hqv⟩
      · rintro ⟨⟨hq, -⟩, hqk, hqv⟩
        exact ⟨hq, hqk, hqv⟩

/-! ## The readers on the map -/

theorem Represents.lookupRcu (hm : Represents s m) (k : ℤ) : s.lookupRcu k = .ok (m k).join := by
  obtain ⟨h, L, hs, hm⟩ := hm
  rw [hs.lookupRcu_eq, bindings_eq hm]
  cases L.find? fun p => s.key p = k <;> rfl

/-- `pid_skiplist_find_ge_rcu` finds the least bound key not below `k`, or there is none. -/
theorem Represents.findGeRcu_cases (hm : Represents s m) (k : ℤ) :
    (∃ k' v, IsLeast {k' | k ≤ k' ∧ m k' ≠ none} k' ∧ m k' = some v ∧ s.findGeRcu k = .ok v) ∨
      (∀ k', k ≤ k' → m k' = none) ∧ s.findGeRcu k = .ok none := by
  obtain ⟨h, L, hs, hm, hnone⟩ := hm.isSome_iff
  rw [hs.findGeRcu_eq]
  have hmem : ∀ p, p ∈ above s k L ↔ p ∈ L ∧ k ≤ s.key p := fun p => mem_above_iff hs.sorted
  have hsorted := above_sorted s k hs.sorted
  cases hab : above s k L with
  | nil =>
      refine Or.inr ⟨fun k' hk' => (hnone k').mpr fun p hp hpk => ?_, rfl⟩
      have hp' := (hmem p).mpr ⟨hp, by omega⟩
      simp [hab] at hp'
  | cons a B =>
      rw [hab] at hsorted
      have ha := (hmem a).mp (by rw [hab]; simp)
      have hbound : m (s.key a) = some (s.pid a) := (hm _ _).mpr ⟨a, ha.1, rfl, rfl⟩
      refine Or.inl ⟨s.key a, s.pid a, ⟨⟨ha.2, by simp [hbound]⟩, ?_⟩, hbound, rfl⟩
      -- a bound key from `k` on is that of `a`, or of a node behind it
      rintro k' ⟨hk', hk'm⟩
      obtain ⟨v, hv⟩ := Option.ne_none_iff_exists'.mp hk'm
      obtain ⟨p, hp, rfl, -⟩ := (hm k' v).mp hv
      have hpa : p ∈ above s k L := (hmem p).mpr ⟨hp, hk'⟩
      rw [hab] at hpa
      rcases List.mem_cons.mp hpa with rfl | hpB
      · exact le_refl _
      · exact le_of_lt ((List.pairwise_cons.mp hsorted).1 p hpB)

/-- `pid_skiplist_find_ge_rcu` returns the value of the least key not below `k`. -/
theorem Represents.findGeRcu_of_isLeast (hm : Represents s m) {k' : ℤ} {v : Option α}
    (hleast : IsLeast {k' | k ≤ k' ∧ m k' ≠ none} k') (hv : m k' = some v) :
    s.findGeRcu k = .ok v := by
  rcases hm.findGeRcu_cases k with ⟨k'', w, hleast', hw, hfind⟩ | ⟨hnone, -⟩
  · obtain rfl : k'' = k' := hleast'.unique hleast
    obtain rfl : w = v := Option.some.inj (hw.symm.trans hv)
    exact hfind
  · exact absurd (hnone k' hleast.1.1) hleast.1.2

theorem Represents.findGeRcu_of_none (hm : Represents s m) (hk : ∀ k', k ≤ k' → m k' = none) :
    s.findGeRcu k = .ok none := by
  rcases hm.findGeRcu_cases k with ⟨k', v, hleast, -, -⟩ | ⟨-, hfind⟩
  · exact absurd (hk k' hleast.1.1) hleast.1.2
  · exact hfind

/-- What `n` calls of `pid_skiplist_iter_next_rcu` with the same start key leave behind, the first
one with a `NULL` cursor: the cursor, and the value the last call returned. -/
def iterCalls (s : PidSkiplist α) (startKey : ℤ) : ℕ → Except Fault (Option Addr × Option α)
  | 0 => .ok (none, none)
  | n + 1 => do
    let (cursor, _) ← s.iterCalls startKey n
    s.iterNextRcu cursor startKey

/-- The calls move the cursor through the nodes not below the start key, then stay. -/
theorem Inv.iterCalls_eq (hs : Inv s h L) (k : ℤ) (n : ℕ) :
    s.iterCalls k (n + 1) =
      .ok (if n < (above s k L).length then (above s k L)[n]? else (above s k L).getLast?,
        (above s k L)[n]?.bind s.pid) := by
  have hsplit := below_append_above s k L
  set xs := above s k L with hxs
  induction n with
  | zero =>
      simp only [iterCalls, ok_bind, hs.iterNextRcu_none, ← hxs]
      cases xs <;> simp
  | succ n ih =>
      rw [iterCalls, ih, ok_bind]
      -- the cursor is on `xs[n]`, or on the last node if there are not that many
      by_cases hn : n < xs.length
      · have hshape : Shape s h ((below s k L ++ xs.take n) ++ xs[n] :: xs.drop (n + 1)) := by
          rw [List.append_assoc, ← List.drop_eq_getElem_cons hn, List.take_append_drop, hsplit]
          exact hs.toShape
        rw [if_pos hn, List.getElem?_eq_getElem hn]
        simp only [hshape.iterNextRcu_some k, List.drop_eq_nil_iff, List.head?_drop]
        by_cases hn' : n + 1 < xs.length
        · rw [if_pos hn', if_neg (by omega)]
        · have hlast : xs.getLast? = some xs[n] := by
            rw [List.getLast?_eq_getElem?, show xs.length - 1 = n by omega,
              List.getElem?_eq_getElem hn]
          rw [if_neg hn', if_pos (by omega), hlast]
      · rw [if_neg hn, if_neg (by omega), List.getElem?_eq_none (by omega)]
        cases hlast : xs.getLast? with
        | none =>
            have hnil : xs = [] := List.getLast?_eq_none_iff.mp hlast
            simp only [hs.iterNextRcu_none, ← hxs, hnil]
            rfl
        | some y =>
            have hxs' : xs.dropLast ++ [y] = xs := by
              rw [List.dropLast_append_getLast? y hlast]
            have hshape : Shape s h ((below s k L ++ xs.dropLast) ++ y :: []) := by
              rw [List.append_assoc, hxs', hsplit]; exact hs.toShape
            simp only [hshape.iterNextRcu_some k,
              List.getElem?_eq_none (show xs.length ≤ n + 1 by omega)]
            rfl

/-- The iteration visits exactly the bound keys not below the start key, in ascending order. -/
theorem Represents.iterCalls (hm : Represents s m) (k : ℤ) :
    ∃ xs : List Addr, (xs.Pairwise fun x y => s.key x < s.key y) ∧
      (∀ k' v, k ≤ k' ∧ m k' = some v ↔ ∃ x ∈ xs, s.key x = k' ∧ s.pid x = v) ∧
      (∀ n, (hn : n < xs.length) → s.iterCalls k (n + 1) = .ok (some xs[n], s.pid xs[n])) ∧
      ∀ n, xs.length ≤ n → s.iterCalls k (n + 1) = .ok (xs.getLast?, none) := by
  obtain ⟨h, L, hs, hm⟩ := hm
  refine ⟨above s k L, above_sorted s k hs.sorted, fun k' v => ?_,
    fun n hn => ?_, fun n hn => ?_⟩
  · rw [hm]
    constructor
    · rintro ⟨hk, p, hp, rfl, hv⟩
      exact ⟨p, (mem_above_iff hs.sorted).mpr ⟨hp, hk⟩, rfl, hv⟩
    · rintro ⟨p, hp, rfl, hv⟩
      obtain ⟨hp, hk⟩ := (mem_above_iff hs.sorted).mp hp
      exact ⟨hk, p, hp, rfl, hv⟩
  · rw [hs.iterCalls_eq, if_pos hn, List.getElem?_eq_getElem hn]
    rfl
  · rw [hs.iterCalls_eq, if_neg (Nat.not_lt.mpr hn), List.getElem?_eq_none hn]
    rfl

/-! ## Runs of the writer -/

/-- A call of one of the two writers, with the kernel's answers during it. -/
inductive WriteOp (α : Type)
  | insert (key : ℤ) (pid : Option α) (env : NodeEnv)
  | remove (key : ℤ)

/-- One writer call; `insert` returns a status, `remove` nothing. -/
def write (s : PidSkiplist α) : WriteOp α → Except Fault (PidSkiplist α × Option ℤ)
  | .insert key pid env => do
    let (s, retval) ← s.insert key pid env
    .ok (s, some retval)
  | .remove key => do
    let s ← s.remove key
    .ok (s, none)

/-- The bindings after one writer call, from those before it and the status it returned. -/
def Bindings.after (m : Bindings α) : WriteOp α → Option ℤ → Bindings α
  | .insert key pid _, retval => if retval = some 0 then Function.update m key (some pid) else m
  | .remove key, _ => Function.update m key none

/-- The bindings after a sequence of writer calls. -/
def Bindings.afterAll (m : Bindings α) : List (WriteOp α) → List (Option ℤ) → Bindings α
  | op :: ops, retval :: retvals => (m.after op retval).afterAll ops retvals
  | _, _ => m

/-- The status of a writer call: `insert` returns `0` or `-ENOMEM`. -/
def WriteOp.Returns (retval : Option ℤ) : WriteOp α → Prop
  | .insert _ _ _ => retval = some 0 ∨ retval = some (-ENOMEM)
  | .remove _ => retval = none

/-- One writer call keeps list and map in step. -/
theorem Represents.write (hm : Represents s m) (op : WriteOp α) :
    ∃ s' retval, s.write op = .ok (s', retval) ∧ op.Returns retval ∧
      Represents s' (m.after op retval) := by
  have hne : ¬ (some (-ENOMEM) = some (0 : ℤ)) := by decide
  cases op with
  | insert k v env =>
      by_cases hk : m k = none
      · cases henv : env.ok with
        | true =>
            obtain ⟨s', hs', hm'⟩ := hm.insert_new hk henv v
            exact ⟨s', some 0, by simp [PidSkiplist.write, hs'], Or.inl rfl,
              by simpa [Bindings.after] using hm'⟩
        | false =>
            obtain ⟨s', hs', hm'⟩ := hm.insert_enomem hk henv v
            exact ⟨s', some (-ENOMEM), by simp [PidSkiplist.write, hs'], Or.inr rfl,
              by rw [Bindings.after, if_neg hne]; exact hm'⟩
      · obtain ⟨s', hs', hm'⟩ := hm.insert_bound hk v env
        exact ⟨s', some 0, by simp [PidSkiplist.write, hs'], Or.inl rfl,
          by simpa [Bindings.after] using hm'⟩
  | remove k =>
      obtain ⟨s', hs', hm'⟩ := hm.remove k
      exact ⟨s', none, by simp [PidSkiplist.write, hs'], rfl, hm'⟩

/-- A whole run of writer calls keeps list and map in step. -/
theorem Represents.run (hm : Represents s m) (ops : List (WriteOp α)) :
    ∃ s' retvals, runOut PidSkiplist.write s ops = .ok (s', retvals) ∧
      List.Forall₂ (fun op retval => op.Returns retval) ops retvals ∧
      Represents s' (m.afterAll ops retvals) := by
  induction ops generalizing s m with
  | nil => exact ⟨s, [], rfl, .nil, hm⟩
  | cons op ops ih =>
      obtain ⟨s₁, retval, hs₁, hret, hm₁⟩ := hm.write op
      obtain ⟨s', retvals, hs', hrets, hm'⟩ := ih hm₁
      exact ⟨s', retval :: retvals, by simp [runOut, hs₁, hs'], .cons hret hrets, hm'⟩

/-- After any sequence of `pid_skiplist_insert` and `pid_skiplist_remove` calls on an initialised
list, the readers see the finite map that the calls and their statuses describe. -/
theorem sorted_finite_map (ops : List (WriteOp α)) :
    ∃ (s : PidSkiplist α) (retvals : List (Option ℤ)),
      runOut PidSkiplist.write init ops = .ok (s, retvals) ∧
      List.Forall₂ (fun op retval => op.Returns retval) ops retvals ∧
      let m : Bindings α := Bindings.afterAll (fun _ => none) ops retvals
      (∀ k, s.lookupRcu k = .ok (m k).join) ∧
      (∀ k k' v, IsLeast {k' | k ≤ k' ∧ m k' ≠ none} k' → m k' = some v → s.findGeRcu k = .ok v) ∧
      (∀ k, (∀ k', k ≤ k' → m k' = none) → s.findGeRcu k = .ok none) ∧
      ∀ k, ∃ xs : List Addr, (xs.Pairwise fun x y => s.key x < s.key y) ∧
        (∀ k' v, k ≤ k' ∧ m k' = some v ↔ ∃ x ∈ xs, s.key x = k' ∧ s.pid x = v) ∧
        (∀ n, (hn : n < xs.length) → s.iterCalls k (n + 1) = .ok (some xs[n], s.pid xs[n])) ∧
        ∀ n, xs.length ≤ n → s.iterCalls k (n + 1) = .ok (xs.getLast?, none) := by
  have hinit : Represents (init : PidSkiplist α) fun _ => none := represents_init
  obtain ⟨s, retvals, hrun, hret, hm⟩ := hinit.run ops
  exact ⟨s, retvals, hrun, hret, fun k => hm.lookupRcu k,
    fun k k' v hleast hv => hm.findGeRcu_of_isLeast hleast hv,
    fun k hk => hm.findGeRcu_of_none hk, fun k => hm.iterCalls k⟩

end KernelPid.PidSkiplist
