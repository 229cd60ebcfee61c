import KernelPid.Skiplist.Entries

/-!
# Taking back an insertion

`remove` of a key that was just inserted gives every pointer back the value that the insertion took
from it: the search finds the same predecessors, with the new node behind each that it was linked
to. The level comes back if the top level was in use; a level that an insertion without memory left
behind is lowered by any removal.
-/

namespace KernelPid.PidSkiplist

open Runs Tower

variable {α : Type} {s s' s₁ s₂ : PidSkiplist α} {h x : Addr} {k : ℤ} {v : Option α} {lvl : ℕ}
  {L A B : List Addr}

/-- The list is the same in both, and so is every node that `s` has. -/
structure SameList (s s' : PidSkiplist α) : Prop where
  level : s'.level = s.level
  header : s'.header = s.header
  node : ∀ x, 0 < s.ht x → s'.node x = s.node x

/-- A node is its fields. -/
theorem node_eq (hx : 0 < s.ht x) : s.node x = some ⟨s.key x, s.pid x, s.fwd x, s.ht x⟩ := by
  have hderef := deref_eq hx
  unfold deref at hderef
  cases hn : s.node x with
  | none => simp [hn] at hderef
  | some n =>
      rw [hn] at hderef
      rw [Except.ok.inj hderef]

/-- The search for the key of a new node ends where the search for the new key did. -/
theorem below_of_split (hA : ∀ a ∈ A, s.key a < k) (hx : ¬ s.key x < k) :
    below s k (A ++ x :: B) = A := by
  rw [below, List.takeWhile_append_of_pos fun a ha => decide_eq_true (hA a ha),
    List.takeWhile_cons_of_neg (by simpa using hx), List.append_nil]

/-- Linking a node in and unlinking it writes back what was there. -/
theorem Added.removed_fwd (hs : Shape s h (A ++ B)) (hadded : Added s s₁ h A k v lvl)
    (hrem : Removed s₁ s₂ h A s.brk) (hx : 0 < s.ht x) : s₂.fwd x = s.fwd x := by
  have hxb : x ≠ s.brk := Nat.ne_of_lt (hs.lt_brk x hx)
  have hht : s₁.ht s.brk = lvl := by rw [hadded.ht, if_pos rfl]
  have hlast : ∀ j, lastAt s₁.ht j h A = lastAt s.ht j h A := fun j => by
    refine lastAt_congr (fun a ha => ?_) h
    rw [hadded.ht, if_neg (hs.ne_brk a (by simp [ha]))]
  funext j
  rw [hrem.fwd, hht, hlast, hadded.fwd, hadded.fwd, if_pos rfl, if_neg hxb]
  by_cases hj : j < lvl ∧ x = lastAt s.ht j h A
  · -- the new node held the pointer meanwhile
    rw [if_pos hj, if_pos hj.1, ← hj.2]
  · rw [if_neg hj, if_neg hj]

/-- The nodes are all as they were. -/
theorem Added.removed_node (hs : Shape s h (A ++ B)) (hadded : Added s s₁ h A k v lvl)
    (hrem : Removed s₁ s₂ h A s.brk) (hx : 0 < s.ht x) : s₂.node x = s.node x := by
  have hxb : x ≠ s.brk := Nat.ne_of_lt (hs.lt_brk x hx)
  have hht : s₂.ht x = s.ht x := by rw [hrem.ht, hadded.ht, if_neg hxb]
  have hkey : s₂.key x = s.key x := by rw [hrem.key, hadded.key, if_neg hxb]
  have hpid : s₂.pid x = s.pid x := by rw [hrem.pid, hadded.pid, if_neg hxb]
  rw [node_eq hx, node_eq (by rw [hht]; exact hx), hht, hkey, hpid, hadded.removed_fwd hs hrem hx]

/-- The level is that of the tallest node before and after. -/
theorem SameList.of_node (hs : Shape s h L) (hs' : Shape s' h L) (htop : TopUsed s)
    (htop' : TopUsed s') (hnode : ∀ x, 0 < s.ht x → s'.node x = s.node x) : SameList s s' where
  level := by
    have hentry : L.map s'.entry = L.map s.entry := by
      refine List.map_congr_left fun p hp => ?_
      have hp' := hnode p (hs.ht_pos p hp)
      simp only [entry, key, pid, ht, hp']
    rw [hs'.topUsed_iff.mp htop', hs.topUsed_iff.mp htop, hentry]
  header := hs'.header.trans hs.header.symm
  node := hnode

/-- The insertion of a key that is not in the list, followed by its removal, leaves the list as it
was if its top level is in use. -/
theorem remove_undoes_insert (s s₁ : PidSkiplist α) (hs : Reachable s) (htop : TopUsed s) (k : ℤ)
    (hk : ∀ x ∈ s.nodes.tail, s.key x ≠ k) (v : Option α) (env : NodeEnv)
    (hins : s.insert k v env = .ok (s₁, 0)) :
    ∃ s₂, s₁.remove k = .ok s₂ ∧ SameList s s₂ := by
  obtain ⟨L, hinv⟩ := hs.inv
  rw [hinv.nodes_eq, List.tail_cons] at hk
  have hsplit := below_append_above s k L
  cases henv : env.ok with
  | false =>
      obtain ⟨s', hs', -⟩ := hinv.insert_enomem hk henv v
      rw [hs'] at hins
      have hzero : -ENOMEM = 0 := congrArg Prod.snd (Except.ok.inj hins)
      exact absurd hzero (by decide)
  | true =>
      obtain ⟨s', hs', hinv₁, hadded⟩ := hinv.insert_absent hk henv v
      obtain rfl : s' = s₁ := congrArg Prod.fst (Except.ok.inj (hs'.symm.trans hins))
      have hkey : s'.key s.brk = k := by rw [hadded.key, if_pos rfl]
      obtain ⟨s₂, B, hrem, hL, hinv₂, hremoved⟩ := hinv₁.remove_present (p := s.brk) (by simp)
      rw [hkey] at hrem hL hinv₂ hremoved
      -- the removal finds the place that the insertion found
      have hbelow : below s' k (below s k L ++ s.brk :: above s k L) = below s k L := by
        apply below_of_split _ (by omega)
        intro a ha
        rw [hadded.key, if_neg (hinv.ne_brk a (List.mem_cons_of_mem 0 (mem_of_mem_below ha)))]
        exact key_lt_of_mem_below ha
      rw [hbelow] at hL hinv₂ hremoved
      obtain rfl : above s k L = B := (List.cons.inj (List.append_cancel_left hL)).2
      have hshape : Shape s 0 (below s k L ++ above s k L) := by
        rw [hsplit]
        exact hinv.toShape
      have htop₂ : TopUsed s₂ := hinv₂.topUsed_iff_fwd.mpr hremoved.shrunk
      refine ⟨s₂, hrem, SameList.of_node hshape hinv₂.toShape htop htop₂ fun x hx => ?_⟩
      exact hadded.removed_node hshape hremoved hx

/-- On a list with the key 5: a node of the top level in front of it comes and goes. -/
theorem remove_undoes_insert_in_front :
    ∃ s s₁ : PidSkiplist ℕ,
      run memStep init [.write (.insert 5 (some 50) ⟨pidSlRandomLevel 1, true, true⟩)] = .ok s ∧
      s.insert 3 (some 30) ⟨pidSlRandomLevel 0, true, true⟩ = .ok (s₁, 0) ∧
      ∃ s₂, s₁.remove 3 = .ok s₂ ∧ SameList s s₂ := by
  have hstart : (run memStep (init : PidSkiplist ℕ)
      [.write (.insert 5 (some 50) ⟨pidSlRandomLevel 1, true, true⟩)]).map
      (fun s => (s.level, s.nodes.tail.map s.key)) = .ok (1, [5]) := rfl
  obtain ⟨s, hrun, heq⟩ := exists_of_map_eq_ok hstart
  obtain ⟨hlevel, hkeys⟩ := Prod.mk.inj heq
  have hs : Reachable s := ⟨_, hrun⟩
  have hk : ∀ x ∈ s.nodes.tail, s.key x ≠ 3 := by
    intro x hx hxk
    have hmem : s.key x ∈ [(5 : ℤ)] := hkeys ▸ List.mem_map_of_mem hx
    rw [hxk] at hmem
    exact absurd hmem (by decide)
  obtain ⟨L, hinv⟩ := hs.inv
  have hk' : ∀ x ∈ L, s.key x ≠ 3 := by
    rw [hinv.nodes_eq] at hk
    exact hk
  have henv : (⟨pidSlRandomLevel 0, true, true⟩ : NodeEnv).ok = true := rfl
  obtain ⟨s₁, hins, -⟩ := hinv.insert_absent hk' henv (some 30)
  exact ⟨s, s₁, hrun, hins, remove_undoes_insert s s₁ hs (Or.inl hlevel) 3 hk _ _ hins⟩

end KernelPid.PidSkiplist
