import KernelPid.Skiplist.Search

/-!
# Insertion and removal in the plain skip list

The loops that write pointers, `link`, `unlink` and `shrink`, are computed for any `update[]` array
that holds the last node of every level. `Shape.insertNew_ok` and `Shape.removeNode_ok` conclude
what inserting or removing one node does to the list, `Added` and `Removed` what it does to each
field. No key order is assumed here; the keys come in with `Inv.insert_*` and `Inv.remove_*`.
-/

namespace KernelPid.PidSkiplist

open Runs Tower

variable {α : Type} {s s' : PidSkiplist α} {h x : Addr} {k : ℤ} {v : Option α} {env : NodeEnv}
  {L A B : List Addr} {update : ℕ → Option Addr}

/-! ## The loops -/

/-- After `n` rounds of the linking loop, `x` has taken over the pointers of its predecessors
`u`, and they lead to `x`. -/
theorem link_spec {u : ℕ → Addr} {n : ℕ} (hupd : ∀ i < n, update i = some (u i))
    (hne : ∀ i < n, u i ≠ x) (hu : ∀ i < n, i < s.ht (u i)) (hx : n ≤ s.ht x) :
    ∃ s', link update x n s = .ok s' ∧ Frame s s' ∧ ∀ q j, s'.fwd q j =
      if q = x ∧ j < n then s.fwd (u j) j else if j < n ∧ q = u j then some x else s.fwd q j := by
  induction n with
  | zero => exact ⟨s, rfl, Frame.refl s, fun q j => by simp⟩
  | succ n ih =>
      obtain ⟨s₁, hs₁, hframe, hfwd⟩ := ih (fun i hi => hupd i (by omega))
        (fun i hi => hne i (by omega)) (fun i hi => hu i (by omega)) (by omega)
      have hun : n < s₁.ht (u n) := by rw [hframe.ht]; exact hu n (by omega)
      have hxn : n < s₁.ht x := by rw [hframe.ht]; omega
      have hfwdn : s₁.fwd (u n) n = s.fwd (u n) n := by simp [hfwd, hne n (by omega)]
      set s₂ := s₁.writeForward x n (s.fwd (u n) n) with hs₂
      have hframe₂ : Frame s₁ s₂ := frame_writeForward s₁ x n _
      have hun₂ : n < s₂.ht (u n) := by rw [hframe₂.ht]; exact hun
      refine ⟨s₂.writeForward (u n) n (some x), ?_,
        (hframe.trans hframe₂).trans (frame_writeForward _ _ _ _), fun q j => ?_⟩
      · simp only [link, hs₁, ok_bind, slot, hupd n (by omega), forward_eq hun, hfwdn,
          setForward_eq hxn, ← hs₂, setForward_eq hun₂]
      · rw [fwd_writeForward (Nat.zero_lt_of_lt hun₂), hs₂,
          fwd_writeForward (Nat.zero_lt_of_lt hxn), hfwd]
        have hnx : u n ≠ x := hne n (by omega)
        by_cases hj : j = n
        · subst hj
          by_cases hq : q = x
          · subst hq; simp [hnx.symm]
          · by_cases hqu : q = u j
            · subst hqu; simp [hq]
            · simp [hq, hqu]
        · simp [hj, show j < n + 1 ↔ j < n by omega]

/-- The unlinking loop from level `i` on redirects the predecessors `u` of `x` below `x`'s height,
and breaks there. -/
theorem unlink_spec {u : ℕ → Addr} {n i : ℕ} (hupd : ∀ j, i ≤ j → j < i + n → update j = some (u j))
    (hu : ∀ j, i ≤ j → j < i + n → j < s.ht (u j))
    (hlink : ∀ j, i ≤ j → j < i + n → (s.fwd (u j) j = some x ↔ j < s.ht x))
    (hne : ∀ j, i ≤ j → j < i + n → u j ≠ x) :
    ∃ s', unlink update x n i s = .ok s' ∧ Frame s s' ∧ ∀ q j, s'.fwd q j =
      if i ≤ j ∧ j < i + n ∧ j < s.ht x ∧ q = u j then s.fwd x j else s.fwd q j := by
  induction n generalizing s i with
  | zero => exact ⟨s, rfl, Frame.refl s, fun q j => by simp; omega⟩
  | succ n ih =>
      have hui : i < s.ht (u i) := hu i (le_refl i) (by omega)
      have hlinki := hlink i (le_refl i) (by omega)
      by_cases hxi : i < s.ht x
      · set s₁ := s.writeForward (u i) i (s.fwd x i) with hs₁
        have hframe : Frame s s₁ := frame_writeForward s (u i) i _
        have hfwd₁ : ∀ q j, s₁.fwd q j = if q = u i ∧ j = i then s.fwd x i else s.fwd q j :=
          fwd_writeForward (Nat.zero_lt_of_lt hui) i _
        obtain ⟨s', hs', hframe', hfwd'⟩ := ih (s := s₁) (i := i + 1)
          (fun j hj hj' => hupd j (by omega) (by omega))
          (fun j hj hj' => by rw [hframe.ht]; exact hu j (by omega) (by omega))
          (fun j hj hj' => by
            rw [hframe.ht, hfwd₁, if_neg (by omega)]
            exact hlink j (by omega) (by omega))
          (fun j hj hj' => hne j (by omega) (by omega))
        refine ⟨s', ?_, hframe.trans hframe', fun q j => ?_⟩
        · simp only [unlink, slot, hupd i (le_refl i) (by omega), ok_bind, forward_eq hui,
            if_pos (hlinki.mpr hxi), forward_eq hxi, setForward_eq hui, ← hs₁, hs']
        · have hnx : x ≠ u i := (hne i (le_refl i) (by omega)).symm
          rw [hfwd', hframe.ht, hfwd₁, hfwd₁]
          by_cases hj : j = i
          · subst hj
            by_cases hq : q = u j <;> simp [hq, hxi]
          · have h1 : i + 1 ≤ j ↔ i ≤ j := by omega
            have h2 : j < i + 1 + n ↔ j < i + (n + 1) := by omega
            simp [hj, h1, h2]
      · refine ⟨s, ?_, Frame.refl s, fun q j => by rw [if_neg (by omega)]⟩
        simp only [unlink, slot, hupd i (le_refl i) (by omega), ok_bind, forward_eq hui,
          if_neg (fun hc => hxi (hlinki.mp hc))]

/-- The level-lowering loop stops at level `1` or where the header's top pointer is set. -/
theorem shrink_spec {n : ℕ} (hn : 0 < n) (hh : n ≤ s.ht h) :
    ∃ m, s.shrink h n = .ok m ∧ 0 < m ∧ m ≤ n ∧ (∀ j, m ≤ j → j < n → s.fwd h j = none) ∧
      (1 < m → s.fwd h (m - 1) ≠ none) := by
  induction n with
  | zero => omega
  | succ n ih =>
      cases n with
      | zero => exact ⟨1, rfl, by omega, by omega, fun j _ _ => by omega, fun hc => by omega⟩
      | succ n =>
          simp only [shrink, forward_eq (show n + 1 < s.ht h by omega), ok_bind]
          cases hf : s.fwd h (n + 1) with
          | some y => exact ⟨n + 2, rfl, by omega, le_refl _, fun j _ _ => by omega, by simp [hf]⟩
          -- the top level is empty: the loop goes on below it
          | none =>
              obtain ⟨m, hm, hpos, hle, hnone, htop⟩ := ih (by omega) (by omega)
              refine ⟨m, hm, hpos, by omega, fun j hj hj' => ?_, htop⟩
              rcases Nat.lt_succ_iff_lt_or_eq.mp hj' with hlt | rfl
              · exact hnone j hj hlt
              · exact hf

/-! ## A new node -/

/-- `s'` is `s` with a new node `x` put behind `h :: A`. -/
structure Added (s s' : PidSkiplist α) (h : Addr) (A : List Addr) (k : ℤ) (v : Option α)
    (lvl : ℕ) : Prop where
  level : s'.level = max s.level lvl
  header : s'.header = s.header
  brk : s'.brk = s.brk + 1
  rcu : s'.rcu = s.rcu
  log : s'.log = s.log ++ [.alloc (.node s.brk), .alloc (.forward s.brk)]
  ht : ∀ q, s'.ht q = if q = s.brk then lvl else s.ht q
  key : ∀ q, s'.key q = if q = s.brk then k else s.key q
  pid : ∀ q, s'.pid q = if q = s.brk then v else s.pid q
  fwd : ∀ q j, s'.fwd q j = if q = s.brk then
      (if j < lvl then s.fwd (lastAt s.ht j h A) j else none)
    else if j < lvl ∧ q = lastAt s.ht j h A then some s.brk else s.fwd q j

/-- The list with the new node allocated and filled in, but not linked. -/
def addNode (s : PidSkiplist α) (k : ℤ) (v : Option α) (lvl : ℕ) : PidSkiplist α :=
  { s with
    level := max s.level lvl
    node := Function.update s.node s.brk (some ⟨k, v, fun _ => none, lvl⟩)
    brk := s.brk + 1
    log := s.log ++ [.alloc (.node s.brk), .alloc (.forward s.brk)] }

theorem addNode_node (s : PidSkiplist α) (k : ℤ) (v : Option α) (lvl : ℕ) (q : Addr) :
    (s.addNode k v lvl).node q =
      if q = s.brk then some ⟨k, v, fun _ => none, lvl⟩ else s.node q := by
  simp [addNode, Function.update_apply]

theorem addNode_ht (s : PidSkiplist α) (k : ℤ) (v : Option α) (lvl : ℕ) (q : Addr) :
    (s.addNode k v lvl).ht q = if q = s.brk then lvl else s.ht q := by
  by_cases hq : q = s.brk <;> simp [PidSkiplist.ht, addNode_node, hq]

theorem addNode_key (s : PidSkiplist α) (k : ℤ) (v : Option α) (lvl : ℕ) (q : Addr) :
    (s.addNode k v lvl).key q = if q = s.brk then k else s.key q := by
  by_cases hq : q = s.brk <;> simp [PidSkiplist.key, addNode_node, hq]

theorem addNode_pid (s : PidSkiplist α) (k : ℤ) (v : Option α) (lvl : ℕ) (q : Addr) :
    (s.addNode k v lvl).pid q = if q = s.brk then v else s.pid q := by
  by_cases hq : q = s.brk <;> simp [PidSkiplist.pid, addNode_node, hq]

theorem addNode_fwd (s : PidSkiplist α) (k : ℤ) (v : Option α) (lvl : ℕ) (q : Addr) (j : ℕ) :
    (s.addNode k v lvl).fwd q j = if q = s.brk then none else s.fwd q j := by
  by_cases hq : q = s.brk <;> simp [PidSkiplist.fwd, addNode_node, hq]

theorem raiseLevel_level (s : PidSkiplist α) (lvl : ℕ) :
    (s.raiseLevel lvl).level = max s.level lvl := by
  by_cases hl : s.level < lvl
  · simp [raiseLevel, hl, max_eq_right (Nat.le_of_lt hl)]
  · simp [raiseLevel, hl, max_eq_left (Nat.not_lt.mp hl)]

theorem insertNew_eq_link (henv : env.ok = true) :
    s.insertNew h update k v env = (do
      let s' ← link (s.raiseUpdate h update env.draw.val) s.brk env.draw.val
        (s.addNode k v env.draw.val)
      .ok (s', some s.brk)) := by
  obtain ⟨hk, hc⟩ : env.kzalloc = true ∧ env.kcalloc = true := by simpa [NodeEnv.ok] using henv
  have hnode : (fun a => if a = s.brk then
        (Function.update s.node s.brk (some ⟨0, none, fun _ => none, env.draw.val⟩) a).map
          fun n => { n with key := k, pid := v }
      else Function.update s.node s.brk (some ⟨0, none, fun _ => none, env.draw.val⟩) a) =
      Function.update s.node s.brk (some ⟨k, v, fun _ => none, env.draw.val⟩) := by
    funext a
    by_cases ha : a = s.brk <;> simp [ha]
  have hlevel := raiseLevel_level s env.draw.val
  simp only [raiseLevel] at hlevel
  simp only [insertNew, nodeAlloc, hk, hc, if_true, modifyNode, raiseLevel, hnode, addNode, hlevel]

/-- On every level below the new height the array holds the last node of `h :: A`. -/
theorem Shape.raiseUpdate_eq (hs : Shape s h (A ++ B))
    (hupd : ∀ j < s.level, update j = some (lastAt s.ht j h A)) {lvl j : ℕ} (hj : j < lvl) :
    s.raiseUpdate h update lvl j = some (lastAt s.ht j h A) := by
  by_cases hjl : j < s.level
  · by_cases hlvl : s.level < lvl
    · rw [raiseUpdate, if_pos hlvl, if_neg (by omega)]; exact hupd j hjl
    · rw [raiseUpdate, if_neg hlvl]; exact hupd j hjl
  -- above the old level the list has no nodes, and the header is the last one
  · have hlast : lastAt s.ht j h A = h :=
      lastAt_eq_of_le (fun a ha => le_trans (hs.ht_le a (by simp [ha])) (Nat.not_lt.mp hjl)) h
    rw [raiseUpdate, if_pos (by omega), if_pos (by omega), hlast]

/-- The address of the next node is not in the list. -/
theorem Shape.ne_brk (hs : Shape s h L) : ∀ p ∈ h :: L, p ≠ s.brk :=
  fun p hp => Nat.ne_of_lt (hs.lt_brk p (hs.ht_pos' p hp))

theorem lastAt_mem_append (ht : Addr → ℕ) (j : ℕ) (h : Addr) (A B : List Addr) :
    lastAt ht j h A ∈ h :: (A ++ B) := by
  have hlast : lastAt ht j h A ∈ h :: A := lastAt_mem h A
  rw [← List.cons_append]
  exact List.mem_append_left B hlast

/-- A list with a new node in it is as well linked as before. -/
theorem Shape.added {lvl : ℕ} (hs : Shape s h (A ++ B)) (hadded : Added s s' h A k v lvl)
    (hpos : 0 < lvl) (hmax : lvl ≤ pidSlMaxLevel) : Shape s' h (A ++ s.brk :: B) := by
  have hht : ∀ p ∈ h :: (A ++ B), s'.ht p = s.ht p := fun p hp => by
    rw [hadded.ht, if_neg (hs.ne_brk p hp)]
  have hhth : s'.ht h = pidSlMaxLevel := (hht h List.mem_cons_self).trans hs.header_ht
  have hbrkht : s'.ht s.brk = lvl := by rw [hadded.ht, if_pos rfl]
  have hlast : ∀ j, lastAt s'.ht j h A = lastAt s.ht j h A := fun j =>
    lastAt_congr (fun a ha => hht a (by simp [ha])) h
  have hmem : ∀ p, p ∈ A ++ s.brk :: B ↔ p = s.brk ∨ p ∈ A ++ B := by
    intro p; simp only [List.mem_append, List.mem_cons]; tauto
  have hnodup : (h :: (A ++ s.brk :: B)).Nodup := by
    have hnd := hs.nodup
    have hb := fun hc => hs.ne_brk s.brk hc rfl
    simp only [List.nodup_cons, List.nodup_append, List.mem_append, List.mem_cons] at hnd hb ⊢
    grind
  refine ⟨hadded.header.trans hs.header, hhth, hnodup, ?_, ?_, ?_, ?_, ?_, ?_⟩
  · intro p hp
    rcases (hmem p).mp hp with rfl | hp
    · rwa [hbrkht]
    · rw [hht p (List.mem_cons_of_mem h hp)]
      exact hs.ht_pos p hp
  · intro p hp
    rw [hadded.level]
    rcases (hmem p).mp hp with rfl | hp
    · rw [hbrkht]
      exact le_max_right _ _
    · rw [hht p (List.mem_cons_of_mem h hp)]
      exact le_trans (hs.ht_le p hp) (le_max_left _ _)
  · -- the new node takes the place of a link on every level below its height
    have hold : Linked s.fwd s'.ht (h :: A ++ B) := hs.linked.congr hht fun _ _ _ _ => rfl
    refine hold.splice hnodup ?_ ?_ ?_
    · intro j hj
      rw [hbrkht] at hj
      rw [hadded.fwd, if_pos rfl, if_pos hj, ← hlast j]
      apply hold.fwd_lastAt
      rw [hhth]
      exact lt_of_lt_of_le hj hmax
    · intro j hj
      rw [hbrkht] at hj
      rw [hlast j, hadded.fwd, if_neg (hs.ne_brk _ (lastAt_mem_append s.ht j h A B)),
        if_pos ⟨hj, rfl⟩]
    · intro p hp j _ hnot
      rw [hbrkht, hlast j] at hnot
      rw [hadded.fwd, if_neg (hs.ne_brk p hp), if_neg hnot]
  · rw [hadded.level]
    exact lt_of_lt_of_le hs.level_pos (le_max_left _ _)
  · rw [hadded.level]
    exact max_le hs.level_le hmax
  · intro p hp
    rw [hadded.brk]
    rw [hadded.ht] at hp
    by_cases hpb : p = s.brk
    · rw [hpb]
      exact Nat.lt_succ_self _
    · rw [if_neg hpb] at hp
      exact Nat.lt_succ_of_lt (hs.lt_brk p hp)

/-- Putting a new node behind `h :: A`. -/
theorem Shape.insertNew_ok (hs : Shape s h (A ++ B))
    (hupd : ∀ j < s.level, update j = some (lastAt s.ht j h A)) (henv : env.ok = true) (k : ℤ)
    (v : Option α) :
    ∃ s', s.insertNew h update k v env = .ok (s', some s.brk) ∧ Shape s' h (A ++ s.brk :: B) ∧
      Added s s' h A k v env.draw.val := by
  set lvl := env.draw.val with hlvl
  have hlvlmax : lvl ≤ pidSlMaxLevel := env.draw.le_max
  have hne : ∀ j, lastAt s.ht j h A ≠ s.brk := fun j =>
    hs.ne_brk _ (lastAt_mem_append s.ht j h A B)
  have hlastht : ∀ j < lvl, j < (s.addNode k v lvl).ht (lastAt s.ht j h A) := by
    intro j hj
    rw [addNode_ht, if_neg (hne j)]
    apply lt_ht_lastAt
    rw [hs.header_ht]
    exact lt_of_lt_of_le hj hlvlmax
  obtain ⟨s', hs', hframe, hfwd⟩ := link_spec (s := s.addNode k v lvl) (x := s.brk) (n := lvl)
    (u := fun j => lastAt s.ht j h A) (fun j hj => hs.raiseUpdate_eq hupd hj) (fun j _ => hne j)
    hlastht (by rw [addNode_ht, if_pos rfl])
  have hadded : Added s s' h A k v lvl := by
    refine ⟨hframe.level, hframe.header, hframe.brk, hframe.rcu, hframe.log, ?_, ?_, ?_, ?_⟩
    · intro q; rw [hframe.ht, addNode_ht]
    · intro q; rw [hframe.key, addNode_key]
    · intro q; rw [hframe.pid, addNode_pid]
    · intro q j
      rw [hfwd, addNode_fwd, addNode_fwd, if_neg (hne j)]
      by_cases hq : q = s.brk
      · subst hq
        by_cases hj : j < lvl <;> simp [hj, (hne j).symm]
      · simp [hq]
  refine ⟨s', ?_, hs.added hadded env.draw.pos hlvlmax, hadded⟩
  rw [insertNew_eq_link henv, ← hlvl, hs', ok_bind]

/-- `s'` is `s` after an insertion that found no memory: every node is as before, `sl->level` may
have been raised. -/
structure Unchanged (s s' : PidSkiplist α) (lvl : ℕ) : Prop where
  level : s'.level = max s.level lvl
  header : s'.header = s.header
  brk : s.brk ≤ s'.brk
  rcu : s'.rcu = s.rcu
  node : s'.node = s.node

theorem Unchanged.fwd {lvl : ℕ} (hu : Unchanged s s' lvl) : s'.fwd = s.fwd := by
  funext q j; simp [PidSkiplist.fwd, hu.node]

theorem Unchanged.ht {lvl : ℕ} (hu : Unchanged s s' lvl) : s'.ht = s.ht := by
  funext q; simp [PidSkiplist.ht, hu.node]

theorem Unchanged.key {lvl : ℕ} (hu : Unchanged s s' lvl) : s'.key = s.key := by
  funext q; simp [PidSkiplist.key, hu.node]

theorem Unchanged.pid {lvl : ℕ} (hu : Unchanged s s' lvl) : s'.pid = s.pid := by
  funext q; simp [PidSkiplist.pid, hu.node]

theorem insertNew_fail (s : PidSkiplist α) (h : Addr) (update : ℕ → Option Addr) (k : ℤ)
    (v : Option α) (henv : env.ok = false) :
    ∃ s', s.insertNew h update k v env = .ok (s', none) ∧ Unchanged s s' env.draw.val := by
  have hlevel := raiseLevel_level s env.draw.val
  -- either allocation may be the one that fails; the level is raised before both
  cases hk : env.kzalloc with
  | false =>
      refine ⟨s.raiseLevel env.draw.val, ?_, hlevel, rfl, le_refl _, rfl, rfl⟩
      simp [insertNew, nodeAlloc, hk]
  | true =>
      have hc : env.kcalloc = false := by simpa [NodeEnv.ok, hk] using henv
      refine ⟨((s.raiseLevel env.draw.val).nodeAlloc env.draw.val env).1, ?_, ?_, ?_, ?_, ?_, ?_⟩
      · simp [insertNew, nodeAlloc, hk, hc]
      all_goals simp [nodeAlloc, hk, hc, hlevel]
      all_goals simp [raiseLevel]

theorem Shape.of_unchanged {lvl : ℕ} (hs : Shape s h L) (hu : Unchanged s s' lvl)
    (hlvl : lvl ≤ pidSlMaxLevel) : Shape s' h L where
  header := hu.header.trans hs.header
  header_ht := by rw [hu.ht]; exact hs.header_ht
  nodup := hs.nodup
  ht_pos := by rw [hu.ht]; exact hs.ht_pos
  ht_le := fun p hp => by
    rw [hu.ht, hu.level]
    exact le_trans (hs.ht_le p hp) (le_max_left _ _)
  linked := by rw [hu.fwd, hu.ht]; exact hs.linked
  level_pos := by rw [hu.level]; exact lt_of_lt_of_le hs.level_pos (le_max_left _ _)
  level_le := by rw [hu.level]; exact max_le hs.level_le hlvl
  lt_brk := fun p hp => by
    rw [hu.ht] at hp
    exact lt_of_lt_of_le (hs.lt_brk p hp) hu.brk

theorem Inv.of_unchanged {lvl : ℕ} (hs : Inv s h L) (hu : Unchanged s s' lvl)
    (hlvl : lvl ≤ pidSlMaxLevel) : Inv s' h L :=
  ⟨hs.toShape.of_unchanged hu hlvl, by rw [hu.key]; exact hs.sorted⟩

/-! ## Taking a node out -/

/-- `s'` is `s` with the node `x` behind `h :: A` taken out; its fields stay as they are. -/
structure Removed (s s' : PidSkiplist α) (h : Addr) (A : List Addr) (x : Addr) : Prop where
  level : s'.level ≤ s.level
  header : s'.header = s.header
  brk : s'.brk = s.brk
  rcu : s'.rcu = s.rcu ++ [x]
  log : s'.log = s.log
  ht : s'.ht = s.ht
  key : s'.key = s.key
  pid : s'.pid = s.pid
  fwd : ∀ q j, s'.fwd q j =
    if j < s.ht x ∧ q = lastAt s.ht j h A then s.fwd x j else s.fwd q j
  shrunk : 1 < s'.level → s'.fwd h (s'.level - 1) ≠ none

/-- A list without a node is in shape, with its level lowered past levels that are empty then. -/
theorem Shape.removed (hs : Shape s h (A ++ x :: B)) (hrem : Removed s s' h A x)
    (hpos : 0 < s'.level) (hnone : ∀ j, s'.level ≤ j → j < s.level → s'.fwd h j = none) :
    Shape s' h (A ++ B) := by
  have hlink : Linked s.fwd s.ht (h :: A ++ x :: B) := hs.linked
  have hnodup : (h :: A ++ x :: B).Nodup := hs.nodup
  have hsub : ∀ p ∈ A ++ B, p ∈ A ++ x :: B := by
    intro p hp; simp only [List.mem_append, List.mem_cons] at hp ⊢; tauto
  have hlinked : Linked s'.fwd s.ht (h :: A ++ B) := by
    refine hlink.unsplice hnodup ?_ ?_
    · intro j hj; rw [hrem.fwd, if_pos ⟨hj, rfl⟩]
    · intro p _ j _ hnot; rw [hrem.fwd, if_neg hnot]
  refine ⟨hrem.header.trans hs.header, ?_, ?_, ?_, ?_, ?_, hpos,
    le_trans hrem.level hs.level_le, ?_⟩
  · rw [hrem.ht]; exact hs.header_ht
  · simp only [List.cons_append, List.nodup_cons, List.nodup_append, List.mem_append,
      List.mem_cons] at hnodup ⊢
    grind
  · intro p hp; rw [hrem.ht]; exact hs.ht_pos p (hsub p hp)
  · -- a taller node would be linked on the first level that is empty
    intro p hp
    rw [hrem.ht]
    by_contra hlt
    have hmp : s'.level < s.ht p := Nat.not_le.mp hlt
    have hple : s.ht p ≤ s.level := hs.ht_le p (hsub p hp)
    have hn : s'.fwd h s'.level = none := hnone _ (le_refl _) (by omega)
    have hlevel := hs.level_le_header
    rw [hlinked.fwd_head (by omega), nextAt_eq_none_iff] at hn
    exact absurd (hn p hp) (Nat.not_le.mpr hmp)
  · rw [hrem.ht]; exact hlinked
  · intro p hp; rw [hrem.brk]; rw [hrem.ht] at hp; exact hs.lt_brk p hp

/-- On the levels that `x` reaches, the nodes in front of it point to it. -/
theorem Shape.fwd_lastAt_iff (hs : Shape s h (A ++ x :: B)) {j : ℕ} (hj : j < s.ht h) :
    s.fwd (lastAt s.ht j h A) j = some x ↔ j < s.ht x := by
  have hlink : Linked s.fwd s.ht (h :: A ++ x :: B) := hs.linked
  have hnodup : (h :: A ++ x :: B).Nodup := hs.nodup
  rw [hlink.fwd_lastAt hj]
  by_cases hxj : j < s.ht x
  · simp [nextAt_cons_of_lt hxj, hxj]
  · rw [nextAt_cons_of_le (Nat.not_lt.mp hxj)]
    refine ⟨fun hc => ?_, fun hc => absurd hc hxj⟩
    have hxB : x ∈ B := mem_of_nextAt hc
    simp only [List.nodup_cons, List.nodup_append] at hnodup
    exact absurd hxB hnodup.2.1.1

/-- Taking out the node `x` behind `h :: A`. -/
theorem Shape.removeNode_ok (hs : Shape s h (A ++ x :: B))
    (hupd : ∀ j < s.level, update j = some (lastAt s.ht j h A)) :
    ∃ s', s.removeNode h update x = .ok s' ∧ Shape s' h (A ++ B) ∧ Removed s s' h A x := by
  have hxle : s.ht x ≤ s.level := hs.ht_le x (by simp)
  have hnodup : (h :: A ++ x :: B).Nodup := hs.nodup
  have hheader : ∀ j < s.level, j < s.ht h := fun j hj => lt_of_lt_of_le hj hs.level_le_header
  have hne : ∀ j, lastAt s.ht j h A ≠ x := fun j =>
    (ne_lastAt_of_mem s.ht j hnodup (by simp)).symm
  obtain ⟨s₁, hs₁, hframe, hfwd₁⟩ := unlink_spec (s := s) (x := x) (n := s.level) (i := 0)
    (u := fun j => lastAt s.ht j h A) (fun j _ hj => hupd j (by omega))
    (fun j _ hj => lt_ht_lastAt (hheader j (by omega)) A)
    (fun j _ hj => hs.fwd_lastAt_iff (hheader j (by omega))) (fun j _ _ => hne j)
  obtain ⟨m, hm, hmpos, hmle, hnone, htop⟩ := shrink_spec (s := s₁) (h := h) hs.level_pos
    (by rw [hframe.ht]; exact hs.level_le_header)
  set s' : PidSkiplist α := { s₁ with level := m, rcu := s₁.rcu ++ [x] } with hs'
  have hfwd : ∀ q j, s'.fwd q j =
      if j < s.ht x ∧ q = lastAt s.ht j h A then s.fwd x j else s.fwd q j := by
    intro q j
    rw [show s'.fwd = s₁.fwd from rfl, hfwd₁]
    have hiff : (0 ≤ j ∧ j < 0 + s.level ∧ j < s.ht x ∧ q = lastAt s.ht j h A) ↔
        (j < s.ht x ∧ q = lastAt s.ht j h A) := by
      constructor
      · exact fun hc => hc.2.2
      · exact fun hc => ⟨Nat.zero_le j, by omega, hc⟩
    simp only [hiff]
  have hremoved : Removed s s' h A x :=
    ⟨hmle, hframe.header, hframe.brk, by rw [← hframe.rcu], hframe.log, hframe.ht, hframe.key,
      hframe.pid, hfwd, htop⟩
  refine ⟨s', ?_, hs.removed hremoved hmpos hnone, hremoved⟩
  simp only [removeNode, hs₁, ok_bind, hframe.level, hm, hs']

end KernelPid.PidSkiplist
