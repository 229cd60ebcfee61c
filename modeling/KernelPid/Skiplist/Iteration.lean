import KernelPid.Skiplist.LockFree

/-!
# An iteration beside a writer

The cursor of an iteration is on a node of the list, and whole writer calls run between its steps.
They may take the node out, and those behind it, so that the cursor goes from one stale node to the
next. A pointer of a stale node is as it was when the node was taken out, so it does not lead past a
node that was in the list then: what is in the list throughout is never passed over (`Tracked`).
`iteration_complete` is the result for whole runs that begin on a node of the list. From a stale
node on it does not hold (`stale_cursor_misses_new_node`).
-/

namespace KernelPid.PidSkiplist

open Runs Tower

variable {α : Type} {s s' : PidSkiplist α} {h x c p : Addr} {L L' : List Addr} {V : Addr → Prop}
  {op : WriteOp α}

/-- The list, the cursor, the nodes that it was moved to, and whether it came to the end
of the list. -/
structure Iteration (α : Type) where
  list : PidSkiplist α
  cursor : Option Addr
  visited : List Addr
  ended : Bool

/-- The cursor is on `x`. -/
def Iteration.on (s : PidSkiplist α) (x : Addr) : Iteration α where
  list := s
  cursor := some x
  visited := []
  ended := false

/-- `pid_skiplist_iter_next_rcu` with a cursor, until it leaves the cursor where it is; or a
writer call. -/
def iterationStep (startKey : ℤ) (st : Iteration α) : Act α → Except Fault (Iteration α)
  | .read =>
    if st.ended then .ok st
    else do
      let (cursor, _) ← st.list.iterNextRcu st.cursor startKey
      if cursor = st.cursor then .ok { st with ended := true }
      else .ok { st with cursor, visited := st.visited ++ cursor.toList }
  | .write op => do
    let (list, _) ← st.list.write op
    .ok { st with list }

/-- The node is in the list as long as the iteration goes on. -/
def Stays (p : Addr) (st : Iteration α) : Prop := st.ended = false → p ∈ st.list.nodes.tail

instance (p : Addr) (st : Iteration α) : Decidable (Stays p st) :=
  inferInstanceAs (Decidable (st.ended = false → p ∈ st.list.nodes.tail))

/-! ## The nodes behind a visible node -/

/-- No pointer of a visible node leads past `p`, and no other visible node has its key. -/
structure NotPassed (s : PidSkiplist α) (V : Addr → Prop) (p : Addr) : Prop where
  next : ∀ {q}, V q → s.key q < s.key p → ∃ y, s.fwd q 0 = some y ∧ s.key y ≤ s.key p
  unique : ∀ {q}, V q → s.key q = s.key p → q = p

theorem Inv.notPassed (hs : Inv s h L) (hp : p ∈ L) : NotPassed s (· ∈ L) p where
  next hq hlt := hs.fwd_zero_le (List.mem_cons_of_mem _ hq) hp (Or.inr hlt)
  unique hq heq := hs.eq_of_key_eq hq hp heq

/-- A node that stays in the list is not passed after a writer call either. -/
theorem NotPassed.write (hv : Visible s h L V) (h₀ : NotPassed s V p) (hp : p ∈ L)
    (hv' : Visible s' h L' (Grow V L')) (hk : Kept op s s' h L L') (hp' : p ∈ L') :
    NotPassed s' (Grow V L') p := by
  have hlive := hv'.inv.notPassed hp'
  have hkey : ∀ {q}, V q → s'.key q = s.key q := fun {q} hq => hk.key q (hv.alloc q hq)
  have hpkey := hkey (hv.live p hp)
  refine ⟨fun {q} hq hlt => ?_, fun {q} hq heq => ?_⟩
  · by_cases hqL : q ∈ L'
    · exact hlive.next hqL hlt
    · -- a stale node has the pointer that it had before
      have hqV : V q := hq.resolve_right hqL
      rw [hkey hqV, hpkey] at hlt
      obtain ⟨y, hy, hle⟩ := h₀.next hqV hlt
      obtain ⟨hyV, -, -⟩ := hv.fwd q 0 y hqV (hv.alloc q hqV) hy
      refine ⟨y, ?_, by rwa [hkey hyV, hpkey]⟩
      rw [hk.fwd q (hv.alloc q hqV) (by simp [hv.ne_header q hqV, hqL])]
      exact hy
  · rcases hq with hqV | hqL
    · apply h₀.unique hqV
      rwa [hkey hqV, hpkey] at heq
    · exact hlive.unique hqL heq

/-! ## The iteration -/

variable {st : Iteration α}

/-- The cursor of an iteration from `x` is on `c`, and has come there in ascending order. -/
structure OnCourse (x : Addr) (st : Iteration α) (h : Addr) (L : List Addr) (V : Addr → Prop)
    (c : Addr) : Prop where
  visible : Visible st.list h L V
  cursor : st.cursor = some c
  mem : ∀ y ∈ c :: x :: st.visited, V y
  le : ∀ y ∈ x :: st.visited, st.list.key y ≤ st.list.key c
  sorted : (x :: st.visited).Pairwise fun y z => st.list.key y < st.list.key z

/-- `p` was visited, or lies ahead of the cursor and will not be passed. -/
def Tracked (p : Addr) (st : Iteration α) (L : List Addr) (V : Addr → Prop) (c : Addr) : Prop :=
  if st.ended then p ∈ st.visited
  else p ∈ L ∧ NotPassed st.list V p ∧ (p ∈ st.visited ∨ st.list.key c < st.list.key p)

theorem Inv.onCourse (hs : Inv s h L) (hx : x ∈ L) : OnCourse x (.on s x) h L (· ∈ L) x where
  visible := hs.visible
  cursor := rfl
  mem y hy := by
    rcases List.mem_cons.mp hy with rfl | hy
    · exact hx
    · rwa [List.mem_singleton.mp hy]
  le y hy := by
    rw [List.mem_singleton.mp hy]
  sorted := List.pairwise_singleton _ _

theorem Inv.tracked (hs : Inv s h L) (hp : p ∈ L) (hlt : s.key x < s.key p) :
    Tracked p (.on s x) L (· ∈ L) x :=
  ⟨hp, hs.notPassed hp, Or.inr hlt⟩

/-- The cursor moves on to the next node. -/
theorem OnCourse.moved {y : Addr} (hc : OnCourse x st h L V c) (hfwd : st.list.fwd c 0 = some y) :
    OnCourse x { st with cursor := some y, visited := st.visited ++ [y] } h L V y := by
  have hVc : V c := hc.mem c (by simp)
  obtain ⟨hyV, -, hlt⟩ := hc.visible.fwd c 0 y hVc (hc.visible.alloc c hVc) hfwd
  have hmem : ∀ z, z ∈ x :: (st.visited ++ [y]) → z = y ∨ z ∈ x :: st.visited := by
    intro z hz
    rw [← List.cons_append, List.mem_append, List.mem_singleton] at hz
    exact hz.symm
  refine ⟨hc.visible, rfl, fun z hz => ?_, fun z hz => ?_, ?_⟩
  · rcases List.mem_cons.mp hz with rfl | hz
    · exact hyV
    · rcases hmem z hz with rfl | hz
      · exact hyV
      · exact hc.mem z (List.mem_cons_of_mem _ hz)
  · rcases hmem z hz with rfl | hz
    · exact le_refl _
    · exact le_of_lt (lt_of_le_of_lt (hc.le z hz) hlt)
  · show ((x :: st.visited) ++ [y]).Pairwise _
    refine List.pairwise_append.mpr ⟨hc.sorted, List.pairwise_singleton _ _, fun z hz w hw => ?_⟩
    rw [List.mem_singleton.mp hw]
    exact lt_of_le_of_lt (hc.le z hz) hlt

/-- A node that was ahead of the cursor is visited then, or still ahead. -/
theorem OnCourse.tracked_moved {y : Addr} (hc : OnCourse x st h L V c) (hended : st.ended = false)
    (hfwd : st.list.fwd c 0 = some y) (hp : Tracked p st L V c) :
    Tracked p { st with cursor := some y, visited := st.visited ++ [y] } L V y := by
  have hVc : V c := hc.mem c (by simp)
  obtain ⟨hyV, -, -⟩ := hc.visible.fwd c 0 y hVc (hc.visible.alloc c hVc) hfwd
  simp only [Tracked, hended, Bool.false_eq_true, if_false] at hp ⊢
  obtain ⟨hpL, hpass, hp⟩ := hp
  refine ⟨hpL, hpass, ?_⟩
  rcases hp with hp | hltp
  · exact Or.inl (List.mem_append_left _ hp)
  · obtain ⟨z, hz, hle⟩ := hpass.next hVc hltp
    obtain rfl := Option.some.inj (hfwd.symm.trans hz)
    rcases lt_or_eq_of_le hle with hlt | heq
    · exact Or.inr hlt
    · rw [← hpass.unique hyV heq]
      exact Or.inl (by simp)

/-- A step to the next node. -/
theorem OnCourse.read (hc : OnCourse x st h L V c) (startKey : ℤ) (hended : st.ended = false) :
    ∃ st' c', iterationStep startKey st .read = .ok st' ∧ OnCourse x st' h L V c' ∧
      ∀ p, Tracked p st L V c → Tracked p st' L V c' := by
  have hVc : V c := hc.mem c (by simp)
  obtain ⟨cursor, ret, hiter, hend, hnext⟩ := hc.visible.iterNextRcu hVc startKey
  cases hfwd : st.list.fwd c 0 with
  | none =>
      obtain rfl := hend hfwd
      refine ⟨{ st with ended := true }, c, ?_,
        ⟨hc.visible, hc.cursor, hc.mem, hc.le, hc.sorted⟩, fun p hp => ?_⟩
      · simp only [iterationStep, hended, Bool.false_eq_true, if_false, hc.cursor, hiter, ok_bind,
          if_true]
      · -- nothing lies ahead of a cursor without a next node
        simp only [Tracked, hended, Bool.false_eq_true, if_false] at hp
        obtain ⟨-, hpass, hp | hlt⟩ := hp
        · exact hp
        · obtain ⟨y, hy, -⟩ := hpass.next hVc hlt
          rw [hfwd] at hy
          simp at hy
  | some y =>
      obtain rfl := hnext y hfwd
      -- the keys ascend along the pointers, so the cursor does move
      have hne : ¬ some y = some c := by
        intro heq
        obtain ⟨-, -, hlt⟩ := hc.visible.fwd c 0 y hVc (hc.visible.alloc c hVc) hfwd
        rw [Option.some.inj heq] at hlt
        exact lt_irrefl _ hlt
      refine ⟨_, y, ?_, hc.moved hfwd, fun p => hc.tracked_moved hended hfwd⟩
      simp only [iterationStep, hended, Bool.false_eq_true, if_false, hc.cursor, hiter, ok_bind,
        if_neg hne, Option.toList_some]

/-- A writer call between two steps. -/
theorem OnCourse.write (hc : OnCourse x st h L V c) (startKey : ℤ) (op : WriteOp α) :
    ∃ st' L' V', iterationStep startKey st (.write op) = .ok st' ∧ OnCourse x st' h L' V' c ∧
      ∀ p, Stays p st' → Tracked p st L V c → Tracked p st' L' V' c := by
  obtain ⟨s', retval, L', hw, hv', hk⟩ := hc.visible.write op
  have hkey : ∀ {y}, V y → s'.key y = st.list.key y := fun {y} hy =>
    hk.key y (hc.visible.alloc y hy)
  have hkeyc : s'.key c = st.list.key c := hkey (hc.mem c (by simp))
  have hkeyx : ∀ y ∈ x :: st.visited, s'.key y = st.list.key y := fun y hy =>
    hkey (hc.mem y (List.mem_cons_of_mem _ hy))
  refine ⟨{ st with list := s' }, L', Grow V L', ?_,
    ⟨hv', hc.cursor, fun y hy => Or.inl (hc.mem y hy), fun y hy => ?_, ?_⟩, fun p hstays hp => ?_⟩
  · simp only [iterationStep, hw, ok_bind]
  · show s'.key y ≤ s'.key c
    rw [hkeyx y hy, hkeyc]
    exact hc.le y hy
  · refine hc.sorted.imp_of_mem fun {y z} hy hz hlt => ?_
    show s'.key y < s'.key z
    rwa [hkeyx y hy, hkeyx z hz]
  · unfold Tracked at hp ⊢
    cases hended : st.ended with
    | true => simpa only [hended, if_true] using hp
    | false =>
        simp only [hended, Bool.false_eq_true, if_false] at hp ⊢
        obtain ⟨hpL, hpass, hvisited⟩ := hp
        -- `p` stays in the list, so the writer does not hide it from the cursor
        have hpL' : p ∈ L' := by
          have hnodes := hstays hended
          rwa [hv'.inv.nodes_eq, List.tail_cons] at hnodes
        refine ⟨hpL', hpass.write hc.visible hpL hv' hk hpL', ?_⟩
        rwa [hkeyc, hkey (hc.visible.live p hpL)]

/-- One step of either side. -/
theorem OnCourse.step (hc : OnCourse x st h L V c) (startKey : ℤ) (a : Act α) :
    ∃ st' L' V' c', iterationStep startKey st a = .ok st' ∧ OnCourse x st' h L' V' c' ∧
      ∀ p, Stays p st' → Tracked p st L V c → Tracked p st' L' V' c' := by
  cases a with
  | read =>
      cases hended : st.ended with
      | true =>
          refine ⟨st, L, V, c, ?_, hc, fun p _ hp => hp⟩
          simp only [iterationStep, hended, if_true]
      | false =>
          obtain ⟨st', c', hstep, hc', hp⟩ := hc.read startKey hended
          exact ⟨st', L, V, c', hstep, hc', fun p _ => hp p⟩
  | write op =>
      obtain ⟨st', L', V', hstep, hc', hp⟩ := hc.write startKey op
      exact ⟨st', L', V', c, hstep, hc', hp⟩

/-- The cursor is on a node of a list that writer calls made. Whatever writer calls run between its
steps, it goes on in ascending order, and a node behind it that stays in the list is visited once
before the end is reached. -/
theorem iteration_complete (ops : List (WriteOp α)) (x : Addr) (hx : x ∈ (listAfter ops).nodes.tail)
    (startKey : ℤ) (as : List (Act α)) :
    ∃ st, run (iterationStep startKey) (.on (listAfter ops) x) as = .ok st ∧
      ((x :: st.visited).Pairwise fun y z => st.list.key y < st.list.key z) ∧
      ∀ p, (listAfter ops).key x < (listAfter ops).key p →
        Throughout (iterationStep startKey) (Stays p) (.on (listAfter ops) x) as → st.ended = true →
          st.visited.count p = 1 := by
  obtain ⟨L, hs, -⟩ := inv_listAfter ops
  rw [hs.nodes_eq, List.tail_cons] at hx
  obtain ⟨st, hrun, L', V', c', hc'⟩ := run_invariant_always
    (I := fun st : Iteration α => ∃ L V c, OnCourse x st 0 L V c)
    (fun st a hI => by
      obtain ⟨L, V, c, hc⟩ := hI
      obtain ⟨st', L', V', c', hstep, hc', -⟩ := hc.step startKey a
      exact ⟨st', hstep, L', V', c', hc'⟩)
    ⟨L, _, x, hs.onCourse hx⟩ as
  refine ⟨st, hrun, hc'.sorted, fun p hlt hstays hended => ?_⟩
  have hpL : p ∈ L := by
    have hp := hstays.head rfl
    rwa [Iteration.on, hs.nodes_eq, List.tail_cons] at hp
  obtain ⟨st₁, hrun₁, L₁, V₁, c₁, hc₁, htracked⟩ := run_invariant_of (C := fun _ _ => True)
    (I := fun st : Iteration α => ∃ L V c, OnCourse x st 0 L V c ∧ Tracked p st L V c)
    (fun st a hI _ _ => by
      obtain ⟨L, V, c, hc, hp⟩ := hI
      obtain ⟨st', L', V', c', hstep, hc', htracked⟩ := hc.step startKey a
      exact ⟨st', hstep, fun hst' => ⟨L', V', c', hc', htracked p hst' hp⟩⟩)
    ⟨L, _, x, hs.onCourse hx, hs.tracked hpL hlt⟩ hstays (meets_true _ as)
  obtain rfl := Except.ok.inj (hrun.symm.trans hrun₁)
  rw [Tracked, if_pos hended] at htracked
  have hnodup : st.visited.Nodup :=
    (List.pairwise_cons.mp hc'.sorted).2.imp
      fun hlt heq => absurd hlt (by rw [heq]; exact lt_irrefl _)
  exact List.count_eq_one_of_mem hnodup htracked

/-- The cursor's node and the next one are taken out, and a new node is put between them: the node
with the key 9 is visited. -/
theorem iteration_complete_behind_removed : ∃ st,
    run (iterationStep 1) (.on (listAfter [.insert 5 (some 50) ⟨pidSlRandomLevel 1, true, true⟩,
        .insert 7 (some 70) ⟨pidSlRandomLevel 1, true, true⟩,
        .insert 9 (some 90) ⟨pidSlRandomLevel 1, true, true⟩]) 1)
      [.write (.remove 5), .write (.remove 7),
        .write (.insert 6 (some 60) ⟨pidSlRandomLevel 1, true, true⟩), .read, .read,
        .read] = .ok st ∧ st.visited.count 3 = 1 := by
  obtain ⟨st, hrun, -, hp⟩ :=
    iteration_complete [.insert 5 (some 50) ⟨pidSlRandomLevel 1, true, true⟩,
      .insert 7 (some 70) ⟨pidSlRandomLevel 1, true, true⟩,
    .insert 9 (some 90) ⟨pidSlRandomLevel 1, true, true⟩] 1 (by decide) 1
    [.write (.remove 5), .write (.remove 7),
      .write (.insert 6 (some 60) ⟨pidSlRandomLevel 1, true, true⟩), .read, .read, .read]
  refine ⟨st, hrun, hp 3 (by decide) (by decide) ?_⟩
  have hended := congrArg (Except.map Iteration.ended) hrun
  exact (Except.ok.inj hended).symm

/-- What is expected of the iteration from `st₀` on, be its cursor on a stale node or not: a node
behind the cursor that stays in the list from then on is visited once before the end is reached. -/
def CompleteFrom (startKey : ℤ) (st₀ : Iteration α) (as : List (Act α)) : Prop :=
  ∃ st, run (iterationStep startKey) st₀ as = .ok st ∧ ∀ c ∈ st₀.cursor, ∀ p,
    st₀.list.key c < st₀.list.key p → Throughout (iterationStep startKey) (Stays p) st₀ as →
      st.ended = true → st.visited.count p = 1

/-- The cursor's node and the next one are taken out before the node with the key 9 is put in. The
stale nodes do not lead to it. -/
theorem stale_cursor_misses_new_node : ∃ st₀,
    run (iterationStep 1) (.on (listAfter [.insert 5 (some 50) ⟨pidSlRandomLevel 1, true, true⟩,
        .insert 7 (some 70) ⟨pidSlRandomLevel 1, true, true⟩]) 1)
      [.write (.remove 5), .write (.remove 7),
        .write (.insert 9 (some 90) ⟨pidSlRandomLevel 1, true, true⟩)] = .ok st₀ ∧
    ¬ CompleteFrom 1 st₀ [.read, .read] := by
  refine ⟨_, rfl, ?_⟩
  rintro ⟨st, hrun, hcomplete⟩
  have hend : Except.ok (true, [2]) = Except.ok (st.ended, st.visited) :=
    Eq.trans (by decide) (congrArg (Except.map fun st => (st.ended, st.visited)) hrun)
  obtain ⟨hended, hvisited⟩ := Prod.mk.inj (Except.ok.inj hend)
  have hcount := hcomplete 1 rfl 3 (by decide) (by decide) hended.symm
  rw [← hvisited] at hcount
  exact absurd hcount (by decide)

end KernelPid.PidSkiplist
