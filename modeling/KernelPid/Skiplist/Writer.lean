import KernelPid.Skiplist.Map

/-!
# What a writer call leaves behind for others

`nodes` and `bindings` read the content off a list. `Inv.write_kept` says what one
`pid_skiplist_insert` or `pid_skiplist_remove` call does to nodes that somebody else may be looking
at: a node never changes its key or its height, and a node that is not in the list afterwards is not
written to at all.
-/

namespace KernelPid.PidSkiplist

open Runs Tower

variable {α : Type} {s s' : PidSkiplist α} {h : Addr} {k : ℤ} {L L' : List Addr} {op : WriteOp α}

/-! ## The content of a list -/

/-- The header and the nodes of the level-0 chain. -/
def nodes (s : PidSkiplist α) : List Addr :=
  match s.chainFrom (s.brk + 1) s.header with
  | .ok xs => xs
  | .error _ => []

/-- The bindings of the nodes behind the header. -/
def bindings (s : PidSkiplist α) : Bindings α := fun k =>
  (s.nodes.tail.find? fun p => s.key p = k).map s.pid

/-- The level-0 chain from any place of the list is the rest of the list. -/
theorem Shape.chainFrom_eq (hs : Shape s h L) {A B : List Addr} (hL : h :: L = A ++ B) {fuel : ℕ}
    (hfuel : B.length < fuel) : s.chainFrom fuel B.head? = .ok B := by
  induction B generalizing A fuel with
  | nil =>
      obtain ⟨f, rfl⟩ : ∃ f, fuel = f + 1 := ⟨fuel - 1, by omega⟩
      rfl
  | cons x B ih =>
      obtain ⟨f, rfl⟩ : ∃ f, fuel = f + 1 := ⟨fuel - 1, by omega⟩
      have hx : 0 < s.ht x := hs.ht_pos' x (by rw [hL]; simp)
      have hB : ∀ b ∈ B, 0 < s.ht b := fun b hb => hs.ht_pos' b (by rw [hL]; simp [hb])
      have hnext : s.fwd x 0 = B.head? := by
        rw [hs.linked A x B hL 0 hx, nextAt_eq_head? hB]
      have hrest : s.chainFrom f B.head? = .ok B :=
        ih (A := A ++ [x]) (by rw [hL]; simp) (by simp at hfuel; omega)
      simp only [List.head?_cons, chainFrom, forward_eq hx, ok_bind, hnext, hrest]

theorem Shape.nodes_eq (hs : Shape s h L) : s.nodes = h :: L := by
  have hlen : (h :: L).length < s.brk + 1 := by
    have hlt := hs.length_lt_brk
    simp only [List.length_cons]
    omega
  have hchain := hs.chainFrom_eq (A := []) (B := h :: L) rfl hlen
  rw [nodes, hs.header]
  rw [List.head?_cons] at hchain
  rw [hchain]

/-- A key is bound when a node of the list has it. -/
theorem Inv.bindings_eq_some_iff (hs : Inv s h L) {v : Option α} :
    s.bindings k = some v ↔ ∃ p ∈ L, s.key p = k ∧ s.pid p = v := by
  rw [bindings, hs.nodes_eq, List.tail_cons, Option.map_eq_some_iff]
  constructor
  · rintro ⟨p, hp, hv⟩
    exact ⟨p, List.mem_of_find?_eq_some hp, by simpa using List.find?_some hp, hv⟩
  · rintro ⟨p, hp, rfl, hv⟩
    exact ⟨p, hs.find_key hp, hv⟩

/-- A list represents one map only. -/
theorem Represents.eq_bindings {m : Bindings α} (hm : Represents s m) : m = s.bindings := by
  obtain ⟨h, L, hs, hm⟩ := hm
  funext k
  rw [PidSkiplist.bindings_eq hm, bindings, hs.nodes_eq, List.tail_cons]

/-- The nodes behind the header hold the bindings, in the order of their keys. -/
theorem Represents.nodes_tail {m : Bindings α} (hm : Represents s m) :
    (s.nodes.tail.Pairwise fun x y => s.key x < s.key y) ∧
      ∀ k v, m k = some v ↔ ∃ x ∈ s.nodes.tail, s.key x = k ∧ s.pid x = v := by
  obtain ⟨h, L, hs, hm⟩ := hm
  rw [hs.nodes_eq, List.tail_cons]
  exact ⟨hs.sorted, hm⟩

/-- A key is not bound when no node of the list has it. -/
theorem Inv.bindings_eq_none_iff (hs : Inv s h L) : s.bindings k = none ↔ ∀ p ∈ L, s.key p ≠ k := by
  rw [bindings, hs.nodes_eq, List.tail_cons, Option.map_eq_none_iff, find_key_eq_none_iff]

/-- A property of the values of all nodes is one of all bindings. -/
theorem bindings_ne {k : ℤ} {v w : Option α} (hs : ∀ x ∈ s.nodes.tail, s.pid x ≠ w)
    (hv : s.bindings k = some v) : v ≠ w := by
  obtain ⟨p, hp, rfl⟩ := Option.map_eq_some_iff.mp hv
  exact hs p (List.mem_of_find?_eq_some hp)

/-! ## One writer call -/

/-- The key of a writer call. -/
def WriteOp.key : WriteOp α → ℤ
  | .insert key _ _ => key
  | .remove key => key

/-- The call `op` took the list `L` to `L'`. -/
structure Kept (op : WriteOp α) (s s' : PidSkiplist α) (h : Addr) (L L' : List Addr) : Prop where
  ht : ∀ q, 0 < s.ht q → s'.ht q = s.ht q
  key : ∀ q, 0 < s.ht q → s'.key q = s.key q
  fwd : ∀ q, 0 < s.ht q → q ∉ h :: L' → s'.fwd q = s.fwd q
  pid : ∀ q, 0 < s.ht q → q ∉ h :: L' → s'.pid q = s.pid q
  fresh : ∀ q ∈ L', q ∉ L → s.ht q = 0 ∧ ∃ k v env, op = .insert k v env ∧ s'.key q = k ∧
    env.ok = true ∧ ∀ p ∈ L, s.key p ≠ k

/-- A new node is linked in. -/
theorem Added.kept (hs : Inv s h L) (hk : ∀ p ∈ L, s.key p ≠ k) {v : Option α} {env : NodeEnv}
    (henv : env.ok = true) (hadded : Added s s' h (below s k L) k v env.draw.val) :
    Kept (.insert k v env) s s' h L (below s k L ++ s.brk :: above s k L) := by
  have hne : ∀ q, 0 < s.ht q → q ≠ s.brk := fun q hq => Nat.ne_of_lt (hs.lt_brk q hq)
  have hmem : ∀ q, q ∈ below s k L ++ s.brk :: above s k L ↔ q = s.brk ∨ q ∈ L := fun q => by
    conv_rhs => rw [← below_append_above s k L]
    simp only [List.mem_append, List.mem_cons]
    tauto
  refine ⟨fun q hq => ?_, fun q hq => ?_, fun q hq hnot => ?_, fun q hq _ => ?_,
    fun q hq hnot => ?_⟩
  · rw [hadded.ht, if_neg (hne q hq)]
  · rw [hadded.key, if_neg (hne q hq)]
  · funext j
    -- only the nodes in front of the new one are written, and they are all in the list
    have hlast : q ≠ lastAt s.ht j h (below s k L) := by
      rintro rfl
      rcases List.mem_cons.mp (lastAt_mem (i := j) h (below s k L)) with heq | hbelow
      · exact hnot (by rw [heq]; simp)
      · exact hnot (List.mem_cons_of_mem _ ((hmem _).mpr (Or.inr (mem_of_mem_below hbelow))))
    rw [hadded.fwd, if_neg (hne q hq), if_neg fun hc => hlast hc.2]
  · rw [hadded.pid, if_neg (hne q hq)]
  · obtain rfl : q = s.brk := ((hmem q).mp hq).resolve_right hnot
    refine ⟨?_, k, v, env, rfl, by rw [hadded.key, if_pos rfl], henv, hk⟩
    by_contra hpos
    exact hne s.brk (Nat.pos_of_ne_zero hpos) rfl

/-- A node is taken out. -/
theorem Removed.kept {x : Addr} {A B : List Addr} (hrem : Removed s s' h A x) :
    Kept op s s' h (A ++ x :: B) (A ++ B) := by
  refine ⟨fun q _ => by rw [hrem.ht], fun q _ => by rw [hrem.key], fun q _ hnot => ?_,
    fun q _ _ => by rw [hrem.pid], fun q hq hnot => ?_⟩
  · funext j
    -- as above: what is written is in the list
    have hlast : q ≠ lastAt s.ht j h A := by
      rintro rfl
      refine hnot ?_
      rcases List.mem_cons.mp (lastAt_mem (i := j) h A) with heq | hA
      · rw [heq]; simp
      · exact List.mem_cons_of_mem _ (List.mem_append_left _ hA)
    rw [hrem.fwd, if_neg fun hc => hlast hc.2]
  · refine absurd ?_ hnot
    rcases List.mem_append.mp hq with hA | hB
    · exact List.mem_append_left _ hA
    · exact List.mem_append_right _ (List.mem_cons_of_mem _ hB)

/-- A call that leaves the nodes' pointers alone. -/
theorem Kept.of_same (hht : s'.ht = s.ht) (hkey : s'.key = s.key) (hfwd : s'.fwd = s.fwd)
    (hpid : ∀ q, q ∉ h :: L → s'.pid q = s.pid q) : Kept op s s' h L L where
  ht _ _ := by rw [hht]
  key _ _ := by rw [hkey]
  fwd _ _ _ := by rw [hfwd]
  pid q _ hnot := hpid q hnot
  fresh q hq hnot := absurd hq hnot

/-- One writer call, on any list. -/
theorem Inv.write_kept (hs : Inv s h L) (op : WriteOp α) :
    ∃ s' retval L', s.write op = .ok (s', retval) ∧ Inv s' h L' ∧ Kept op s s' h L L' := by
  cases op with
  | insert k v env =>
      by_cases hpres : ∃ p ∈ L, s.key p = k
      · obtain ⟨p, hp, hk⟩ := hpres
        refine ⟨s.setPid p v, some 0, L, ?_, hs.setPid p v, ?_⟩
        · simp only [write, hs.insert_present hp hk, ok_bind]
        · refine Kept.of_same (setPid_ht s p v) (setPid_key s p v) (setPid_fwd s p v) fun q hq => ?_
          have hqp : q ≠ p := fun hc => hq (by rw [hc]; exact List.mem_cons_of_mem _ hp)
          rw [setPid_pid v (hs.ht_pos p hp), if_neg hqp]
      · have hnew : ∀ p ∈ L, s.key p ≠ k := fun p hp hk => hpres ⟨p, hp, hk⟩
        cases henv : env.ok with
        | true =>
            obtain ⟨s', hs', hinv', hadded⟩ := hs.insert_absent hnew henv v
            exact ⟨s', some 0, _, by simp only [write, hs', ok_bind], hinv',
              hadded.kept hs hnew henv⟩
        | false =>
            obtain ⟨s', hs', hinv', hu⟩ := hs.insert_enomem hnew henv v
            exact ⟨s', some (-ENOMEM), L, by simp only [write, hs', ok_bind], hinv',
              Kept.of_same hu.ht hu.key hu.fwd fun q _ => by rw [hu.pid]⟩
  | remove k =>
      by_cases hpres : ∃ p ∈ L, s.key p = k
      · obtain ⟨p, hp, rfl⟩ := hpres
        obtain ⟨s', B, hs', hL, hinv', hrem⟩ := hs.remove_present hp
        refine ⟨s', none, _, by simp only [write, hs', ok_bind], hinv', ?_⟩
        have hkept : Kept (.remove (s.key p)) s s' h (below s (s.key p) L ++ p :: B)
          (below s (s.key p) L ++ B) := hrem.kept
        rwa [← hL] at hkept
      · have hnew : ∀ p ∈ L, s.key p ≠ k := fun p hp hk => hpres ⟨p, hp, hk⟩
        exact ⟨s, none, L, by simp only [write, hs.remove_absent hnew, ok_bind], hs,
          Kept.of_same rfl rfl rfl fun _ _ => rfl⟩

/-- The list that a sequence of writer calls makes of an initialised one. -/
def listAfter (ops : List (WriteOp α)) : PidSkiplist α :=
  match runOut write init ops with
  | .ok (s, _) => s
  | .error _ => init

/-- The invariant along a run of writer calls; `int` keys stay `int` keys. -/
theorem Inv.write_run (hs : Inv s h L) (ops : List (WriteOp α)) :
    ∃ s' retvals L', runOut write s ops = .ok (s', retvals) ∧ Inv s' h L' ∧
      ((∀ p ∈ L, intMin ≤ s.key p) → (∀ op ∈ ops, intMin ≤ op.key) →
        ∀ p ∈ L', intMin ≤ s'.key p) := by
  induction ops generalizing s L with
  | nil => exact ⟨s, [], L, rfl, hs, fun hL _ => hL⟩
  | cons op ops ih =>
      obtain ⟨s₁, retval, L₁, hs₁, hinv₁, hk⟩ := hs.write_kept op
      obtain ⟨s', retvals, L', hs', hinv', hint⟩ := ih hinv₁
      refine ⟨s', retval :: retvals, L', by simp only [runOut, hs₁, ok_bind, hs'], hinv',
        fun hL hops => hint (fun p hp => ?_) fun op' hop => hops op' (List.mem_cons_of_mem _ hop)⟩
      by_cases hpL : p ∈ L
      · rw [hk.key p (hs.ht_pos p hpL)]
        exact hL p hpL
      · obtain ⟨-, k, v, env, rfl, hkey, -, -⟩ := hk.fresh p hp hpL
        rw [hkey]
        exact hops (.insert k v env) (by simp)

theorem inv_listAfter (ops : List (WriteOp α)) :
    ∃ L, Inv (listAfter ops) 0 L ∧
      ((∀ op ∈ ops, intMin ≤ op.key) → ∀ p ∈ L, intMin ≤ (listAfter ops).key p) := by
  obtain ⟨s, retvals, L, hs, hinv, hint⟩ := inv_init.write_run ops
  have hlist : listAfter ops = s := by simp only [listAfter, hs]
  rw [hlist]
  exact ⟨L, hinv, hint (by simp)⟩

/-- The list represents its bindings. -/
theorem represents_listAfter (ops : List (WriteOp α)) :
    Represents (listAfter ops) (listAfter ops).bindings := by
  obtain ⟨L, hs, -⟩ := inv_listAfter ops
  exact ⟨0, L, hs, fun k v => hs.bindings_eq_some_iff⟩

end KernelPid.PidSkiplist
