import KernelPid.Skiplist.Writer

/-!
# Who frees the nodes

A node is freed by its RCU callback once `remove` took it out, and by `destroy` when it is still in
the list then; a node whose forward array could not be allocated is freed on the spot. `MemLedger`
says of the log of the allocator that nothing was freed twice and that what is not freed yet is held
by one of the nodes given. Along a run these are the header, the nodes of the list and those that
wait for their callback.
-/

namespace KernelPid

/-- The node that the block belongs to. -/
def Block.addr : Block → ℕ
  | .node x | .forward x => x

/-- `kfree(x->forward); kfree(x)` in the log. -/
def freed (x : Addr) : List MemEvent := [.free (.forward x), .free (.node x)]

/-- Each block was allocated once at most, and was freed unless its node is one of `held`; the
addresses from `brk` on are fresh. -/
structure MemLedger (log : List MemEvent) (held : List Addr) (brk : ℕ) : Prop where
  balance : ∀ b : Block, log.count (.alloc b) = log.count (.free b) + held.count b.addr
  once : ∀ b, log.count (.alloc b) ≤ 1
  fresh : ∀ b : Block, brk ≤ b.addr → log.count (.alloc b) = 0

namespace MemLedger

variable {log : List MemEvent} {held held' xs : List Addr} {brk x : ℕ}

theorem perm (hl : MemLedger log held brk) (h : held.Perm held') : MemLedger log held' brk where
  balance b := by
    rw [← h.count_eq]
    exact hl.balance b
  once := hl.once
  fresh := hl.fresh

/-- Nothing is held twice. -/
theorem nodup (hl : MemLedger log held brk) : held.Nodup := by
  rw [List.nodup_iff_count_le_one]
  intro a
  have hbalance := hl.balance (.node a)
  have honce := hl.once (.node a)
  simp only [Block.addr] at hbalance
  omega

/-- What is held has not been freed. -/
theorem notMem_log (hl : MemLedger log held brk) {b : Block} (hb : b.addr ∈ held) :
    .free b ∉ log := by
  intro hc
  have hbalance := hl.balance b
  have honce := hl.once b
  have hheld := List.count_pos_iff.mpr hb
  have hfree := List.count_pos_iff.mpr hc
  omega

/-- A new node. -/
theorem alloc (hl : MemLedger log held brk) :
    MemLedger (log ++ [.alloc (.node brk), .alloc (.forward brk)]) (brk :: held) (brk + 1) := by
  set new : List MemEvent := [.alloc (.node brk), .alloc (.forward brk)] with hnew
  -- both blocks at `brk` are new to the log
  have halloc : ∀ b : Block, new.count (.alloc b) = if b.addr = brk then 1 else 0 := by
    intro b
    obtain rfl | hb := eq_or_ne b.addr brk
    · cases b <;> simp [hnew, Block.addr]
    · have hb' := hb.symm
      cases b <;> simp_all [Block.addr]
  have hfree : ∀ b : Block, new.count (.free b) = 0 := by
    intro b
    simp [hnew]
  constructor
  · intro b
    rw [List.count_append, List.count_append, halloc, hfree, hl.balance b, List.count_cons]
    simp only [beq_iff_eq, @eq_comm ℕ brk]
    omega
  · intro b
    rw [List.count_append, halloc]
    have honce := hl.once b
    have hfresh := hl.fresh b
    split <;> omega
  · intro b hb
    have hfresh := hl.fresh b (by omega)
    rw [List.count_append, halloc, if_neg (by omega), hfresh]

/-- A node without a forward array is freed at once. -/
theorem allocFail (hl : MemLedger log held brk) :
    MemLedger (log ++ [.alloc (.node brk), .free (.node brk)]) held (brk + 1) := by
  set new : List MemEvent := [.alloc (.node brk), .free (.node brk)] with hnew
  have halloc : ∀ b : Block, new.count (.alloc b) = if b = .node brk then 1 else 0 := by
    intro b
    simp [hnew, List.count_cons, @eq_comm Block (.node brk)]
  have hfree : ∀ b : Block, new.count (.free b) = if b = .node brk then 1 else 0 := by
    intro b
    simp [hnew, List.count_cons, @eq_comm Block (.node brk)]
  constructor
  · intro b
    rw [List.count_append, List.count_append, halloc, hfree, hl.balance b]
    omega
  · intro b
    rw [List.count_append, halloc]
    have honce := hl.once b
    split
    · rename_i hb
      have hfresh := hl.fresh b (by rw [hb]; exact le_refl _)
      omega
    · omega
  · intro b hb
    have hfresh := hl.fresh b (by omega)
    have hne : b ≠ .node brk := by
      rintro rfl
      exact absurd hb (Nat.not_succ_le_self brk)
    rw [List.count_append, halloc, if_neg hne, hfresh]

/-- A node that is held is freed. -/
theorem free (hl : MemLedger log (x :: held) brk) : MemLedger (log ++ freed x) held brk := by
  have halloc : ∀ b : Block, (freed x).count (.alloc b) = 0 := by
    intro b
    simp [freed]
  have hfree : ∀ b : Block, (freed x).count (.free b) = if b.addr = x then 1 else 0 := by
    intro b
    obtain rfl | hb := eq_or_ne b.addr x
    · cases b <;> simp [freed, Block.addr]
    · have hb' := hb.symm
      cases b <;> simp_all [freed, Block.addr]
  constructor
  · intro b
    rw [List.count_append, List.count_append, halloc, hfree, hl.balance b, List.count_cons]
    simp only [beq_iff_eq, @eq_comm ℕ x]
    omega
  · intro b
    rw [List.count_append, halloc]
    exact hl.once b
  · intro b hb
    rw [List.count_append, halloc]
    exact hl.fresh b hb

/-- Nodes that are held are freed one after another. -/
theorem freeAll (hl : MemLedger log (xs ++ held) brk) :
    MemLedger (log ++ xs.flatMap freed) held brk := by
  induction xs generalizing log with
  | nil => simpa using hl
  | cons x xs ih =>
      rw [List.flatMap_cons, ← List.append_assoc]
      apply ih
      exact hl.free

/-- When nothing is held, every block was freed exactly once. -/
theorem balanced (hl : MemLedger log [] brk) (b : Block) :
    log.count (.free b) = log.count (.alloc b) ∧ log.count (.alloc b) ≤ 1 := by
  have hbalance := hl.balance b
  rw [List.count_nil] at hbalance
  exact ⟨hbalance.symm, hl.once b⟩

end MemLedger

namespace PidSkiplist

open Runs Tower

variable {α : Type} {s s' : PidSkiplist α} {h x q : Addr} {i : ℕ} {k : ℤ} {v : Option α}
  {env : NodeEnv}
  {L L' A B : List Addr}

/-! ## Freeing a node -/

/-- `kfreeNode` without its check. -/
def freeNode (s : PidSkiplist α) (x : Addr) : PidSkiplist α :=
  { s with
    node := Function.update s.node x none
    log := s.log ++ freed x }

theorem kfreeNode_eq (hx : 0 < s.ht x) : s.kfreeNode x = .ok (s.freeNode x) := by
  rw [kfreeNode, deref_eq hx, ok_bind]
  rfl

theorem freeNode_node (hq : q ≠ x) : (s.freeNode x).node q = s.node q :=
  Function.update_of_ne hq _ _

theorem freeNode_ht (hq : q ≠ x) : (s.freeNode x).ht q = s.ht q := by
  rw [ht, ht, freeNode_node hq]

theorem freeNode_ht_self : (s.freeNode x).ht x = 0 := by
  simp [ht, freeNode]

theorem freeNode_fwd (hq : q ≠ x) : (s.freeNode x).fwd q i = s.fwd q i := by
  rw [fwd, fwd, freeNode_node hq]

theorem freeNode_key (hq : q ≠ x) : (s.freeNode x).key q = s.key q := by
  rw [key, key, freeNode_node hq]

/-- A node that is not in the list may be freed. -/
theorem Shape.freeNode (hs : Shape s h L) (hx : x ∉ h :: L) : Shape (s.freeNode x) h L := by
  have hne : ∀ p ∈ h :: L, p ≠ x := fun p hp hc => hx (hc ▸ hp)
  have hht : ∀ p ∈ h :: L, (s.freeNode x).ht p = s.ht p := fun p hp => freeNode_ht (hne p hp)
  have hhtL : ∀ p ∈ L, (s.freeNode x).ht p = s.ht p := fun p hp => hht p (List.mem_cons_of_mem h hp)
  refine ⟨hs.header, ?_, hs.nodup, fun p hp => ?_, fun p hp => ?_, ?_, hs.level_pos, hs.level_le,
    fun p hp => ?_⟩
  · rw [hht h List.mem_cons_self, hs.header_ht]
  · rw [hhtL p hp]
    exact hs.ht_pos p hp
  · rw [hhtL p hp]
    exact hs.ht_le p hp
  · exact hs.linked.congr hht fun p hp i _ => freeNode_fwd (hne p hp)
  · by_cases hpx : p = x
    · rw [hpx, freeNode_ht_self] at hp
      exact absurd hp (lt_irrefl 0)
    · rw [freeNode_ht hpx] at hp
      exact hs.lt_brk p hp

/-- `pid_sl_node_rcu_free` on an allocated node. -/
theorem nodeRcuFree_eq (hx : 0 < s.ht x) :
    s.nodeRcuFree x = .ok { s.freeNode x with rcu := s.rcu.erase x } := by
  rw [nodeRcuFree, kfreeNode_eq hx, ok_bind]
  rfl

/-- The callbacks of the nodes that wait for them, in any order. -/
theorem run_nodeRcuFree {xs : List Addr} (hperm : xs.Perm s.rcu) (hnodup : xs.Nodup)
    (hpos : ∀ x ∈ xs, 0 < s.ht x) :
    ∃ s', run PidSkiplist.nodeRcuFree s xs = .ok s' ∧ s'.rcu = [] ∧
      s'.log = s.log ++ xs.flatMap freed := by
  induction xs generalizing s with
  | nil => exact ⟨s, rfl, List.nil_perm.mp hperm, by simp⟩
  | cons x xs ih =>
      obtain ⟨hx, hnodup⟩ := List.nodup_cons.mp hnodup
      obtain ⟨hmem, hperm⟩ := List.cons_perm_iff_perm_erase.mp hperm
      obtain ⟨s', hrun, hrcu, hlog⟩ :=
        ih (s := { s.freeNode x with rcu := s.rcu.erase x }) hperm hnodup
        fun y hy => by
          have hne : y ≠ x := fun hc => hx (hc ▸ hy)
          show 0 < (s.freeNode x).ht y
          rw [freeNode_ht hne]
          exact hpos y (List.mem_cons_of_mem x hy)
      refine ⟨s', ?_, hrcu, ?_⟩
      · simp only [run, nodeRcuFree_eq (hpos x List.mem_cons_self), ok_bind, hrun]
      · rw [hlog, List.flatMap_cons, ← List.append_assoc]
        rfl

/-! ## `destroy` -/

/-- The loop of `destroy` frees the nodes of the chain, and reads no node that it has freed. -/
theorem freeChain_eq {fuel : ℕ} (hpos : ∀ x ∈ B, 0 < s.ht x) (hnodup : B.Nodup)
    (hnext : ∀ A x C, B = A ++ x :: C → s.fwd x 0 = C.head?) (hfuel : B.length < fuel) :
    ∃ s', freeChain fuel B.head? s = .ok s' ∧ s'.log = s.log ++ B.flatMap freed ∧ s'.rcu = s.rcu ∧
      ∀ q ∉ B, s'.node q = s.node q := by
  induction B generalizing s fuel with
  | nil =>
      obtain ⟨f, rfl⟩ : ∃ f, fuel = f + 1 := ⟨fuel - 1, by omega⟩
      exact ⟨s, rfl, by simp, rfl, fun q _ => rfl⟩
  | cons x B ih =>
      rw [List.length_cons] at hfuel
      obtain ⟨f, rfl⟩ : ∃ f, fuel = f + 1 := ⟨fuel - 1, by omega⟩
      obtain ⟨hx, hnodup⟩ := List.nodup_cons.mp hnodup
      have hxpos := hpos x List.mem_cons_self
      have hne : ∀ y ∈ B, y ≠ x := fun y hy hc => hx (hc ▸ hy)
      -- the next node is read before `x` is freed, and the rest of the chain can be read after it
      obtain ⟨s', hrun, hlog, hrcu, hnode⟩ := ih (s := s.freeNode x)
        (fun y hy => by
          rw [freeNode_ht (hne y hy)]
          exact hpos y (List.mem_cons_of_mem x hy))
        hnodup
        (fun A y C hB => by
          rw [freeNode_fwd (hne y (by rw [hB]; simp))]
          exact hnext (x :: A) y C (by rw [hB]; rfl))
        (Nat.lt_of_succ_lt_succ hfuel)
      refine ⟨s', ?_, ?_, hrcu, fun q hq => ?_⟩
      · simp only [List.head?_cons, freeChain, forward_eq hxpos, ok_bind, hnext [] x B rfl,
          kfreeNode_eq hxpos, hrun]
      · rw [hlog, List.flatMap_cons, ← List.append_assoc]
        rfl
      · obtain ⟨hqx, hqB⟩ := not_or.mp (fun hc => hq (List.mem_cons.mpr hc))
        rw [hnode q hqB, freeNode_node hqx]

/-- `destroy` frees the nodes of the list and then the header. -/
theorem Shape.destroy_eq (hs : Shape s h L) :
    ∃ t, s.destroy = .ok t ∧ t.log = s.log ++ (L ++ [h]).flatMap freed ∧ t.rcu = s.rcu ∧
      ∀ q ∉ h :: L, t.node q = s.node q := by
  obtain ⟨hh, hnodup⟩ := List.nodup_cons.mp hs.nodup
  have hnext : ∀ A x C, L = A ++ x :: C → s.fwd x 0 = C.head? := by
    intro A x C hL
    rw [hs.linked (h :: A) x C (by rw [hL]; rfl) 0 (hs.ht_pos x (by rw [hL]; simp)),
      nextAt_eq_head? fun b hb => hs.ht_pos b (by rw [hL]; simp [hb])]
  obtain ⟨t, hchain, hlog, hrcu, hnode⟩ := freeChain_eq hs.ht_pos hnodup hnext
    (Nat.lt_succ_of_lt hs.length_lt_brk)
  have hhead : s.fwd h 0 = L.head? := by
    rw [hs.linked.fwd_head hs.header_pos, nextAt_eq_head? hs.ht_pos]
  have hht : 0 < t.ht h := by
    rw [ht, hnode h hh]
    exact hs.header_pos
  refine ⟨t.freeNode h, ?_, ?_, hrcu, fun q hq => ?_⟩
  · simp only [destroy, hs.getHeader, ok_bind, forward_eq hs.header_pos, hhead, hchain,
      kfreeNode_eq hht]
  · rw [List.flatMap_append, List.flatMap_singleton, ← List.append_assoc, ← hlog]
    rfl
  · obtain ⟨hqh, hqL⟩ := not_or.mp (fun hc => hq (List.mem_cons.mpr hc))
    rw [freeNode_node hqh, hnode q hqL]

/-- `destroy` on the list `s` takes it to `t`, and the callbacks that are pending then run in some
order: every block that was ever allocated has been freed exactly once. The nodes that the walk of
`destroy` visits are neither waiting for their callback nor freed by it. -/
def FreesAll (s : PidSkiplist α) (t : Except Fault (PidSkiplist α)) : Prop :=
  ∃ t' header walked, t = .ok t' ∧ t'.log = s.log ++ (walked ++ [header]).flatMap freed ∧
    s.header = some header ∧ (∀ x ∈ walked, x ∉ s.rcu ∧ .free (.node x) ∉ s.log) ∧
    ∀ xs : List Addr, xs.Perm t'.rcu → ∃ u, run nodeRcuFree t' xs = .ok u ∧ u.rcu = [] ∧
      ∀ b, u.log.count (.free b) = u.log.count (.alloc b) ∧ u.log.count (.alloc b) ≤ 1

/-! ## The blocks of a list -/

/-- The header, the nodes of the list and those that wait for their callback are what is not
freed yet. -/
structure Held (s : PidSkiplist α) (h : Addr) (L : List Addr) : Prop where
  ledger : MemLedger s.log (h :: (L ++ s.rcu)) s.brk
  pending : ∀ x ∈ s.rcu, 0 < s.ht x

theorem held_init : Held (init : PidSkiplist α) 0 [] where
  ledger := by
    have hempty : MemLedger [] [] 0 := ⟨fun b => rfl, fun b => Nat.zero_le 1, fun b _ => rfl⟩
    exact hempty.alloc
  pending := by simp [init]

theorem Held.freesAll (hs : Shape s h L) (hm : Held s h L) : FreesAll s s.destroy := by
  obtain ⟨t, hdestroy, hlog, hrcu, hnode⟩ := hs.destroy_eq
  have hnodup : (h :: L ++ s.rcu).Nodup := hm.ledger.nodup
  obtain ⟨-, hrcud, hdisj⟩ := List.nodup_append.mp hnodup
  refine ⟨t, h, L, hdestroy, hlog, hs.header, fun x hx => ⟨?_, ?_⟩, fun xs hperm => ?_⟩
  · intro hc
    exact hdisj x (List.mem_cons_of_mem h hx) x hc rfl
  · apply hm.ledger.notMem_log
    exact List.mem_cons_of_mem h (List.mem_append_left _ hx)
  · rw [hrcu] at hperm
    have hpos : ∀ x ∈ xs, 0 < t.ht x := by
      intro x hx
      have hxr := hperm.subset hx
      rw [ht, hnode x fun hc => hdisj x hc x hxr rfl]
      exact hm.pending x hxr
    obtain ⟨u, hrun, hrcu', hlog'⟩ :=
      run_nodeRcuFree (hrcu ▸ hperm) (hperm.nodup_iff.mpr hrcud) hpos
    refine ⟨u, hrun, hrcu', fun b => ?_⟩
    -- the walk frees the list and the header, and the callbacks all else that is held
    have hledger : MemLedger s.log ((L ++ [h] ++ xs) ++ []) s.brk := by
      apply hm.ledger.perm
      rw [List.append_nil, List.append_assoc, List.singleton_append]
      refine (List.perm_middle.trans ?_).symm
      exact (hperm.append_left L).cons h
    have hbalanced := hledger.freeAll
    rw [List.flatMap_append, ← List.append_assoc, ← hlog, ← hlog'] at hbalanced
    exact hbalanced.balanced b

/-! ## One writer call -/

/-- What a writer call does to the memory of the list. -/
inductive Change (s s' : PidSkiplist α) (h : Addr) (L : List Addr) : List Addr → Prop
  | kept (hlog : s'.log = s.log) (hrcu : s'.rcu = s.rcu) (hbrk : s'.brk = s.brk)
      (hht : s'.ht = s.ht) :
      Change s s' h L L
  | added {A B : List Addr} {k : ℤ} {v : Option α} {lvl : ℕ} (hL : L = A ++ B)
      (hadded : Added s s' h A k v lvl) : Change s s' h L (A ++ s.brk :: B)
  | refused (hlog : s'.log = s.log ++ [.alloc (.node s.brk), .free (.node s.brk)])
      (hrcu : s'.rcu = s.rcu)
      (hbrk : s'.brk = s.brk + 1) (hht : s'.ht = s.ht) : Change s s' h L L
  | removed {A B : List Addr} {x : Addr} (hL : L = A ++ x :: B) (hrem : Removed s s' h A x) :
      Change s s' h L (A ++ B)

theorem Held.change (hs : Shape s h L) (hm : Held s h L) (hc : Change s s' h L L') :
    Held s' h L' := by
  cases hc with
  | kept hlog hrcu hbrk hht =>
      refine ⟨?_, fun x hx => ?_⟩
      · rw [hlog, hrcu, hbrk]
        exact hm.ledger
      · rw [hrcu] at hx
        rw [hht]
        exact hm.pending x hx
  | @added A B k v lvl hL hadded =>
      subst hL
      refine ⟨?_, fun x hx => ?_⟩
      · rw [hadded.log, hadded.rcu, hadded.brk]
        -- the header comes first, so the new node has to change places with it
        apply hm.ledger.alloc.perm
        refine (List.Perm.swap h s.brk _).trans (List.Perm.cons h ?_)
        simp only [List.append_assoc, List.cons_append]
        exact List.perm_middle.symm
      · rw [hadded.rcu] at hx
        have hpos := hm.pending x hx
        rwa [hadded.ht, if_neg (Nat.ne_of_lt (hs.lt_brk x hpos))]
  | refused hlog hrcu hbrk hht =>
      refine ⟨?_, fun x hx => ?_⟩
      · rw [hlog, hrcu, hbrk]
        exact hm.ledger.allocFail
      · rw [hrcu] at hx
        rw [hht]
        exact hm.pending x hx
  | @removed A B x hL hrem =>
      subst hL
      refine ⟨?_, fun y hy => ?_⟩
      -- the node goes from the list to those that wait for their callback
      · rw [hrem.log, hrem.rcu, hrem.brk]
        apply hm.ledger.perm
        refine List.Perm.cons h ?_
        rw [← List.append_assoc (A ++ B), List.append_assoc A, List.cons_append]
        refine List.perm_middle.trans ?_
        rw [← List.append_assoc]
        exact (List.perm_append_singleton x _).symm
      · rw [hrem.rcu] at hy
        rw [hrem.ht]
        rcases List.mem_append.mp hy with hy | hy
        · exact hm.pending y hy
        · rw [List.mem_singleton.mp hy]
          exact hs.ht_pos x (by simp)

/-- The callback of a node that waits for it. -/
theorem Held.callback (hm : Held s h L) (hx : x ∈ s.rcu) :
    x ∉ h :: L ∧ Held { s.freeNode x with rcu := s.rcu.erase x } h L := by
  have hnodup : (h :: L ++ s.rcu).Nodup := hm.ledger.nodup
  obtain ⟨-, hrcud, hdisj⟩ := List.nodup_append.mp hnodup
  refine ⟨fun hc => hdisj x hc x hx rfl, ?_, fun y hy => ?_⟩
  · apply MemLedger.free
    apply hm.ledger.perm
    have hperm : s.rcu.Perm (x :: s.rcu.erase x) := List.perm_cons_erase hx
    refine ((hperm.append_left L).cons h).trans ?_
    refine (List.perm_middle.cons h).trans ?_
    exact List.Perm.swap x h _
  · obtain ⟨hne, hmem⟩ := (hrcud.mem_erase_iff).mp hy
    show 0 < (s.freeNode x).ht y
    rw [freeNode_ht hne]
    exact hm.pending y hmem

/-- An insertion without memory leaves no node behind. -/
theorem insertNew_fail_change {update : ℕ → Option Addr} (henv : env.ok = false)
    (hsl : s.insertNew h update k v env = .ok (s', none)) (hu : Unchanged s s' env.draw.val) :
    Change s s' h L L := by
  cases hk : env.kzalloc with
  | false =>
      have hs' : s.raiseLevel env.draw.val = s' := by simpa [insertNew, nodeAlloc, hk] using hsl
      subst hs'
      exact .kept rfl rfl rfl hu.ht
  | true =>
      have hc : env.kcalloc = false := by simpa [NodeEnv.ok, hk] using henv
      have hs' : ((s.raiseLevel env.draw.val).nodeAlloc env.draw.val env).1 = s' := by
        simpa [insertNew, nodeAlloc, hk, hc] using hsl
      subst hs'
      refine .refused ?_ hu.rcu ?_ hu.ht
      · simp [nodeAlloc, hk, hc, raiseLevel]
      · simp [nodeAlloc, hk, hc, raiseLevel]

/-- One writer call on the plain list. -/
theorem Inv.change (hs : Inv s h L) (op : WriteOp α) :
    ∃ s' retval L', s.write op = .ok (s', retval) ∧ Inv s' h L' ∧ Change s s' h L L' := by
  have hsplit := below_append_above s
  cases op with
  | insert k v env =>
      by_cases hpres : ∃ p ∈ L, s.key p = k
      · obtain ⟨p, hp, hk⟩ := hpres
        refine ⟨s.setPid p v, some 0, L, ?_, hs.setPid p v, .kept rfl rfl rfl (setPid_ht s p v)⟩
        simp only [PidSkiplist.write, hs.insert_present hp hk, ok_bind]
      · have hnew : ∀ p ∈ L, s.key p ≠ k := fun p hp hk => hpres ⟨p, hp, hk⟩
        cases henv : env.ok with
        | true =>
            obtain ⟨s', hs', hinv', hadded⟩ := hs.insert_absent hnew henv v
            refine ⟨s', some 0, _, ?_, hinv', .added (hsplit k L).symm hadded⟩
            simp only [PidSkiplist.write, hs', ok_bind]
        | false =>
            obtain ⟨s', hs', hu⟩ := insertNew_fail s h
              (fun j => if j < s.level then some (lastAt s.ht j h (below s k L)) else none) k v henv
            refine ⟨s', some (-ENOMEM), L, ?_, hs.of_unchanged hu env.draw.le_max,
              insertNew_fail_change henv hs' hu⟩
            simp only [PidSkiplist.write, hs.insert_of_insertNew hnew hs', ok_bind]
            rfl
  | remove k =>
      by_cases hpres : ∃ p ∈ L, s.key p = k
      · obtain ⟨p, hp, rfl⟩ := hpres
        obtain ⟨s', B, hs', hL, hinv', hrem⟩ := hs.remove_present hp
        exact ⟨s', none, _, by simp only [PidSkiplist.write, hs', ok_bind], hinv', .removed hL hrem⟩
      · have hnew : ∀ p ∈ L, s.key p ≠ k := fun p hp hk => hpres ⟨p, hp, hk⟩
        exact ⟨s, none, L, by simp only [PidSkiplist.write, hs.remove_absent hnew, ok_bind], hs,
          .kept rfl rfl rfl rfl⟩

/-! ## Runs -/

/-- A writer call, or the callback of a node that waits for it. -/
inductive MemAct (α : Type)
  | write (op : WriteOp α)
  | callback (x : Addr)

/-- One step of the plain list; a callback that is not pending does not run. -/
def memStep (s : PidSkiplist α) : MemAct α → Except Fault (PidSkiplist α)
  | .write op => do
    let (s, _) ← s.write op
    .ok s
  | .callback x => if x ∈ s.rcu then s.nodeRcuFree x else .ok s

theorem Inv.memStep (hs : Inv s h L) (hm : Held s h L) (a : MemAct α) :
    ∃ s', PidSkiplist.memStep s a = .ok s' ∧ ∃ L', Inv s' h L' ∧ Held s' h L' := by
  cases a with
  | write op =>
      obtain ⟨s', retval, L', hw, hinv', hc⟩ := hs.change op
      exact ⟨s', by simp only [PidSkiplist.memStep, hw, ok_bind], L', hinv',
        hm.change hs.toShape hc⟩
  | callback x =>
      by_cases hx : x ∈ s.rcu
      · obtain ⟨hxL, hm'⟩ := hm.callback hx
        have hshape := hs.toShape.freeNode hxL
        refine ⟨{ s.freeNode x with rcu := s.rcu.erase x }, ?_, L,
          ⟨hshape.of_eq rfl rfl rfl rfl rfl, ?_⟩, hm'⟩
        · simp only [PidSkiplist.memStep, if_pos hx, nodeRcuFree_eq (hm.pending x hx)]
        · refine hs.sorted.imp_of_mem fun {p q} hp hq hlt => ?_
          have hne : ∀ y ∈ L, y ≠ x := fun y hy hc => hxL (hc ▸ List.mem_cons_of_mem h hy)
          show (s.freeNode x).key p < (s.freeNode x).key q
          rwa [freeNode_key (hne p hp), freeNode_key (hne q hq)]
      · exact ⟨s, by simp only [PidSkiplist.memStep, if_neg hx], L, hs, hm⟩

theorem memStep_run (as : List (MemAct α)) :
    ∃ s, run memStep (init : PidSkiplist α) as = .ok s ∧ ∃ L, Inv s 0 L ∧ Held s 0 L :=
  run_invariant_always (I := fun s : PidSkiplist α => ∃ L, Inv s 0 L ∧ Held s 0 L)
    (fun _ a ⟨_, hs, hm⟩ => hs.memStep hm a) ⟨[], inv_init, held_init⟩ as

/-- Whatever a plain list was used for, `destroy` and the callbacks free what is left. -/
theorem memStep_run_freesAll (as : List (MemAct α)) :
    ∃ s, run memStep (init : PidSkiplist α) as = .ok s ∧ FreesAll s s.destroy := by
  obtain ⟨s, hrun, L, hinv, hm⟩ := memStep_run as
  exact ⟨s, hrun, hm.freesAll hinv.toShape⟩

/-- Writer calls and callbacks make `s` of an initialised list. -/
def Reachable (s : PidSkiplist α) : Prop := ∃ as, run memStep init as = .ok s

theorem Reachable.inv (hs : Reachable s) : ∃ L, Inv s 0 L := by
  obtain ⟨as, hrun⟩ := hs
  obtain ⟨s', hrun', L, hinv, -⟩ := memStep_run as
  obtain rfl : s = s' := Except.ok.inj (hrun.symm.trans hrun')
  exact ⟨L, hinv⟩

end PidSkiplist

end KernelPid
