import KernelPid.RbSkiplist.Repeats
import KernelPid.Skiplist.WellFormed

/-!
# The two indexes of the RB skip list

The tree is meant to hold the nodes of the top level, in the order of their keys. It does as long as
no key of a tree node is inserted again: such an insertion makes a second node behind the first one,
and if that one reaches the top level as well, it is not in the tree (`indexed_iff`).
-/

namespace KernelPid.PidRbSkiplist

open Runs Tower SearchTree PidSkiplist

variable {α : Type} {s s' : PidRbSkiplist α} {h x : Addr} {k : ℤ} {v : Option α} {env : NodeEnv}
  {L L' : List Addr} {op : WriteOp α}

/-- The level-0 chain ascends, the tree has the nodes of the level-15 chain in their order, and
`in_rb_tree` says which nodes these are. -/
structure Indexed (s : PidRbSkiplist α) : Prop where
  nodes : ∃ L, s.levelChain 0 = .ok L ∧ (L.Pairwise fun x y => s.key x < s.key y) ∧
    ∀ x ∈ L, (x ∈ s.treeNodes ↔ s.ht x = pidSlMaxLevel) ∧
      (s.inRbTree x = true ↔ s.ht x = pidSlMaxLevel)
  tree : s.levelChain (pidSlMaxLevel - 1) = .ok s.treeNodes

/-- One writer call. -/
def writeStep (rb : KernelRbtree) (s : PidRbSkiplist α) (op : WriteOp α) :
    Except Fault (PidRbSkiplist α) := do
  let (s, _) ← s.write rb op
  .ok s

/-- The call does not make a second node for a key of the tree. -/
def NoSecondNode (s : PidRbSkiplist α) : WriteOp α → Prop
  | .insert key _ env => TreeAvoids s key ∨ env.ok = false
  | .remove _ => True

instance (s : PidRbSkiplist α) : ∀ op, Decidable (NoSecondNode s op)
  | .insert key _ env => inferInstanceAs (Decidable (TreeAvoids s key ∨ env.ok = false))
  | .remove _ => instDecidableTrue

theorem RbInv.rbShape (hs : RbInv s h L) : RbShape s h L where
  toShape := hs.toShape
  tree := by
    rw [treeNodes, hs.inorder_tree]
    exact List.filter_sublist
  tree_ht x hx := by
    rw [treeNodes, hs.inorder_tree] at hx
    obtain ⟨hxL, htop⟩ := List.mem_filter.mp hx
    have hlt := of_decide_eq_true htop
    have hle := le_trans (hs.ht_le x hxL) hs.level_le
    omega
  flag x hx := by
    rw [hs.flag x hx, treeNodes, hs.inorder_tree]
    simp [topLevel, hx]
  sorted := hs.sorted.imp fun hlt => Or.inl hlt

/-- The two indexes agree when the list is well formed and the tree holds its top level. -/
theorem RbShape.indexed_iff_rbInv (hs : RbShape s h L) : Indexed s ↔ RbInv s h L := by
  have htop : ∀ x ∈ L, (x ∈ topLevel s.toPidSkiplist L ↔ s.ht x = pidSlMaxLevel) := by
    intro x hx
    have hle := le_trans (hs.ht_le x hx) hs.level_le
    rw [topLevel, List.mem_filter, decide_eq_true_eq]
    have hmax : pidSlMaxLevel = 16 := rfl
    constructor
    · rintro ⟨-, hlt⟩
      omega
    · intro heq
      exact ⟨hx, by omega⟩
  have hchain : s.levelChain (pidSlMaxLevel - 1) = .ok (topLevel s.toPidSkiplist L) :=
    hs.toShape.levelChain_eq (by decide)
  constructor
  · rintro ⟨⟨L', hL', hsorted, -⟩, htree⟩
    obtain rfl : L = L' := Except.ok.inj (hs.toShape.levelChain_zero.symm.trans hL')
    have htree : s.treeNodes = topLevel s.toPidSkiplist L :=
      (Except.ok.inj (hchain.symm.trans htree)).symm
    refine ⟨⟨hs.toShape, hsorted⟩, htree, fun x hx => ?_⟩
    rw [hs.flag x hx, htree]
    simp [topLevel, hx]
  · intro hinv
    have htree : s.treeNodes = topLevel s.toPidSkiplist L := hinv.inorder_tree
    refine ⟨⟨L, hs.toShape.levelChain_zero, hinv.sorted, fun x hx => ⟨?_, ?_⟩⟩, by
      rw [htree, hchain]⟩
    · rw [htree]
      exact htop x hx
    · rw [hs.flag x hx, htree, decide_eq_true_eq]
      exact htop x hx

/-- A second node with the key of a tree node breaks the order. -/
theorem Written.not_rbInv (hs : RbShape s h L)
    (hw : Written s h L (.insert k v env) s' L') (hk : ¬ TreeAvoids s k) (henv : env.ok = true) :
    ¬ (RbInv s h L ∧ RbInv s' h L') := by
  rintro ⟨hinv, hinv'⟩
  obtain ⟨y, hyT, hyk⟩ : ∃ y ∈ s.treeNodes, s.key y = k := by
    by_contra hnone
    exact hk fun y hy hyk => hnone ⟨y, hy, hyk⟩
  have hyL : y ∈ L := hs.tree.subset hyT
  cases hw with
  | replaced hp hkey htree =>
      -- the node found is not the tree's, though both have the key
      rw [hinv.eq_of_key_eq hp hyL (hkey.trans hyk.symm)] at htree
      exact htree hyT
  | refused henv' => simp [henv] at henv'
  | @added _ _ _ A B _ hcut _ _ hadded _ =>
      have hne : y ≠ s.brk := hs.ne_brk y (List.mem_cons_of_mem _ hyL)
      have hy' : y ∈ A ++ s.brk :: B := by
        rw [hcut.split] at hyL
        simp only [List.mem_append, List.mem_cons] at hyL ⊢
        tauto
      apply hne
      apply hinv'.eq_of_key_eq hy' (by simp)
      rw [hadded.key, hadded.key, if_neg hne, if_pos rfl, hyk]

/-- The other calls keep the tree in step with the list. -/
theorem RbInv.writeStep (rb : KernelRbtree) (hs : RbInv s h L) (hop : NoSecondNode s op) :
    ∃ s' L', PidRbSkiplist.writeStep rb s op = .ok s' ∧ RbInv s' h L' := by
  cases op with
  | insert k v env =>
      by_cases hk : TreeAvoids s k
      · obtain ⟨s', r, L', hins, -, hinv, -⟩ := hs.insert_eq rb hk v env
        exact ⟨s', L', by simp only [PidRbSkiplist.writeStep, write, hins, ok_bind], hinv⟩
      · have henv : env.ok = false := hop.resolve_left hk
        obtain ⟨s', r, L', hins, hw, -⟩ := hs.rbShape.insert rb k v env
        refine ⟨s', L', by simp only [PidRbSkiplist.writeStep, write, hins, ok_bind], ?_⟩
        cases hw with
        | replaced => exact hs.setPid _ v
        | added _ _ henv' => simp [henv] at henv'
        | refused _ _ hu => exact hs.of_unchanged hu env.draw.le_max
  | remove k =>
      by_cases hk : TreeAvoids s k
      · obtain ⟨s', L', hrem, -, hinv, -⟩ := hs.remove_eq rb hk
        exact ⟨s', L', by simp only [PidRbSkiplist.writeStep, write, hrem, ok_bind], hinv⟩
      · obtain ⟨y, hyT, hyk⟩ : ∃ y ∈ s.treeNodes, s.key y = k := by
          by_contra hnone
          exact hk fun y hy hyk => hnone ⟨y, hy, hyk⟩
        obtain ⟨s', L', hrem, hw⟩ := hs.rbShape.remove rb k
        refine ⟨s', L', by simp only [PidRbSkiplist.writeStep, write, hrem, ok_bind], ?_⟩
        cases hw with
        | absent => exact hs
        | @removed _ A B p sl hL hkey htree _ _ =>
            -- the search starts behind the tree node and finds no other node with its key
            have hpL : p ∈ L := by rw [hL]; simp
            have hyL : y ∈ L := hs.rbShape.tree.subset hyT
            rw [hs.eq_of_key_eq hpL hyL (hkey.trans hyk.symm)] at htree
            exact absurd hyT htree

/-- A call that finds the two indexes in agreement leaves them so if and only if it makes no second
node for a key of the tree. -/
theorem RbShape.writeStep (rb : KernelRbtree) (hs : RbShape s h L) (op : WriteOp α) :
    ∃ s', PidRbSkiplist.writeStep rb s op = .ok s' ∧ (∃ L', RbShape s' h L') ∧
      (Indexed s → (Indexed s' ↔ NoSecondNode s op)) := by
  obtain ⟨s', retval, L', hcall, hw⟩ := hs.write rb op
  have hstep : PidRbSkiplist.writeStep rb s op = .ok s' := by
    simp only [PidRbSkiplist.writeStep, hcall, ok_bind]
  have hs' := hw.rbShape hs
  refine ⟨s', hstep, ⟨L', hs'⟩, fun hindexed => ⟨fun hindexed' => ?_, fun hop => ?_⟩⟩
  · have hinv := hs.indexed_iff_rbInv.mp hindexed
    have hinv' := hs'.indexed_iff_rbInv.mp hindexed'
    cases op with
    | remove k => trivial
    | insert k v env =>
        by_contra hop
        obtain ⟨hk, henv⟩ := not_or.mp hop
        exact hw.not_rbInv hs hk (by simpa using henv) ⟨hinv, hinv'⟩
  · obtain ⟨s'', L'', hstep', hinv⟩ := (hs.indexed_iff_rbInv.mp hindexed).writeStep rb hop
    obtain rfl : s' = s'' := Except.ok.inj (hstep.symm.trans hstep')
    exact hinv.rbShape.indexed_iff_rbInv.mpr hinv

theorem indexed_init : Indexed (init : PidRbSkiplist α) :=
  rbShape_init.indexed_iff_rbInv.mpr rbInv_init

/-- The runs whose states all have the two indexes in agreement. -/
theorem throughout_indexed_iff (rb : KernelRbtree) (ops : List (WriteOp α)) :
    Throughout (writeStep rb) Indexed init ops ↔ Meets (writeStep rb) NoSecondNode init ops := by
  apply throughout_iff_meets (I := fun s => ∃ L, RbShape s 0 L) _ ⟨[], rbShape_init⟩ indexed_init
  rintro s op ⟨L, hs⟩
  exact hs.writeStep rb op

/-- After any sequence of `pid_rb_skiplist_insert` and `pid_rb_skiplist_remove` calls on an
initialised list all calls have returned. The level-0 chain was strictly ascending all the while and
the tree was the top level if and only if no insertion made a second node for a key of the tree. -/
theorem indexed_iff (rb : KernelRbtree) (ops : List (WriteOp α)) :
    (∃ s, run (writeStep rb) init ops = .ok s) ∧
      (Throughout (writeStep rb) Indexed init ops ↔
        Meets (writeStep rb) NoSecondNode init ops) := by
  refine ⟨?_, throughout_indexed_iff rb ops⟩
  obtain ⟨s, hrun, -⟩ := run_invariant_always (I := fun s : PidRbSkiplist α => ∃ L, RbShape s 0 L)
    (fun s op ⟨L, hs⟩ => (hs.writeStep rb op).imp fun s' hs' => ⟨hs'.1, hs'.2.1⟩)
    ⟨[], rbShape_init⟩ ops
  exact ⟨s, hrun⟩

/-- The key 5 is inserted twice, with the top level drawn for its first node. -/
theorem key_of_tree_twice :
    ¬ ∀ (rb : KernelRbtree) (ops : List (WriteOp ℕ)),
      Throughout (writeStep rb) Indexed init ops := by
  intro hall
  have hmeets := (throughout_indexed_iff .flat _).mp
    (hall .flat [.insert 5 (some 50) ⟨pidSlRandomLevel 0, true, true⟩,
      .insert 5 (some 51) ⟨pidSlRandomLevel 1, true, true⟩])
  exact absurd hmeets (by decide)

end KernelPid.PidRbSkiplist
