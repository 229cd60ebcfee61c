import KernelPid.RbSkiplist.Basic
import KernelPid.Skiplist.Map

/-!
# What the search tree adds to the skip list

`RbInv s h L` says that the tree holds the nodes of the top level, in list order. `rb_find_le` then
returns the last top-level node whose key is not above the key sought. A search must start in front
of the key, so this is a good place to start as long as no node of the tree has the key itself:
`TreeAvoids`. Under that condition every operation does to the list what the plain operation does.
-/

namespace KernelPid.PidRbSkiplist

open Runs Tower SearchTree PidSkiplist

variable {α : Type} {s : PidRbSkiplist α} {h x : Addr} {k : ℤ} {v : Option α} {env : NodeEnv}
  {L A B : List Addr}

/-! ## The tree -/

/-- `rb_find_le` walks down to the floor of the key. -/
theorem rbFindLeFrom_eq (s : PidSkiplist α) (k : ℤ) (t : BinaryTree Addr)
    (ht : ∀ y ∈ inorder t, 0 < s.ht y) (x : Addr) :
    rbFindLeFrom s k t x = .ok (floor s.key k t x) := by
  induction t generalizing x with
  | nil => rfl
  | node y l r ihl ihr =>
      have hl : ∀ z ∈ inorder l, 0 < s.ht z := fun z hz => ht z (by simp [inorder, hz])
      have hr : ∀ z ∈ inorder r, 0 < s.ht z := fun z hz => ht z (by simp [inorder, hz])
      rw [rbFindLeFrom, deref_eq (ht y (by simp [inorder])), ok_bind, floor]
      by_cases hy : s.key y ≤ k
      · rw [if_pos hy, if_pos hy, ihr hr]
      · rw [if_neg hy, if_neg hy, ihl hl]

/-- `rb_insert_node` hangs the node in where its key belongs. -/
theorem rbLink_eq (s : PidSkiplist α) (k : ℤ) (x : Addr) (t : BinaryTree Addr)
    (ht : ∀ y ∈ inorder t, 0 < s.ht y) :
    rbLink s k x t = .ok (SearchTree.link s.key k x t) := by
  induction t with
  | nil => rfl
  | node y l r ihl ihr =>
      have hl : ∀ z ∈ inorder l, 0 < s.ht z := fun z hz => ht z (by simp [inorder, hz])
      have hr : ∀ z ∈ inorder r, 0 < s.ht z := fun z hz => ht z (by simp [inorder, hz])
      simp only [rbLink, deref_eq (ht y (by simp [inorder])), ok_bind, ihl hl, ihr hr,
        SearchTree.link]
      split
      · rfl
      · split
        · rfl
        · rfl

/-! ## The invariant -/

/-- The nodes of `L` that reach the top level. -/
def topLevel (s : PidSkiplist α) (L : List Addr) : List Addr :=
  L.filter fun p => pidSlMaxLevel - 1 < s.ht p

theorem topLevel_append (s : PidSkiplist α) (A B : List Addr) :
    topLevel s (A ++ B) = topLevel s A ++ topLevel s B :=
  List.filter_append _ _

theorem topLevel_congr {s s' : PidSkiplist α} (hht : ∀ p ∈ L, s'.ht p = s.ht p) :
    topLevel s' L = topLevel s L :=
  List.filter_congr fun p hp => by rw [hht p hp]

/-- The list is a well-formed skip list, and the tree holds its top level. -/
structure RbInv (s : PidRbSkiplist α) (h : Addr) (L : List Addr) : Prop
    extends Inv s.toPidSkiplist h L where
  inorder_tree : inorder s.topRbRoot.tree = topLevel s.toPidSkiplist L
  flag : ∀ p ∈ L, s.inRbTree p = decide (pidSlMaxLevel - 1 < s.ht p)

/-- No node of the tree has the key. -/
def TreeAvoids (s : PidRbSkiplist α) (k : ℤ) : Prop :=
  ∀ x ∈ inorder s.topRbRoot.tree, s.key x ≠ k

instance (s : PidRbSkiplist α) (k : ℤ) : Decidable (TreeAvoids s k) :=
  inferInstanceAs (Decidable (∀ x ∈ inorder s.topRbRoot.tree, s.key x ≠ k))

theorem rbInv_init : RbInv (init : PidRbSkiplist α) 0 [] where
  toInv := inv_init
  inorder_tree := rfl
  flag := by simp

theorem RbInv.tree_subset (hs : RbInv s h L) : inorder s.topRbRoot.tree ⊆ L := by
  rw [hs.inorder_tree]
  exact List.filter_sublist.subset

theorem RbInv.ht_pos_tree (hs : RbInv s h L) : ∀ y ∈ inorder s.topRbRoot.tree, 0 < s.ht y :=
  fun y hy => hs.ht_pos y (hs.tree_subset hy)

/-- The nodes not above `k` among some nodes of the list, when none of them has key `k`. -/
theorem takeWhile_topLevel (hs : Inv s.toPidSkiplist h L)
    (hk : ∀ p ∈ topLevel s.toPidSkiplist L, s.key p ≠ k) :
    (topLevel s.toPidSkiplist L).takeWhile (fun p => s.key p ≤ k) =
      topLevel s.toPidSkiplist (below s.toPidSkiplist k L) := by
  have hsplit := below_append_above s.toPidSkiplist k L
  have htop : topLevel s.toPidSkiplist L =
      topLevel s.toPidSkiplist (below s.toPidSkiplist k L) ++
        topLevel s.toPidSkiplist (above s.toPidSkiplist k L) := by
    conv_lhs => rw [← hsplit]
    exact topLevel_append _ _ _
  have hbelow : ∀ p ∈ topLevel s.toPidSkiplist (below s.toPidSkiplist k L),
      decide (s.key p ≤ k) = true := fun p hp => by
    have hlt := key_lt_of_mem_below (List.mem_filter.mp hp).1
    exact decide_eq_true (Int.le_of_lt hlt)
  have habove : ∀ p ∈ topLevel s.toPidSkiplist (above s.toPidSkiplist k L),
      ¬ decide (s.key p ≤ k) = true := fun p hp => by
    have hle := le_key_of_mem_above hs.sorted (List.mem_filter.mp hp).1
    have hne := hk p (by rw [htop]; exact List.mem_append_right _ hp)
    simp only [decide_eq_true_eq]
    omega
  rw [htop, List.takeWhile_append_of_pos hbelow]
  cases hcase : topLevel s.toPidSkiplist (above s.toPidSkiplist k L) with
  | nil => simp
  | cons a C =>
      rw [List.takeWhile_cons, if_neg (habove a (by rw [hcase]; simp)), List.append_nil]

/-- `rb_find_le` returns the last top-level node below a key that the tree does not have. -/
theorem RbInv.rbFindLe_eq (hs : RbInv s h L) (hk : TreeAvoids s k) :
    s.rbFindLe k =
      .ok (lastAt s.ht (pidSlMaxLevel - 1) h (below s.toPidSkiplist k L)) := by
  have hsorted : (inorder s.topRbRoot.tree).Pairwise fun x y => s.key x < s.key y := by
    rw [hs.inorder_tree]
    exact hs.sorted.sublist List.filter_sublist
  have hk' : ∀ p ∈ topLevel s.toPidSkiplist L, s.key p ≠ k := by
    rw [← hs.inorder_tree]; exact hk
  rw [rbFindLe, hs.getHeader, ok_bind, rbFindLeFrom_eq _ _ _ hs.ht_pos_tree, floor_eq _ hsorted,
    hs.inorder_tree, takeWhile_topLevel hs.toInv hk', lastAt_eq_getLast?]
  rfl

/-! ## The readers -/

/-- `pid_rb_skiplist_lookup_rcu` on a key the tree does not have. -/
theorem RbInv.lookupRcu_eq (hs : RbInv s h L) (hk : TreeAvoids s k) :
    s.lookupRcu k = s.toPidSkiplist.lookupRcu k := by
  -- the searches end in the same place, and what follows is the same
  generalize hplain : s.toPidSkiplist.lookupRcu k = ret
  simp only [PidSkiplist.lookupRcu, hs.header] at hplain
  simp only [lookupRcu, hs.header, hs.rbFindLe_eq hk, ok_bind, hs.descend_top]
  exact hplain

/-- `pid_rb_skiplist_find_ge_rcu` on a key the tree does not have. -/
theorem RbInv.findGeRcu_eq (hs : RbInv s h L) (hk : TreeAvoids s k) :
    s.findGeRcu k = s.toPidSkiplist.findGeRcu k := by
  generalize hplain : s.toPidSkiplist.findGeRcu k = ret
  simp only [PidSkiplist.findGeRcu, hs.getHeader, ok_bind] at hplain
  simp only [findGeRcu, hs.header, hs.rbFindLe_eq hk, ok_bind, hs.descend_top]
  exact hplain

/-- `pid_rb_skiplist_iter_next_rcu` with a `NULL` cursor, on a key the tree does not have. -/
theorem RbInv.iterNextRcu_none (hs : RbInv s h L) (hk : TreeAvoids s k) :
    s.iterNextRcu none k = s.toPidSkiplist.iterNextRcu none k := by
  generalize hplain : s.toPidSkiplist.iterNextRcu none k = ret
  simp only [PidSkiplist.iterNextRcu, hs.header] at hplain
  simp only [iterNextRcu, hs.header, hs.rbFindLe_eq hk, ok_bind, hs.descend_top]
  exact hplain

/-! ## The writers -/

/-- The insertion searches from the tree node or from the header, and ends in the same place. -/
theorem RbInv.insertStart_eq (hs : RbInv s h L) (hk : TreeAvoids s k) :
    ∃ x, s.insertStart h k = .ok x ∧
      ∀ update, s.descend k s.level x update = s.descend k s.level h update := by
  rw [insertStart, deref_eq hs.header_pos, ok_bind]
  by_cases hl : s.level = s.ht h
  · refine ⟨lastAt s.ht (pidSlMaxLevel - 1) h (below s.toPidSkiplist k L), ?_,
      fun update => hs.descend_top k update⟩
    rw [if_pos hl, hs.rbFindLe_eq hk]
  · exact ⟨h, if_neg hl, fun _ => rfl⟩

/-- Replacing a node's value leaves the tree as it is. -/
theorem RbInv.setPid (hs : RbInv s h L) (x : Addr) (v : Option α) :
    RbInv { s with toPidSkiplist := s.toPidSkiplist.setPid x v } h L where
  toInv := hs.toInv.setPid x v
  inorder_tree := by
    rw [topLevel, setPid_ht]
    exact hs.inorder_tree
  flag := by
    rw [setPid_ht]
    exact hs.flag

/-- Neither does an insertion without memory touch it. -/
theorem RbInv.of_unchanged {sl : PidSkiplist α} {lvl : ℕ} (hs : RbInv s h L)
    (hu : Unchanged s.toPidSkiplist sl lvl) (hlvl : lvl ≤ pidSlMaxLevel) :
    RbInv { s with toPidSkiplist := sl } h L where
  toInv := hs.toInv.of_unchanged hu hlvl
  inorder_tree := by
    rw [topLevel, hu.ht]
    exact hs.inorder_tree
  flag := by
    rw [hu.ht]
    exact hs.flag

/-- `rb_insert_node` on a new top-level node. -/
theorem rbInsertNode_eq (rb : KernelRbtree) {s : PidRbSkiplist α} (hx : 0 < s.ht x)
    (ht : ∀ y ∈ inorder s.topRbRoot.tree, 0 < s.ht y)
    (htree : inorder s.topRbRoot.tree = A ++ B) (hA : ∀ a ∈ A, s.key a < s.key x)
    (hB : ∀ b ∈ B, s.key x < s.key b) :
    ∃ root, rbInsertNode rb s x =
        .ok { s with topRbRoot := root, inRbTree := Function.update s.inRbTree x true } ∧
      inorder root.tree = A ++ x :: B := by
  obtain ⟨t, hlink, hin⟩ := link_eq (x := x) s.topRbRoot.tree htree hA hB
  refine ⟨_, ?_, (rb.inorder_insertColor x
    { tree := t, red := Function.update s.topRbRoot.red x true }).trans hin⟩
  simp only [rbInsertNode, deref_eq hx, ok_bind, rbLink_eq _ _ _ _ ht, hlink]

/-- `pid_rb_skiplist_insert` once the search has shown that the key is new and the new node `brk` is
linked into the list. -/
theorem RbInv.insert_linked (rb : KernelRbtree) (hs : RbInv s h L) (hk : TreeAvoids s k)
    (hnew : ∀ p ∈ L, s.key p ≠ k)
    {sl : PidSkiplist α} (hsl : s.insertNew h
      (fun j => if j < s.level then some (lastAt s.ht j h (below s.toPidSkiplist k L)) else none)
      k v env = .ok (sl, some x)) :
    s.insert rb k v env = (do
      let hn ← sl.deref h
      let s' : PidRbSkiplist α :=
        { toPidSkiplist := sl, topRbRoot := s.topRbRoot,
          inRbTree := Function.update s.inRbTree x false }
      if env.draw.val = sl.level ∧ env.draw.val = hn.level then
        let s'' ← rbInsertNode rb s' x
        .ok (s'', 0)
      else .ok (s', 0)) := by
  obtain ⟨y, hy, hdesc⟩ := hs.insertStart_eq hk
  simp only [insert, hs.getHeader, ok_bind, hy, hdesc, hs.descend_header, hs.forward_below,
    hs.matchKey_above, (find_key_eq_none_iff k).mpr hnew, hsl]

/-- One node more in the list: the others are in the tree or not, as before. -/
theorem RbInv.of_inserted {sl : PidSkiplist α} {root : RbRoot} {flag : Addr → Bool}
    (hs : RbInv s h (A ++ B)) (hinv : Inv sl h (A ++ x :: B))
    (hht : ∀ p ∈ A ++ B, sl.ht p = s.ht p) (htree : inorder root.tree = topLevel sl (A ++ x :: B))
    (hx : flag x = decide (pidSlMaxLevel - 1 < sl.ht x))
    (hflag : ∀ p, p ≠ x → flag p = s.inRbTree p) :
    RbInv { toPidSkiplist := sl, topRbRoot := root, inRbTree := flag } h (A ++ x :: B) where
  toInv := hinv
  inorder_tree := htree
  flag p hp := by
    by_cases hpx : p = x
    · rw [hpx]
      exact hx
    · have hpL : p ∈ A ++ B := by simpa [hpx] using hp
      show flag p = _
      rw [hflag p hpx, hht p hpL]
      exact hs.flag p hpL

/-- A new top-level node goes into the tree where it goes into the list. -/
theorem RbInv.rbInsertNode_new (rb : KernelRbtree) {lvl : ℕ} {sl : PidSkiplist α}
    (hs : RbInv s h (A ++ B)) (hadded : Added s.toPidSkiplist sl h A k v lvl) (hlvl : 0 < lvl)
    (hA : ∀ a ∈ A, s.key a < k) (hB : ∀ b ∈ B, k < s.key b) :
    ∃ root,
      rbInsertNode rb
          { toPidSkiplist := sl, topRbRoot := s.topRbRoot
            inRbTree := Function.update s.inRbTree s.brk false } s.brk =
        .ok { toPidSkiplist := sl, topRbRoot := root
              inRbTree := Function.update (Function.update s.inRbTree s.brk false) s.brk true } ∧
      inorder root.tree = topLevel sl A ++ s.brk :: topLevel sl B := by
  have hne : ∀ p ∈ A ++ B, p ≠ s.brk := fun p hp => hs.ne_brk p (List.mem_cons_of_mem h hp)
  have hkey : ∀ p ∈ A ++ B, sl.key p = s.key p := fun p hp => by rw [hadded.key, if_neg (hne p hp)]
  have hht : ∀ p ∈ A ++ B, sl.ht p = s.ht p := fun p hp => by rw [hadded.ht, if_neg (hne p hp)]
  have hbrkkey : sl.key s.brk = k := by rw [hadded.key, if_pos rfl]
  have htree : inorder s.topRbRoot.tree = topLevel sl A ++ topLevel sl B := by
    rw [hs.inorder_tree, ← topLevel_append, topLevel_congr hht]
  refine rbInsertNode_eq rb ?_ (fun y hy => ?_) htree (fun a ha => ?_) fun b hb => ?_
  · rw [hadded.ht, if_pos rfl]
    exact hlvl
  · show 0 < sl.ht y
    rw [hht y (hs.tree_subset hy)]
    exact hs.ht_pos y (hs.tree_subset hy)
  · have haA := (List.mem_filter.mp ha).1
    show sl.key a < sl.key s.brk
    rw [hbrkkey, hkey a (List.mem_append_left _ haA)]
    exact hA a haA
  · have hbB := (List.mem_filter.mp hb).1
    show sl.key s.brk < sl.key b
    rw [hbrkkey, hkey b (List.mem_append_right _ hbB)]
    exact hB b hbB

/-- What `pid_rb_skiplist_insert` does once the search has shown that the key is new. -/
theorem RbInv.insert_new (rb : KernelRbtree) (hs : RbInv s h L) (hk : TreeAvoids s k)
    (hnew : ∀ p ∈ L, s.key p ≠ k) (henv : env.ok = true) (v : Option α) :
    ∃ s' L', s.insert rb k v env = .ok (s', 0) ∧
      s.toPidSkiplist.insert k v env = .ok (s'.toPidSkiplist, 0) ∧ RbInv s' h L' ∧
      (env.draw.val < pidSlMaxLevel → s'.topRbRoot = s.topRbRoot) := by
  obtain ⟨sl, hsl, hinv, hadded⟩ := hs.toInv.insertNew_ok hnew henv v
  have hplain : s.toPidSkiplist.insert k v env = .ok (sl, 0) :=
    hs.toInv.insert_of_insertNew hnew hsl
  have hcall := hs.insert_linked rb hk hnew hsl
  have hsplit := below_append_above s.toPidSkiplist k L
  have hA : ∀ a ∈ below s.toPidSkiplist k L, s.key a < k := fun a ha => key_lt_of_mem_below ha
  have hB : ∀ b ∈ above s.toPidSkiplist k L, k < s.key b := fun b hb =>
    lt_of_le_of_ne (le_key_of_mem_above hs.sorted hb) (hnew b (mem_of_mem_above hb)).symm
  set A := below s.toPidSkiplist k L
  set B := above s.toPidSkiplist k L
  have hs' : RbInv s h (A ++ B) := by
    rw [hsplit]
    exact hs
  have hht : ∀ p ∈ A ++ B, sl.ht p = s.ht p := fun p hp => by
    rw [hadded.ht, if_neg (hs'.ne_brk p (List.mem_cons_of_mem h hp))]
  have hbrkht : sl.ht s.brk = env.draw.val := by rw [hadded.ht, if_pos rfl]
  rw [hcall, deref_eq hinv.header_pos, ok_bind, hadded.level, hinv.header_ht]
  by_cases htop : env.draw.val = pidSlMaxLevel
  · -- the new node reaches the top level, so it goes into the tree as well
    have hlevel : env.draw.val = max s.level env.draw.val := by
      rw [max_eq_right]
      rw [htop]
      exact hs.level_le
    have hin : pidSlMaxLevel - 1 < sl.ht s.brk := by
      rw [hbrkht, htop]
      decide
    obtain ⟨root, hroot, htree⟩ := hs'.rbInsertNode_new rb hadded env.draw.pos hA hB
    have hinv' : RbInv
        { toPidSkiplist := sl
          topRbRoot := root
          inRbTree := Function.update (Function.update s.inRbTree s.brk false) s.brk true }
        h (A ++ s.brk :: B) := by
      refine hs'.of_inserted hinv hht ?_ ?_ fun p hp => ?_
      · rw [htree, topLevel_append, topLevel, topLevel, topLevel, List.filter_cons,
          if_pos (decide_eq_true hin)]
      · rw [Function.update_self]
        exact (decide_eq_true hin).symm
      · rw [Function.update_of_ne hp, Function.update_of_ne hp]
    refine ⟨_, A ++ s.brk :: B, ?_, hplain, hinv', fun hlt => by omega⟩
    rw [if_pos ⟨hlevel, htop⟩, hroot, ok_bind]
  · have hout : ¬ pidSlMaxLevel - 1 < sl.ht s.brk := by
      have hle := env.draw.le_max
      rw [hbrkht]
      omega
    have hinv' : RbInv
        { toPidSkiplist := sl
          topRbRoot := s.topRbRoot
          inRbTree := Function.update s.inRbTree s.brk false }
        h (A ++ s.brk :: B) := by
      refine hs'.of_inserted hinv hht ?_ ?_ fun p hp => ?_
      · rw [hs'.inorder_tree, ← topLevel_congr hht, topLevel_append, topLevel_append,
          topLevel, topLevel, topLevel, List.filter_cons, if_neg (by simpa using hout)]
      · rw [Function.update_self]
        exact (decide_eq_false hout).symm
      · rw [Function.update_of_ne hp]
    refine ⟨_, A ++ s.brk :: B, ?_, hplain, hinv', fun _ => rfl⟩
    rw [if_neg fun hc => htop hc.2]

/-- On a key the tree does not have, `pid_rb_skiplist_insert` does what `pid_skiplist_insert` does;
only a new top-level node changes the tree. -/
theorem RbInv.insert_eq (rb : KernelRbtree) (hs : RbInv s h L) (hk : TreeAvoids s k)
    (v : Option α) (env : NodeEnv) :
    ∃ s' r L', s.insert rb k v env = .ok (s', r) ∧
      s.toPidSkiplist.insert k v env = .ok (s'.toPidSkiplist, r) ∧ RbInv s' h L' ∧
      (((∀ p ∈ L, s.key p ≠ k) → env.ok = true → env.draw.val < pidSlMaxLevel) →
        s'.topRbRoot = s.topRbRoot) := by
  obtain ⟨x, hx, hdesc⟩ := hs.insertStart_eq hk
  by_cases hpres : ∃ p ∈ L, s.key p = k
  · obtain ⟨p, hp, rfl⟩ := hpres
    refine ⟨{ s with toPidSkiplist := s.toPidSkiplist.setPid p v }, 0, L, ?_,
      hs.toInv.insert_present hp rfl v env, hs.setPid p v, fun _ => rfl⟩
    simp only [insert, hs.getHeader, ok_bind, hx, hdesc, hs.descend_header,
      hs.forward_below, hs.matchKey_above, hs.find_key hp]
  · have hnew : ∀ p ∈ L, s.key p ≠ k := fun p hp hkp => hpres ⟨p, hp, hkp⟩
    cases henv : env.ok with
    | true =>
        obtain ⟨s', L', hins, hplain, hinv, htree⟩ := hs.insert_new rb hk hnew henv v
        exact ⟨s', 0, L', hins, hplain, hinv, fun hlow => htree (hlow hnew rfl)⟩
    | false =>
        obtain ⟨sl, hsl, hu⟩ := insertNew_fail s.toPidSkiplist h
          (fun j => if j < s.level then some (lastAt s.ht j h (below s.toPidSkiplist k L))
            else none) k v henv
        refine ⟨{ s with toPidSkiplist := sl }, -ENOMEM, L, ?_,
          hs.toInv.insert_of_insertNew hnew hsl, hs.of_unchanged hu env.draw.le_max, fun _ => rfl⟩
        simp only [insert, hs.getHeader, ok_bind, hx, hdesc, hs.descend_header, hs.forward_below,
          hs.matchKey_above, (find_key_eq_none_iff k).mpr hnew, hsl]

/-- On a key the tree does not have, `pid_rb_skiplist_remove` does what `pid_skiplist_remove` does
and leaves the tree as it is. -/
theorem RbInv.remove_eq (rb : KernelRbtree) (hs : RbInv s h L) (hk : TreeAvoids s k) :
    ∃ s' L', s.remove rb k = .ok s' ∧ s.toPidSkiplist.remove k = .ok s'.toPidSkiplist ∧
      RbInv s' h L' ∧ s'.topRbRoot = s.topRbRoot := by
  by_cases hpres : ∃ p ∈ L, s.key p = k
  · obtain ⟨p, hp, rfl⟩ := hpres
    obtain ⟨sl, B, hsl, hL, hinv, hrem⟩ := hs.toInv.removeNode_ok hp
    -- the node is not in the tree, because the tree does not have its key
    have hlow : ¬ pidSlMaxLevel - 1 < s.ht p := fun hc =>
      hk p (by rw [hs.inorder_tree]; exact List.mem_filter.mpr ⟨hp, decide_eq_true hc⟩) rfl
    have hflagp : s.inRbTree p = false := by rw [hs.flag p hp]; exact decide_eq_false hlow
    refine ⟨{ s with toPidSkiplist := sl }, _, ?_, ?_, ⟨hinv, ?_, ?_⟩, rfl⟩
    · simp only [remove, hs.header, hs.rbFindLe_eq hk, hs.descend_top, hs.descend_header, ok_bind,
        hs.forward_below, hs.matchKey_above, hs.find_key hp, hflagp, hsl, Bool.false_eq_true,
        if_false]
    · simp only [PidSkiplist.remove, hs.header, hs.descend_header, ok_bind, hs.forward_below,
        hs.matchKey_above, hs.find_key hp]
      exact hsl
    · have htree := hs.inorder_tree
      rw [topLevel, hL, List.filter_append, List.filter_cons, if_neg (by simpa using hlow),
        ← List.filter_append] at htree
      rw [topLevel, hrem.ht]
      exact htree
    · intro q hq
      rw [hrem.ht]
      refine hs.flag q ?_
      rw [hL]
      simp only [List.mem_append, List.mem_cons] at hq ⊢
      tauto
  · have hnew : ∀ p ∈ L, s.key p ≠ k := fun p hp hkp => hpres ⟨p, hp, hkp⟩
    refine ⟨s, L, ?_, hs.toInv.remove_absent hnew, hs, rfl⟩
    simp only [remove, hs.header, hs.rbFindLe_eq hk, hs.descend_top, hs.descend_header, ok_bind,
      hs.forward_below, hs.matchKey_above, (find_key_eq_none_iff k).mpr hnew]

end KernelPid.PidRbSkiplist
