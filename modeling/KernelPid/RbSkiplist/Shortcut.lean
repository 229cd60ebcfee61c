import KernelPid.RbSkiplist.Invariant

/-!
# The search from the tree

`rb_find_le` is there to save the search the way along the top levels. For a key that the tree does
not have, it returns the greatest of the tree's nodes below the key, and the search from there comes
to the same node on every level as the search from the header. Nothing is used of how the list came
about: the tree may have any shape, as long as it is a search tree of the nodes of the top level.
-/

namespace KernelPid.PidRbSkiplist

open Runs Tower SearchTree PidSkiplist

variable {α : Type} {s : PidRbSkiplist α} {h x : Addr} {k : ℤ} {L : List Addr}

/-- The list is the nodes `L`, which each level chains in ascending order as far as they reach it,
and the tree is a search tree of those that reach the top level. -/
structure TreeOfTop (s : PidRbSkiplist α) (h : Addr) (L : List Addr) : Prop
    extends Inv s.toPidSkiplist h L where
  ordered : Ordered s.key s.topRbRoot.tree
  nodes : ∀ x, x ∈ inorder s.topRbRoot.tree ↔ x ∈ L ∧ s.ht x = pidSlMaxLevel

/-- `x` is the greatest node of the tree below `k`, or the header `h` if no node of the tree is. -/
def IsStart (s : PidRbSkiplist α) (h : Addr) (k : ℤ) (x : Addr) : Prop :=
  (x ∈ inorder s.topRbRoot.tree ∧ s.key x < k ∧
      ∀ y ∈ inorder s.topRbRoot.tree, s.key y < k → s.key y ≤ s.key x) ∨
    x = h ∧ ∀ y ∈ inorder s.topRbRoot.tree, k < s.key y

/-- The lists that come about by insertions of keys that are not in the tree are among these. -/
theorem RbInv.treeOfTop (hs : RbInv s h L) : TreeOfTop s h L where
  toInv := hs.toInv
  ordered := by
    rw [ordered_iff, hs.inorder_tree]
    exact hs.sorted.sublist List.filter_sublist
  nodes x := by
    rw [hs.inorder_tree, topLevel, List.mem_filter, decide_eq_true_eq]
    refine and_congr_right fun hx => ?_
    have hle := le_trans (hs.ht_le x hx) hs.level_le
    have hmax : pidSlMaxLevel = 16 := rfl
    omega

theorem TreeOfTop.ht_pos_tree (hs : TreeOfTop s h L) : ∀ y ∈ inorder s.topRbRoot.tree, 0 < s.ht y :=
  fun y hy => hs.ht_pos y ((hs.nodes y).mp hy).1

/-- `rb_find_le` returns the node to start at. -/
theorem TreeOfTop.rbFindLe (hs : TreeOfTop s h L) (hk : TreeAvoids s k) :
    ∃ x, s.rbFindLe k = .ok x ∧ IsStart s h k x := by
  refine ⟨floor s.key k s.topRbRoot.tree h, ?_, ?_⟩
  · rw [PidRbSkiplist.rbFindLe, hs.getHeader, ok_bind, rbFindLeFrom_eq _ _ _ hs.ht_pos_tree]
  · rcases floor_cases s.topRbRoot.tree hs.ordered h with ⟨hmem, hle, hmax⟩ | ⟨heq, hnone⟩
    · left
      refine ⟨hmem, lt_of_le_of_ne hle (hk _ hmem), fun y hy hyk => ?_⟩
      exact hmax y hy (le_of_lt hyk)
    · exact Or.inr ⟨heq, hnone⟩

/-- It is in front of the key, and as tall as the header. -/
theorem TreeOfTop.start_mem (hs : TreeOfTop s h L) (hx : IsStart s h k x) :
    x ∈ h :: below s.toPidSkiplist k L ∧ s.ht x = pidSlMaxLevel := by
  rcases hx with ⟨hmem, hlt, -⟩ | ⟨rfl, -⟩
  · obtain ⟨hxL, htop⟩ := (hs.nodes x).mp hmem
    exact ⟨List.mem_cons_of_mem h ((mem_below_iff hs.sorted).mpr ⟨hxL, hlt⟩), htop⟩
  · exact ⟨List.mem_cons_self, hs.header_ht⟩

/-- The search from it ends where the search from the header does, on every level. -/
theorem TreeOfTop.descend (hs : TreeOfTop s h L) (hx : IsStart s h k x) (update : ℕ → Option Addr) :
    s.descend k s.level x update = s.descend k s.level h update := by
  obtain ⟨hmem, htop⟩ := hs.start_mem hx
  apply hs.descend_below hmem
  rw [htop]
  exact hs.level_le

/-- For a key that no node of the tree has, `rb_find_le` returns the greatest of the tree's nodes
below it, or the header; and the search from there, as `insert`, `remove` and the readers make it,
ends on each level in use at the same node as the search from the header. -/
theorem search_from_tree (s : PidRbSkiplist α) (h : Addr) (L : List Addr) (k : ℤ)
    (hs : TreeOfTop s h L) (hk : TreeAvoids s k) :
    ∃ x, s.rbFindLe k = .ok x ∧ IsStart s h k x ∧
      ∃ last update, s.descend k s.level h (fun _ => none) = .ok (last, update) ∧
        (∀ i < s.level, ∃ p, update i = some p) ∧
        s.descend k s.level x (fun _ => none) = .ok (last, update) ∧
        ∃ y, s.insertStart h k = .ok y ∧ s.descend k s.level y (fun _ => none) =
          .ok (last, update) := by
  obtain ⟨x, hfind, hx⟩ := hs.rbFindLe hk
  have hheader := hs.descend_header k fun _ => none
  have hfrom := (hs.descend hx fun _ => none).trans hheader
  refine ⟨x, hfind, hx, _, _, hheader, fun i hi => ⟨_, if_pos hi⟩, hfrom, ?_⟩
  -- an insertion asks the tree only while the list is as high as the header
  rw [insertStart, deref_eq hs.header_pos, ok_bind]
  by_cases hl : s.level = s.ht h
  · exact ⟨x, by rw [if_pos hl, hfind], hfrom⟩
  · exact ⟨h, if_neg hl, hheader⟩

/-- A list of one node, of the top level, and a key behind it. -/
theorem search_from_tree_behind_five :
    ∃ s L, (init : PidRbSkiplist ℕ).insert .flat 5 (some 50) ⟨pidSlRandomLevel 0, true, true⟩ =
      .ok (s, 0) ∧
      TreeOfTop s 0 L ∧ ∃ x, s.rbFindLe 7 = .ok x ∧ IsStart s 0 7 x ∧
      ∃ last update, s.descend 7 s.level 0 (fun _ => none) = .ok (last, update) ∧
        (∀ i < s.level, ∃ p, update i = some p) ∧
        s.descend 7 s.level x (fun _ => none) = .ok (last, update) ∧
        ∃ y, s.insertStart 0 7 = .ok y ∧ s.descend 7 s.level y (fun _ => none) =
          .ok (last, update) := by
  have hinit : RbInv (init : PidRbSkiplist ℕ) 0 [] := rbInv_init
  have hfive : TreeAvoids (init : PidRbSkiplist ℕ) 5 := by decide
  have henv : (⟨pidSlRandomLevel 0, true, true⟩ : NodeEnv).ok = true := rfl
  obtain ⟨s, L, hins, -, hinv, -⟩ := hinit.insert_new .flat hfive (by simp) henv (some 50)
  have hkeys : ((init : PidRbSkiplist ℕ).insert .flat 5 (some 50)
    ⟨pidSlRandomLevel 0, true, true⟩).map
      (fun r => (inorder r.1.topRbRoot.tree).map r.1.key) = .ok [5] := rfl
  rw [hins] at hkeys
  have htree : (inorder s.topRbRoot.tree).map s.key = [5] := Except.ok.inj hkeys
  have havoid : TreeAvoids s 7 := by
    intro x hx hxk
    have hmem : s.key x ∈ [(5 : ℤ)] := htree ▸ List.mem_map_of_mem hx
    rw [hxk] at hmem
    exact absurd hmem (by decide)
  exact ⟨s, L, hins, hinv.treeOfTop, search_from_tree s 0 L 7 hinv.treeOfTop havoid⟩

end KernelPid.PidRbSkiplist
