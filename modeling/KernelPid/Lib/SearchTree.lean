import Mathlib.Data.Tree.Basic
import Mathlib.Data.List.TakeWhile
import Mathlib.Order.Lattice

/-!
# Binary search trees over nodes with keys

Trees whose nodes carry keys through a function `key`, so that the tree does not own the keys. The
order of a tree is the order of its in-order list; nothing is assumed about its shape, so the lemmas
hold for any balancing scheme.
-/

namespace SearchTree

variable {ν κ : Type*} [LinearOrder κ] {key : ν → κ} {k : κ}

/-- The in-order list of a tree. -/
def inorder : BinaryTree ν → List ν
  | .nil => []
  | .node x l r => inorder l ++ x :: inorder r

/-- A search tree of any shape: the keys on the left of a node are below its key, and those on the
right above it. -/
def Ordered (key : ν → κ) : BinaryTree ν → Prop
  | .nil => True
  | .node x l r =>
    Ordered key l ∧ Ordered key r ∧ (∀ y ∈ inorder l, key y < key x) ∧
      ∀ y ∈ inorder r, key x < key y

/-- The node with the greatest key not above `k`, found on one path down; `d` when there is none. -/
def floor (key : ν → κ) (k : κ) : BinaryTree ν → ν → ν
  | .nil, d => d
  | .node x l r, d => if key x ≤ k then floor key k r x else floor key k l d

/-- What is taken ends in front of a node that fails the test. -/
theorem takeWhile_append_of_head (p : ν → Bool) {A B : List ν} {b : ν} (h : p b = false) :
    (A ++ b :: B).takeWhile p = A.takeWhile p := by
  induction A with
  | nil => simp [h]
  | cons a A ih =>
      cases ha : p a with
      | true => simp only [List.cons_append, List.takeWhile_cons, ha, if_true, ih]
      | false => simp [ha]

/-- In a tree with ascending keys the path down finds the last node not above `k`. -/
theorem floor_eq (t : BinaryTree ν) (ht : (inorder t).Pairwise fun x y => key x < key y) (d : ν) :
    floor key k t d = ((inorder t).takeWhile fun x => key x ≤ k).getLast?.getD d := by
  induction t generalizing d with
  | nil => rfl
  | node x l r ihl ihr =>
      obtain ⟨hl, hr, hlr⟩ := List.pairwise_append.mp ht
      obtain ⟨hxr, hr⟩ := List.pairwise_cons.mp hr
      by_cases hx : key x ≤ k
      -- the root is not above `k`, and so is nothing on its left: the floor is on
      -- its right, or the root
      · have hall : ∀ y ∈ inorder l ++ [x], decide (key y ≤ k) = true := by
          intro y hy
          rcases List.mem_append.mp hy with hy | hy
          · exact decide_eq_true (le_trans (le_of_lt (hlr y hy x (by simp))) hx)
          · rw [List.mem_singleton.mp hy]; exact decide_eq_true hx
        rw [floor, if_pos hx, ihr hr, inorder,
          show inorder l ++ x :: inorder r = (inorder l ++ [x]) ++ inorder r by simp,
          List.takeWhile_append_of_pos hall]
        cases hlast : ((inorder r).takeWhile fun x => decide (key x ≤ k)).getLast? with
        | none => simp [List.getLast?_eq_none_iff.mp hlast]
        | some y =>
            obtain ⟨C, hC⟩ := List.getLast?_eq_some_iff.mp hlast
            rw [hC, ← List.append_assoc, List.getLast?_concat, Option.getD_some, Option.getD_some]
      · rw [floor, if_neg hx, ihl hl, inorder,
          takeWhile_append_of_head (fun x => decide (key x ≤ k)) (decide_eq_false hx)]

/-- A tree is a search tree when its in-order list ascends. -/
theorem ordered_iff (t : BinaryTree ν) :
    Ordered key t ↔ (inorder t).Pairwise fun x y => key x < key y := by
  induction t with
  | nil => exact iff_of_true trivial List.Pairwise.nil
  | node x l r ihl ihr =>
      rw [Ordered, ihl, ihr, inorder, List.pairwise_append, List.pairwise_cons]
      constructor
      · rintro ⟨hl, hr, hlx, hxr⟩
        refine ⟨hl, ⟨hxr, hr⟩, fun y hy z hz => ?_⟩
        rcases List.mem_cons.mp hz with rfl | hz
        · exact hlx y hy
        · exact lt_trans (hlx y hy) (hxr z hz)
      · rintro ⟨hl, ⟨hxr, hr⟩, hlr⟩
        exact ⟨hl, hr, fun y hy => hlr y hy x List.mem_cons_self, hxr⟩

/-- In a search tree the path down ends at the greatest node not above `k`, or there is none. -/
theorem floor_cases (t : BinaryTree ν) (ht : Ordered key t) (d : ν) :
    (floor key k t d ∈ inorder t ∧ key (floor key k t d) ≤ k ∧
        ∀ y ∈ inorder t, key y ≤ k → key y ≤ key (floor key k t d)) ∨
      floor key k t d = d ∧ ∀ y ∈ inorder t, k < key y := by
  induction t generalizing d with
  | nil => exact Or.inr ⟨rfl, by simp [inorder]⟩
  | node x l r ihl ihr =>
      obtain ⟨hl, hr, hlx, hxr⟩ := ht
      by_cases hx : key x ≤ k
      -- `x` is the best node so far, and only those on its right may be better
      · left
        rw [floor, if_pos hx]
        rcases ihr hr x with ⟨hmem, hle, hmax⟩ | ⟨heq, hnone⟩
        · refine ⟨by simp [inorder, hmem], hle, fun y hy hyk => ?_⟩
          have hxf := hxr _ hmem
          rcases List.mem_append.mp hy with hyl | hy
          · exact le_of_lt (lt_trans (hlx y hyl) hxf)
          · rcases List.mem_cons.mp hy with rfl | hyr
            · exact le_of_lt hxf
            · exact hmax y hyr hyk
        · rw [heq]
          refine ⟨by simp [inorder], hx, fun y hy hyk => ?_⟩
          rcases List.mem_append.mp hy with hyl | hy
          · exact le_of_lt (hlx y hyl)
          · rcases List.mem_cons.mp hy with rfl | hyr
            · exact le_refl _
            · exact absurd hyk (not_le.mpr (hnone y hyr))
      -- `x` is above `k`, and so are those on its right
      · have hkx := not_le.mp hx
        have habove : ∀ y ∈ x :: inorder r, k < key y := by
          intro y hy
          rcases List.mem_cons.mp hy with rfl | hyr
          · exact hkx
          · exact lt_trans hkx (hxr y hyr)
        rw [floor, if_neg hx]
        rcases ihl hl d with ⟨hmem, hle, hmax⟩ | ⟨heq, hnone⟩
        · refine Or.inl ⟨by simp [inorder, hmem], hle, fun y hy hyk => ?_⟩
          rcases List.mem_append.mp hy with hyl | hy
          · exact hmax y hyl hyk
          · exact absurd hyk (not_le.mpr (habove y hy))
        · refine Or.inr ⟨heq, fun y hy => ?_⟩
          rcases List.mem_append.mp hy with hyl | hy
          · exact hnone y hyl
          · exact habove y hy

/-- Hang `x`, with key `k`, into the tree as a leaf; `none` when a node has that key already. -/
def link (key : ν → κ) (k : κ) (x : ν) : BinaryTree ν → Option (BinaryTree ν)
  | .nil => some (.node x .nil .nil)
  | .node y l r =>
    if k < key y then (link key k x l).map fun l' => .node y l' r
    else if key y < k then (link key k x r).map fun r' => .node y l r'
    else none

/-- Hanging in a new key puts its node between the smaller and the larger keys. -/
theorem link_eq {x : ν} (t : BinaryTree ν) {A B : List ν} (ht : inorder t = A ++ B)
    (hA : ∀ a ∈ A, key a < k) (hB : ∀ b ∈ B, k < key b) :
    ∃ t', link key k x t = some t' ∧ inorder t' = A ++ x :: B := by
  induction t generalizing A B with
  | nil =>
      obtain ⟨rfl, rfl⟩ := List.append_eq_nil_iff.mp ht.symm
      exact ⟨_, rfl, rfl⟩
  | node y l r ihl ihr =>
      rcases List.append_eq_append_iff.mp ht with ⟨C, hA', hr⟩ | ⟨C, hl, hB'⟩
      · cases C with
        -- `A` is the left subtree, and the root the first node of `B`
        | nil =>
            obtain rfl : A = inorder l := by simpa using hA'
            have hyB : k < key y := hB y (by rw [← show y :: inorder r = B from hr]; simp)
            obtain ⟨l', hlink, hin⟩ := ihl (A := inorder l) (B := []) (by simp) hA (by simp)
            refine ⟨.node y l' r, by simp [link, hyB, hlink], ?_⟩
            rw [inorder, hin, ← show y :: inorder r = B from hr]
            simp
        -- `A` goes on behind the root
        | cons c C =>
            obtain ⟨rfl, hr'⟩ := List.cons.inj hr
            have hyk : key y < k := hA y (by rw [hA']; simp)
            obtain ⟨r', hlink, hin⟩ := ihr hr' (fun a ha => hA a (by rw [hA']; simp [ha])) hB
            refine ⟨.node y l r', by simp [link, hyk, not_lt.mpr (le_of_lt hyk), hlink], ?_⟩
            rw [inorder, hin, hA']
            simp
      · have hyk : k < key y := hB y (by rw [hB']; simp)
        obtain ⟨l', hlink, hin⟩ := ihl hl hA fun b hb => hB b (by rw [hB']; simp [hb])
        refine ⟨.node y l' r, by simp [link, hyk, hlink], ?_⟩
        rw [inorder, hin, hB']
        simp

/-- The key of a node of the tree is found on the way down, and nothing is hung in. -/
theorem link_eq_none {x y : ν} (t : BinaryTree ν)
    (ht : (inorder t).Pairwise fun x y => key x < key y) (hy : y ∈ inorder t) :
    link key (key y) x t = none := by
  induction t with
  | nil => simp [inorder] at hy
  | node z l r ihl ihr =>
      obtain ⟨hl, hr, hlr⟩ := List.pairwise_append.mp ht
      obtain ⟨hzr, hr⟩ := List.pairwise_cons.mp hr
      rcases List.mem_append.mp hy with hyl | hy
      · have hlt : key y < key z := hlr y hyl z (by simp)
        rw [link, if_pos hlt, ihl hl hyl, Option.map_none]
      · rcases List.mem_cons.mp hy with rfl | hyr
        · rw [link, if_neg (lt_irrefl _), if_neg (lt_irrefl _)]
        · have hgt : key z < key y := hzr y hyr
          rw [link, if_neg (not_lt_of_gt hgt), if_pos hgt, ihr hr hyr, Option.map_none]

/-- Hang the tree `r` behind the last node of `l`. -/
def join : BinaryTree ν → BinaryTree ν → BinaryTree ν
  | .nil, r => r
  | .node x ll lr, r => .node x ll (join lr r)

theorem inorder_join (l r : BinaryTree ν) : inorder (join l r) = inorder l ++ inorder r := by
  induction l with
  | nil => rfl
  | node x ll lr _ ih => simp [join, inorder, ih]

/-- Take the node `x` out and join its subtrees. -/
def erase [DecidableEq ν] (x : ν) : BinaryTree ν → BinaryTree ν
  | .nil => .nil
  | .node y l r => if y = x then join l r else .node y (erase x l) (erase x r)

/-- Taking a node out of a tree without repetitions takes it out of the in-order list. -/
theorem inorder_erase [DecidableEq ν] {x : ν} (t : BinaryTree ν) (ht : (inorder t).Nodup) :
    inorder (erase x t) = (inorder t).erase x := by
  induction t with
  | nil => rfl
  | node y l r ihl ihr =>
      simp only [inorder, List.nodup_append, List.nodup_cons, List.mem_cons] at ht
      obtain ⟨hl, ⟨hyr, hr⟩, hlr⟩ := ht
      by_cases hyx : y = x
      · subst hyx
        have hyl : y ∉ inorder l := fun hc => hlr y hc y (Or.inl rfl) rfl
        rw [erase, if_pos rfl, inorder_join, inorder, List.erase_append_right _ hyl,
          List.erase_cons_head]
      · rw [erase, if_neg hyx, inorder, inorder, ihl hl, ihr hr]
        by_cases hxl : x ∈ inorder l
        · have hxr : x ∉ inorder r := fun hc => hlr x hxl x (Or.inr hc) rfl
          rw [List.erase_append_left _ hxl, List.erase_of_not_mem hxr]
        · rw [List.erase_append_right _ hxl, List.erase_of_not_mem hxl,
            List.erase_cons_tail (by simpa using hyx)]

end SearchTree
