import KernelPid.RbSkiplist.Invariant
import KernelPid.Skiplist.Writer

/-!
# The RB skip list when its keys are inserted again

A search for a key that a node of the tree has starts behind that node, so that the key may get a
second node, next to the first one and not in the tree; and it is only that second node which a
removal finds. A node of the tree never leaves it. `RbShape` is what all states have in common: the
tree holds nodes of the top level, in list order, and a key occurs twice only as a tree node with
the other one behind it. That is enough for every search, since a node of the top level is as tall
as the header.
-/

namespace KernelPid.PidRbSkiplist

open Runs Tower SearchTree PidSkiplist

variable {α : Type} {s : PidRbSkiplist α} {h x : Addr} {k : ℤ} {v : Option α} {env : NodeEnv}
  {L A B : List Addr}

/-- The nodes of the tree, in order. -/
def treeNodes (s : PidRbSkiplist α) : List Addr := inorder s.topRbRoot.tree

/-- The list is a tower, and the tree holds nodes of it that reach the top level. -/
structure RbShape (s : PidRbSkiplist α) (h : Addr) (L : List Addr) : Prop
    extends Shape s.toPidSkiplist h L where
  tree : s.treeNodes.Sublist L
  tree_ht : ∀ x ∈ s.treeNodes, s.ht x = pidSlMaxLevel
  flag : ∀ x ∈ L, s.inRbTree x = decide (x ∈ s.treeNodes)
  sorted : L.Pairwise fun x y =>
    s.key x < s.key y ∨ s.key x = s.key y ∧ x ∈ s.treeNodes ∧ y ∉ s.treeNodes

theorem rbShape_init : RbShape (init : PidRbSkiplist α) 0 [] where
  toShape := inv_init.toShape
  tree := List.Sublist.refl []
  tree_ht := by simp [treeNodes, init, inorder]
  flag := by simp
  sorted := List.Pairwise.nil

/-- Among the tree nodes no key occurs twice. -/
theorem RbShape.tree_sorted (hs : RbShape s h L) :
    s.treeNodes.Pairwise fun x y => s.key x < s.key y := by
  refine (hs.sorted.sublist hs.tree).imp_of_mem fun {x y} _ hy hxy => ?_
  rcases hxy with hlt | ⟨-, -, hy'⟩
  · exact hlt
  · exact absurd hy hy'

theorem RbShape.key_le (hs : RbShape s h (A ++ x :: B)) : ∀ y ∈ B, s.key x ≤ s.key y := by
  intro y hy
  have hxB := (List.pairwise_append.mp hs.sorted).2.1
  rcases (List.pairwise_cons.mp hxB).1 y hy with hlt | ⟨heq, -⟩
  · exact le_of_lt hlt
  · exact le_of_eq heq

/-! ## The search -/

/-- The place `h :: A | B` where a search for `k` ends: behind the tree node with key `k`, if there
is one, and in front of the other nodes not below `k`. -/
structure Cut (s : PidRbSkiplist α) (h : Addr) (L : List Addr) (k : ℤ) (A B : List Addr) :
    Prop where
  split : L = A ++ B
  front : ∀ a ∈ A, s.key a < k ∨ s.key a = k ∧ a ∈ s.treeNodes
  back : ∀ b ∈ B, k ≤ s.key b ∧ (s.key b = k → b ∉ s.treeNodes)
  start : ∃ P x Q, h :: A = P ++ x :: Q ∧ s.rbFindLe k = .ok x ∧ s.ht x = pidSlMaxLevel ∧
    ∀ a ∈ Q, s.key a < k

/-- The tree nodes not above `k` are the first ones. -/
theorem RbShape.rbFindLe_eq (hs : RbShape s h L) (k : ℤ) :
    ∃ T₁ T₂, s.treeNodes = T₁ ++ T₂ ∧ (∀ x ∈ T₁, s.key x ≤ k) ∧ (∀ x ∈ T₂, k < s.key x) ∧
      s.rbFindLe k = .ok (T₁.getLast?.getD h) := by
  refine ⟨s.treeNodes.takeWhile fun x => s.key x ≤ k, s.treeNodes.dropWhile fun x => s.key x ≤ k,
    List.takeWhile_append_dropWhile.symm, fun x hx => ?_, fun x hx => ?_, ?_⟩
  · simpa using List.mem_takeWhile_imp hx
  · have hsorted := hs.tree_sorted
    cases hdrop : s.treeNodes.dropWhile fun x => s.key x ≤ k with
    | nil => simp [hdrop] at hx
    | cons y T =>
        have hy : k < s.key y := by
          have hhead := List.head?_dropWhile_not (fun x => decide (s.key x ≤ k)) s.treeNodes
          rw [hdrop, List.head?_cons] at hhead
          simpa using hhead
        have hyT := hsorted.sublist (List.dropWhile_sublist fun x => decide (s.key x ≤ k))
        rw [hdrop] at hx hyT
        rcases List.mem_cons.mp hx with rfl | hxT
        · exact hy
        · exact lt_trans hy ((List.pairwise_cons.mp hyT).1 x hxT)
  · have hpos : ∀ y ∈ inorder s.topRbRoot.tree, 0 < s.ht y := fun y hy => by
      rw [hs.tree_ht y hy]
      decide
    rw [rbFindLe, hs.getHeader, ok_bind, rbFindLeFrom_eq _ _ _ hpos, floor_eq _ hs.tree_sorted]
    rfl

/-- The search for `k` goes past `x`. -/
def inFront (s : PidRbSkiplist α) (k : ℤ) (x : Addr) : Bool :=
  decide (s.key x < k ∨ s.key x = k ∧ x ∈ s.treeNodes)

theorem inFront_of_tree (hx : x ∈ s.treeNodes) (hk : s.key x ≤ k) : s.inFront k x = true := by
  rcases lt_or_eq_of_le hk with hlt | heq
  · exact decide_eq_true (Or.inl hlt)
  · exact decide_eq_true (Or.inr ⟨heq, hx⟩)

/-- The first node that the search does not go past is not below the key, and neither are those
behind it. -/
theorem RbShape.back (hs : RbShape s h L) (k : ℤ) :
    ∀ b ∈ L.dropWhile (s.inFront k), k ≤ s.key b ∧ (s.key b = k → b ∉ s.treeNodes) := by
  have hsorted := hs.sorted.sublist (List.dropWhile_sublist (s.inFront k))
  have hhead := List.head?_dropWhile_not (s.inFront k) L
  cases hdrop : L.dropWhile (s.inFront k) with
  | nil => simp
  | cons c C =>
      rw [hdrop] at hsorted hhead
      have hc : ¬ s.key c < k ∧ (s.key c = k → c ∉ s.treeNodes) := by simpa [inFront] using hhead
      intro b hb
      rcases List.mem_cons.mp hb with rfl | hbC
      · exact ⟨by omega, hc.2⟩
      · rcases (List.pairwise_cons.mp hsorted).1 b hbC with hlt | ⟨heq, hcT, hbT⟩
        · exact ⟨by omega, fun hk => by omega⟩
        · exact ⟨by omega, fun _ => hbT⟩

/-- What the search goes past, when the last tree node not above the key is `y`. -/
theorem RbShape.takeWhile_inFront {L₁ L₂ : List Addr} {y : Addr} (hs : RbShape s h (L₁ ++ y :: L₂))
    (hy : y ∈ s.treeNodes) (hyk : s.key y ≤ k) :
    (L₁ ++ y :: L₂).takeWhile (s.inFront k) = L₁ ++ y :: L₂.takeWhile (s.inFront k) := by
  have hL₁ : ∀ a ∈ L₁, s.inFront k a = true := by
    intro a ha
    rcases (List.pairwise_append.mp hs.sorted).2.2 a ha y (by simp) with hlt | ⟨-, -, hyT⟩
    · exact decide_eq_true (Or.inl (by omega))
    · exact absurd hy hyT
  rw [List.takeWhile_append_of_pos hL₁, List.takeWhile_cons, if_pos (inFront_of_tree hy hyk)]

/-- The search for any key ends somewhere. -/
theorem RbShape.exists_cut (hs : RbShape s h L) (k : ℤ) : ∃ A B, Cut s h L k A B := by
  obtain ⟨T₁, T₂, htree, hT₁, hT₂, hfind⟩ := hs.rbFindLe_eq k
  have hA : ∀ a ∈ L.takeWhile (s.inFront k), s.key a < k ∨ s.key a = k ∧ a ∈ s.treeNodes :=
    fun a ha => by simpa [inFront] using List.mem_takeWhile_imp ha
  have hmem : ∀ y ∈ s.treeNodes, s.key y ≤ k → y ∈ T₁ := by
    intro y hy hle
    rw [htree] at hy
    exact (List.mem_append.mp hy).resolve_right fun hy₂ => absurd (hT₂ y hy₂) (by omega)
  refine ⟨L.takeWhile (s.inFront k), L.dropWhile (s.inFront k),
    List.takeWhile_append_dropWhile.symm, hA, hs.back k, ?_⟩
  rcases List.eq_nil_or_concat' T₁ with rfl | ⟨T, y, rfl⟩
  · -- no tree node is in front: the search starts at the header
    refine ⟨[], h, L.takeWhile (s.inFront k), rfl, hfind, hs.header_ht, fun a ha => ?_⟩
    rcases hA a ha with hlt | ⟨heq, haT⟩
    · exact hlt
    · exact absurd (hmem a haT (le_of_eq heq)) (by simp)
  · have hyT : y ∈ s.treeNodes := by rw [htree]; simp
    obtain ⟨L₁, L₂, rfl⟩ := List.append_of_mem (hs.tree.subset hyT)
    have hsplit := hs.takeWhile_inFront hyT (hT₁ y (by simp))
    refine ⟨h :: L₁, y, L₂.takeWhile (s.inFront k), by rw [hsplit]; rfl, ?_, hs.tree_ht y hyT,
      fun a ha => ?_⟩
    · rw [hfind, List.getLast?_concat, Option.getD_some]
    · rcases hA a (by rw [hsplit]; simp [ha]) with hlt | ⟨heq, haT⟩
      · exact hlt
      · -- a tree node with the key would be behind `y`, and it would not be the last one
        have hya : s.key y < s.key a := by
          have hyL := (List.pairwise_append.mp hs.sorted).2.1
          have ha₂ : a ∈ L₂ := (List.takeWhile_sublist _).subset ha
          rcases (List.pairwise_cons.mp hyL).1 a ha₂ with hlt | ⟨-, -, haT'⟩
          · exact hlt
          · exact absurd haT haT'
        have hsorted := hs.tree_sorted
        rw [htree] at hsorted
        have hTy := (List.pairwise_append.mp (List.pairwise_append.mp hsorted).1).2.2
        rcases List.mem_append.mp (hmem a haT (le_of_eq heq)) with haT₀ | hay
        · have hlt := hTy a haT₀ y (by simp)
          omega
        · rw [List.mem_singleton.mp hay] at hya
          omega

/-- The search ends at the last node of `h :: A` on every level, starting from the tree. -/
theorem RbShape.search (hs : RbShape s h L) (hc : Cut s h L k A B) :
    ∃ x, s.rbFindLe k = .ok x ∧ ∀ update, s.descend k s.level x update =
      .ok (lastAt s.ht 0 h A,
        fun j => if j < s.level then some (lastAt s.ht j h A) else update j) := by
  obtain ⟨P, x, Q, hsplit, hfind, hx, hQ⟩ := hc.start
  have hlen : A.length < s.brk := by
    have hlt := hs.length_lt_brk
    rw [hc.split, List.length_append] at hlt
    omega
  have hlink : Linked s.fwd s.ht (h :: A ++ B) := by
    rw [List.cons_append, ← hc.split]
    exact hs.linked
  refine ⟨x, hfind, fun update => ?_⟩
  rw [descend_eq (fun b hb => (hc.back b hb).1) hlink hlen hsplit hQ
    (by rw [hx]; exact hs.level_le), if_neg (Nat.pos_iff_ne_zero.mp hs.level_pos)]

/-- While the top level is not in use the tree is empty, and an insertion starts at the header. -/
theorem RbShape.insertStart_eq (hs : RbShape s h L) (hc : Cut s h L k A B) :
    ∃ x, s.insertStart h k = .ok x ∧ ∀ update, s.descend k s.level x update =
      .ok (lastAt s.ht 0 h A,
        fun j => if j < s.level then some (lastAt s.ht j h A) else update j) := by
  obtain ⟨x, hfind, hdesc⟩ := hs.search hc
  refine ⟨x, ?_, hdesc⟩
  rw [insertStart, deref_eq hs.header_pos, ok_bind]
  by_cases hl : s.level = s.ht h
  · rw [if_pos hl, hfind]
  · have hnil : s.topRbRoot.tree = .nil := by
      cases htree : s.topRbRoot.tree with
      | nil => rfl
      | node y l r =>
          have hy : y ∈ s.treeNodes := by simp [treeNodes, htree, inorder]
          have hle := hs.ht_le y (hs.tree.subset hy)
          rw [hs.tree_ht y hy, ← hs.header_ht] at hle
          exact absurd (le_antisymm hs.level_le_header hle) hl
    rw [if_neg hl, ← hfind, rbFindLe, hs.getHeader, ok_bind, hnil, rbFindLeFrom]

/-- The node behind the place where the search ends. -/
theorem RbShape.forward_cut (hs : RbShape s h L) (hc : Cut s h L k A B) :
    s.forward (lastAt s.ht 0 h A) 0 = .ok B.head? := by
  have hlink : Linked s.fwd s.ht (h :: A ++ B) := by
    rw [List.cons_append, ← hc.split]
    exact hs.linked
  rw [forward_eq (lt_ht_lastAt hs.header_pos A), hlink.fwd_lastAt hs.header_pos,
    nextAt_eq_head? fun b hb => hs.ht_pos b (by rw [hc.split]; simp [hb])]

/-- The search finds a node with the key that is not in the tree, or no node behind it
has the key. -/
theorem RbShape.found_or_new (hs : RbShape s h L) (hc : Cut s h L k A B) :
    (∃ p C, B = p :: C ∧ s.key p = k ∧ p ∉ s.treeNodes ∧ s.matchKey k B.head? = .ok (some p)) ∨
      (∀ b ∈ B, k < s.key b) ∧ s.matchKey k B.head? = .ok none := by
  cases B with
  | nil => exact Or.inr ⟨by simp, rfl⟩
  | cons p C =>
      have hp := hc.back p (by simp)
      have hpos : 0 < s.ht p := hs.ht_pos p (by rw [hc.split]; simp)
      rw [List.head?_cons, matchKey, deref_eq hpos, ok_bind]
      by_cases hk : s.key p = k
      · exact Or.inl ⟨p, C, rfl, hk, hp.2 hk, by rw [if_pos hk]⟩
      · refine Or.inr ⟨fun b hb => ?_, by rw [if_neg hk]⟩
        have hlt : k < s.key p := lt_of_le_of_ne hp.1 (Ne.symm hk)
        rcases List.mem_cons.mp hb with rfl | hbC
        · exact hlt
        · have hle := (hc.split ▸ hs).key_le b hbC
          exact lt_of_lt_of_le hlt hle

/-! ## The readers -/

theorem RbShape.lookupRcu (hs : RbShape s h L) (k : ℤ) : ∃ p, s.lookupRcu k = .ok p := by
  obtain ⟨A, B, hc⟩ := hs.exists_cut k
  obtain ⟨x, hfind, hdesc⟩ := hs.search hc
  rcases hs.found_or_new hc with ⟨p, C, rfl, -, -, hmatch⟩ | ⟨-, hmatch⟩
  · have hpos : 0 < s.ht p := hs.ht_pos p (by rw [hc.split]; simp)
    refine ⟨s.pid p, ?_⟩
    simp only [PidRbSkiplist.lookupRcu, hs.header, hfind, ok_bind, hdesc, hs.forward_cut hc, hmatch,
      deref_eq hpos]
  · refine ⟨none, ?_⟩
    simp only [PidRbSkiplist.lookupRcu, hs.header, hfind, ok_bind, hdesc, hs.forward_cut hc, hmatch]

theorem RbShape.findGeRcu (hs : RbShape s h L) (k : ℤ) : ∃ p, s.findGeRcu k = .ok p := by
  obtain ⟨A, B, hc⟩ := hs.exists_cut k
  obtain ⟨x, hfind, hdesc⟩ := hs.search hc
  simp only [PidRbSkiplist.findGeRcu, hs.header, hfind, ok_bind, hdesc, hs.forward_cut hc]
  cases B with
  | nil => exact ⟨none, rfl⟩
  | cons b B =>
      have hpos : 0 < s.ht b := hs.ht_pos b (by rw [hc.split]; simp)
      simp only [List.head?_cons, deref_eq hpos, ok_bind]
      exact ⟨s.pid b, rfl⟩

/-- The first step of an iteration. -/
theorem RbShape.iterNextRcu_none (hs : RbShape s h L) (k : ℤ) :
    ∃ r, s.iterNextRcu none k = .ok r := by
  obtain ⟨A, B, hc⟩ := hs.exists_cut k
  obtain ⟨x, hfind, hdesc⟩ := hs.search hc
  simp only [PidRbSkiplist.iterNextRcu, hs.header, hfind, ok_bind, hdesc, hs.forward_cut hc]
  cases B with
  | nil => exact ⟨(none, none), rfl⟩
  | cons b B =>
      have hpos : 0 < s.ht b := hs.ht_pos b (by rw [hc.split]; simp)
      have hle : ¬ s.key b < k := Int.not_lt.mpr (hc.back b (by simp)).1
      simp only [List.head?_cons, deref_eq hpos, ok_bind, if_neg hle]
      exact ⟨(some b, s.pid b), rfl⟩

/-! ## The writers -/

/-- One writer call; `insert` returns a status, `remove` nothing. -/
def write (rb : KernelRbtree) (s : PidRbSkiplist α) :
    WriteOp α → Except Fault (PidRbSkiplist α × Option ℤ)
  | .insert key pid env => do
    let (s, retval) ← s.insert rb key pid env
    .ok (s, some retval)
  | .remove key => do
    let s ← s.remove rb key
    .ok (s, none)

/-- The tree after a node `x` of height `lvl` was put between `h :: A` and `B`: the node is in it if
it reaches the top level and the tree does not have its key. -/
structure Hung (s s' : PidRbSkiplist α) (x : Addr) (k : ℤ) (lvl : ℕ) (A B : List Addr) : Prop where
  tree : ∃ T₁ T₂, s.treeNodes = T₁ ++ T₂ ∧ T₁.Sublist A ∧ T₂.Sublist B ∧
    s'.treeNodes = if lvl = pidSlMaxLevel ∧ TreeAvoids s k then T₁ ++ x :: T₂ else T₁ ++ T₂
  flag : ∀ y, s'.inRbTree y =
    if y = x then decide (lvl = pidSlMaxLevel ∧ TreeAvoids s k) else s.inRbTree y

/-- What a writer call does to the list `L`. -/
inductive Written (s : PidRbSkiplist α) (h : Addr) (L : List Addr) :
    WriteOp α → PidRbSkiplist α → List Addr → Prop
  | replaced {k : ℤ} {v : Option α} {env : NodeEnv} {p : Addr} (hp : p ∈ L) (hkey : s.key p = k)
      (htree : p ∉ s.treeNodes) :
      Written s h L (.insert k v env) { s with toPidSkiplist := s.toPidSkiplist.setPid p v } L
  | added {k : ℤ} {v : Option α} {env : NodeEnv} {A B : List Addr} {s' : PidRbSkiplist α}
      (hcut : Cut s h L k A B) (hnew : ∀ b ∈ B, k < s.key b) (henv : env.ok = true)
      (hadded : Added s.toPidSkiplist s'.toPidSkiplist h A k v env.draw.val)
      (hhung : Hung s s' s.brk k env.draw.val A B) :
      Written s h L (.insert k v env) s' (A ++ s.brk :: B)
  | refused {k : ℤ} {v : Option α} {env : NodeEnv} {sl : PidSkiplist α} {update : ℕ → Option Addr}
      (henv : env.ok = false) (hsl : s.insertNew h update k v env = .ok (sl, none))
      (hu : Unchanged s.toPidSkiplist sl env.draw.val) :
      Written s h L (.insert k v env) { s with toPidSkiplist := sl } L
  | absent {k : ℤ} : Written s h L (.remove k) s L
  | removed {k : ℤ} {A B : List Addr} {p : Addr} {sl : PidSkiplist α} (hL : L = A ++ p :: B)
      (hkey : s.key p = k) (htree : p ∉ s.treeNodes) (hshape : Shape sl h (A ++ B))
      (hrem : Removed s.toPidSkiplist sl h A p) :
      Written s h L (.remove k) { s with toPidSkiplist := sl } (A ++ B)

/-- `rb_insert_node` on the new node. -/
theorem RbShape.rbInsertNode (rb : KernelRbtree) (hs : RbShape s h L) (hc : Cut s h L k A B)
    (hnew : ∀ b ∈ B, k < s.key b) {sl : PidSkiplist α} {lvl : ℕ} (hlvl : 0 < lvl)
    (hadded : Added s.toPidSkiplist sl h A k v lvl) {t : PidRbSkiplist α}
    (ht : t.toPidSkiplist = sl) (hroot : t.topRbRoot = s.topRbRoot)
    (hflag : t.inRbTree = Function.update s.inRbTree s.brk false) :
    ∃ s', PidRbSkiplist.rbInsertNode rb t s.brk = .ok s' ∧ s'.toPidSkiplist = sl ∧
      Hung s s' s.brk k pidSlMaxLevel A B := by
  subst ht
  obtain ⟨T₁, T₂, htree, hT₁, hT₂⟩ := List.sublist_append_iff.mp (hc.split ▸ hs.tree)
  have hkey : ∀ y ∈ s.treeNodes, t.key y = s.key y := fun y hy => by
    rw [hadded.key, if_neg (hs.ne_brk y (List.mem_cons_of_mem _ (hs.tree.subset hy)))]
  have hht : ∀ y ∈ s.treeNodes, 0 < t.ht y := fun y hy => by
    rw [hadded.ht, if_neg (hs.ne_brk y (List.mem_cons_of_mem _ (hs.tree.subset hy))),
      hs.tree_ht y hy]
    decide
  have hbrk : 0 < t.ht s.brk := by rwa [hadded.ht, if_pos rfl]
  have hkeybrk : t.key s.brk = k := by rw [hadded.key, if_pos rfl]
  by_cases havoid : TreeAvoids s k
  · obtain ⟨root, hins, hin⟩ := rbInsertNode_eq rb (s := t) (x := s.brk) (A := T₁) (B := T₂) hbrk
      (by rw [hroot]; exact hht) (by rw [hroot]; exact htree)
      (fun a ha => by
        have haT : a ∈ s.treeNodes := by rw [htree]; exact List.mem_append_left _ ha
        rw [hkeybrk, hkey a haT]
        rcases hc.front a (hT₁.subset ha) with hlt | ⟨heq, -⟩
        · exact hlt
        · exact absurd heq (havoid a haT))
      (fun b hb => by
        have hbT : b ∈ s.treeNodes := by rw [htree]; exact List.mem_append_right _ hb
        rw [hkeybrk, hkey b hbT]
        exact hnew b (hT₂.subset hb))
    refine ⟨_, hins, rfl, ⟨T₁, T₂, htree, hT₁, hT₂, ?_⟩, fun y => ?_⟩
    · rw [if_pos ⟨rfl, havoid⟩]
      exact hin
    · by_cases hy : y = s.brk <;> simp [hflag, hy, havoid]
  · -- a tree node has the key, so the new node stays out
    obtain ⟨y, hy, hyk⟩ : ∃ y ∈ s.treeNodes, s.key y = k := by
      by_contra hnone
      exact havoid fun y hy hyk => hnone ⟨y, hy, hyk⟩
    have hsorted : (inorder t.topRbRoot.tree).Pairwise fun x y => t.key x < t.key y := by
      rw [hroot]
      refine hs.tree_sorted.imp_of_mem fun {a b} ha hb hlt => ?_
      rwa [hkey a ha, hkey b hb]
    have hnone : link t.key k s.brk t.topRbRoot.tree = none := by
      rw [← hyk, ← hkey y hy]
      exact link_eq_none _ hsorted (by rw [hroot]; exact hy)
    refine ⟨t, ?_, rfl, ⟨T₁, T₂, htree, hT₁, hT₂, ?_⟩, fun y => ?_⟩
    · rw [PidRbSkiplist.rbInsertNode, deref_eq hbrk, ok_bind,
        rbLink_eq _ _ _ _ (by rw [hroot]; exact hht), ok_bind]
      simp only [hkeybrk, hnone]
    · rw [if_neg fun hc => havoid hc.2, ← htree, treeNodes, hroot, treeNodes]
    · by_cases hy : y = s.brk <;> simp [hflag, hy, havoid]

/-- Only an insertion that finds no memory returns a failure. -/
theorem RbShape.insert (rb : KernelRbtree) (hs : RbShape s h L) (k : ℤ) (v : Option α)
    (env : NodeEnv) :
    ∃ s' r L', s.insert rb k v env = .ok (s', r) ∧ Written s h L (.insert k v env) s' L' ∧
      (r = 0 ∨ ∃ sl, s' = { s with toPidSkiplist := sl } ∧
        Unchanged s.toPidSkiplist sl env.draw.val) := by
  obtain ⟨A, B, hc⟩ := hs.exists_cut k
  obtain ⟨x, hstart, hdesc⟩ := hs.insertStart_eq hc
  rcases hs.found_or_new hc with ⟨p, C, rfl, hpk, hpT, hmatch⟩ | ⟨hnew, hmatch⟩
  · have hpL : p ∈ L := by rw [hc.split]; simp
    refine ⟨{ s with toPidSkiplist := s.toPidSkiplist.setPid p v }, 0, L, ?_,
      .replaced hpL hpk hpT, Or.inl rfl⟩
    simp only [PidRbSkiplist.insert, hs.getHeader, ok_bind, hstart, hdesc,
      hs.forward_cut hc, hmatch]
  · have hupd := update_eq s.toPidSkiplist h A
    cases henv : env.ok with
    | false =>
        obtain ⟨sl, hsl, hu⟩ := insertNew_fail s.toPidSkiplist h
          (fun j => if j < s.level then some (lastAt s.ht j h A) else none) k v henv
        refine ⟨{ s with toPidSkiplist := sl }, -ENOMEM, L, ?_, .refused henv hsl hu,
          Or.inr ⟨sl, rfl, hu⟩⟩
        simp only [PidRbSkiplist.insert, hs.getHeader, ok_bind, hstart, hdesc,
          hs.forward_cut hc, hmatch, hsl]
    | true =>
        obtain ⟨sl, hsl, hshape, hadded⟩ := (hc.split ▸ hs.toShape).insertNew_ok hupd henv k v
        -- the list is done; what is left is the tree
        set t : PidRbSkiplist α :=
          { toPidSkiplist := sl
            topRbRoot := s.topRbRoot
            inRbTree := Function.update s.inRbTree s.brk false } with ht
        have hcall : s.insert rb k v env = (if env.draw.val = pidSlMaxLevel then do
            let s' ← PidRbSkiplist.rbInsertNode rb t s.brk
            .ok (s', 0)
          else .ok (t, 0)) := by
          have htop : (env.draw.val = sl.level ∧ env.draw.val = sl.ht h) ↔
              env.draw.val = pidSlMaxLevel := by
            rw [hadded.level, hshape.header_ht]
            have hle := hs.level_le
            omega
          simp only [PidRbSkiplist.insert, hs.getHeader, ok_bind, hstart, hdesc,
            hs.forward_cut hc, hmatch, hsl, deref_eq hshape.header_pos, htop, ht]
        by_cases htop : env.draw.val = pidSlMaxLevel
        · obtain ⟨s', hins, hs', hhung⟩ := hs.rbInsertNode rb hc hnew env.draw.pos hadded
            (t := t) rfl rfl rfl
          refine ⟨s', 0, A ++ s.brk :: B, ?_, .added hc hnew henv (by rw [hs']; exact hadded)
            (by rw [htop]; exact hhung), Or.inl rfl⟩
          rw [hcall, if_pos htop, hins, ok_bind]
        · obtain ⟨T₁, T₂, htree, hT₁, hT₂⟩ := List.sublist_append_iff.mp (hc.split ▸ hs.tree)
          refine ⟨t, 0, A ++ s.brk :: B, by rw [hcall, if_neg htop], .added hc hnew henv hadded
            ⟨⟨T₁, T₂, htree, hT₁, hT₂, ?_⟩, fun y => ?_⟩, Or.inl rfl⟩
          · rw [if_neg fun hc => htop hc.1]
            exact htree
          · by_cases hy : y = s.brk <;> simp [ht, hy, htop]

theorem RbShape.remove (rb : KernelRbtree) (hs : RbShape s h L) (k : ℤ) :
    ∃ s' L', s.remove rb k = .ok s' ∧ Written s h L (.remove k) s' L' := by
  obtain ⟨A, B, hc⟩ := hs.exists_cut k
  obtain ⟨x, hfind, hdesc⟩ := hs.search hc
  rcases hs.found_or_new hc with ⟨p, C, rfl, hpk, hpT, hmatch⟩ | ⟨hnew, hmatch⟩
  · obtain ⟨sl, hsl, hshape, hrem⟩ :=
      (hc.split ▸ hs.toShape).removeNode_ok (update_eq s.toPidSkiplist h A)
    have hflag : s.inRbTree p = false := by
      rw [hs.flag p (by rw [hc.split]; simp)]
      exact decide_eq_false hpT
    refine ⟨{ s with toPidSkiplist := sl }, A ++ C, ?_, .removed hc.split hpk hpT hshape hrem⟩
    simp only [PidRbSkiplist.remove, hs.header, hfind, hdesc, ok_bind, hs.forward_cut hc,
      hmatch, hflag, hsl, Bool.false_eq_true, if_false]
  · refine ⟨s, L, ?_, .absent⟩
    simp only [PidRbSkiplist.remove, hs.header, hfind, hdesc, ok_bind, hs.forward_cut hc, hmatch]

/-- The shape of the list after a new node was put in. -/
theorem RbShape.added {s' : PidRbSkiplist α} (hs : RbShape s h L) (hc : Cut s h L k A B)
    (hnew : ∀ b ∈ B, k < s.key b)
    (hadded : Added s.toPidSkiplist s'.toPidSkiplist h A k v env.draw.val)
    (hhung : Hung s s' s.brk k env.draw.val A B) : RbShape s' h (A ++ s.brk :: B) := by
  obtain ⟨⟨T₁, T₂, htree, hT₁, hT₂, htree'⟩, hflag⟩ := hhung
  have hL := hc.split
  subst hL
  have hne : ∀ y ∈ A ++ B, y ≠ s.brk := fun y hy => hs.ne_brk y (List.mem_cons_of_mem _ hy)
  have hkey : ∀ y ∈ A ++ B, s'.key y = s.key y := fun y hy => by rw [hadded.key, if_neg (hne y hy)]
  have hbrk : s'.key s.brk = k := by rw [hadded.key, if_pos rfl]
  have hbrkT : s.brk ∉ s.treeNodes := fun hc => hne _ (hs.tree.subset hc) rfl
  have hmem : ∀ y, y ∈ s'.treeNodes ↔
      y ∈ s.treeNodes ∨ y = s.brk ∧ env.draw.val = pidSlMaxLevel ∧ TreeAvoids s k := by
    intro y
    rw [htree', htree]
    split
    · simp only [List.mem_append, List.mem_cons]
      tauto
    · tauto
  have hmemL : ∀ y ∈ A ++ B, (y ∈ s'.treeNodes ↔ y ∈ s.treeNodes) := fun y hy => by
    rw [hmem]
    have := hne y hy
    tauto
  have hAB : ∀ y, y ∈ A ++ s.brk :: B ↔ y = s.brk ∨ y ∈ A ++ B := fun y => by
    simp only [List.mem_append, List.mem_cons]
    tauto
  refine ⟨hs.toShape.added hadded env.draw.pos env.draw.le_max, ?_, fun y hy => ?_,
    fun y hy => ?_, ?_⟩
  · rw [htree']
    split
    · exact hT₁.append (hT₂.cons_cons s.brk)
    · exact hT₁.append (hT₂.cons s.brk)
  · rcases (hmem y).mp hy with hyT | ⟨rfl, htop, -⟩
    · rw [hadded.ht, if_neg (hne y (hs.tree.subset hyT)), hs.tree_ht y hyT]
    · rw [hadded.ht, if_pos rfl, htop]
  · rw [hflag]
    simp only [hmem y]
    rcases (hAB y).mp hy with rfl | hyL
    · simp [hbrkT]
    · simp [hne y hyL, hs.flag y hyL]
  · have hsorted : (A ++ B).Pairwise fun x y => s'.key x < s'.key y ∨
        s'.key x = s'.key y ∧ x ∈ s'.treeNodes ∧ y ∉ s'.treeNodes := by
      refine hs.sorted.imp_of_mem fun {x y} hx hy hxy => ?_
      rwa [hkey x hx, hkey y hy, hmemL x hx, hmemL y hy]
    apply pairwise_insert hsorted
    · intro a ha
      have haL := List.mem_append_left B ha
      -- a node with the key in front of the new one is in the tree, and keeps the new one out of it
      rw [hbrk, hkey a haL, hmemL a haL, hmem]
      rcases hc.front a ha with hlt | ⟨heq, haT⟩
      · exact Or.inl hlt
      · refine Or.inr ⟨heq, haT, ?_⟩
        rintro (hbrkT' | ⟨-, -, havoid⟩)
        · exact hbrkT hbrkT'
        · exact havoid a haT heq
    · intro b hb
      rw [hbrk, hkey b (List.mem_append_right A hb)]
      exact Or.inl (hnew b hb)

/-- A writer call keeps the shape. -/
theorem Written.rbShape {op : WriteOp α} {s' : PidRbSkiplist α} {L' : List Addr}
    (hs : RbShape s h L) (hw : Written s h L op s' L') : RbShape s' h L' := by
  cases hw with
  | @replaced k v env p hp hkey htree =>
      refine ⟨hs.toShape.of_eq rfl rfl rfl (setPid_ht _ p v) (setPid_fwd _ p v), hs.tree, ?_,
        hs.flag, ?_⟩
      · rw [setPid_ht]
        exact hs.tree_ht
      · rw [setPid_key]
        exact hs.sorted
  | added hcut hnew _ hadded hhung => exact hs.added hcut hnew hadded hhung
  | @refused k v env sl update _ _ hu =>
      refine ⟨hs.toShape.of_unchanged hu env.draw.le_max, hs.tree, ?_, hs.flag, ?_⟩
      · rw [hu.ht]
        exact hs.tree_ht
      · rw [hu.key]
        exact hs.sorted
  | absent => exact hs
  | @removed k A B p sl hL hkey htree hshape hrem =>
      have hsub : (A ++ B).Sublist L := by
        rw [hL]
        exact (List.Sublist.refl A).append (List.sublist_cons_self p B)
      refine ⟨hshape, ?_, ?_, fun x hx => hs.flag x (hsub.subset hx), ?_⟩
      · -- the node that is taken out is none of the tree's
        have htreeL := hL ▸ hs.tree
        obtain ⟨T₁, T₂, hT, hT₁, hT₂⟩ := List.sublist_append_iff.mp htreeL
        have hp₂ : p ∉ T₂ := fun hp => htree (by rw [hT]; exact List.mem_append_right _ hp)
        show s.treeNodes.Sublist (A ++ B)
        rw [hT]
        refine hT₁.append ?_
        rcases List.sublist_cons_iff.mp hT₂ with hsub₂ | ⟨T, rfl, -⟩
        · exact hsub₂
        · exact absurd List.mem_cons_self hp₂
      · rw [hrem.ht]
        exact hs.tree_ht
      · rw [hrem.key]
        exact hs.sorted.sublist hsub

/-! ## Cursors -/

/-- No pointer leads to memory that is not allocated. -/
def Closed (s : PidSkiplist α) : Prop := ∀ q j y, s.fwd q j = some y → 0 < s.ht y

theorem closed_init : Closed (PidSkiplist.init : PidSkiplist α) := by
  intro q j y hy
  by_cases hq : q = 0 <;> simp [PidSkiplist.init, PidSkiplist.fwd, hq] at hy

/-- A writer call keeps all nodes allocated, and the pointers between them. -/
theorem Written.closed {op : WriteOp α} {s' : PidRbSkiplist α} {L' : List Addr} (hs : RbShape s h L)
    (hw : Written s h L op s' L') (hclosed : Closed s.toPidSkiplist) :
    Closed s'.toPidSkiplist ∧ ∀ q, 0 < s.ht q → 0 < s'.ht q := by
  cases hw with
  | @replaced k v env p hp hkey htree =>
      refine ⟨fun q j y hy => ?_, fun q hq => by rwa [setPid_ht]⟩
      rw [setPid_fwd] at hy
      rw [setPid_ht]
      exact hclosed q j y hy
  | @added k v env A B s' hcut hnew henv hadded hhung =>
      have hpos : ∀ q, 0 < s.ht q → 0 < s'.ht q := fun q hq => by
        rwa [hadded.ht, if_neg (Nat.ne_of_lt (hs.lt_brk q hq))]
      refine ⟨fun q j y hy => ?_, hpos⟩
      rw [hadded.fwd] at hy
      split at hy
      · split at hy
        · exact hpos y (hclosed _ _ y hy)
        · simp at hy
      · split at hy
        · rw [← Option.some.inj hy, hadded.ht, if_pos rfl]
          exact env.draw.pos
        · exact hpos y (hclosed _ _ y hy)
  | @refused k v env sl update _ _ hu =>
      refine ⟨fun q j y hy => ?_, fun q hq => by rwa [hu.ht]⟩
      rw [hu.fwd] at hy
      rw [hu.ht]
      exact hclosed q j y hy
  | absent => exact ⟨hclosed, fun q hq => hq⟩
  | @removed k A B p sl hL hkey htree hshape hrem =>
      refine ⟨fun q j y hy => ?_, fun q hq => by rwa [hrem.ht]⟩
      rw [hrem.fwd] at hy
      rw [hrem.ht]
      split at hy
      · exact hclosed _ _ y hy
      · exact hclosed _ _ y hy

/-- A cursor on an allocated node can be moved. -/
theorem RbShape.iterNextRcu_some (hs : RbShape s h L) (hclosed : Closed s.toPidSkiplist)
    (hx : 0 < s.ht x) (k : ℤ) : ∃ r, s.iterNextRcu (some x) k = .ok r := by
  simp only [PidRbSkiplist.iterNextRcu, hs.header, forward_eq hx, ok_bind]
  cases hnext : s.fwd x 0 with
  | none => exact ⟨(some x, none), rfl⟩
  | some y =>
      simp only [deref_eq (hclosed x 0 y hnext), ok_bind]
      exact ⟨(some y, s.pid y), rfl⟩

/-! ## Runs -/

theorem RbShape.write (rb : KernelRbtree) (hs : RbShape s h L) (op : WriteOp α) :
    ∃ s' retval L', PidRbSkiplist.write rb s op = .ok (s', retval) ∧ Written s h L op s' L' := by
  cases op with
  | insert k v env =>
      obtain ⟨s', r, L', hins, hw, -⟩ := hs.insert rb k v env
      exact ⟨s', some r, L', by simp only [PidRbSkiplist.write, hins, ok_bind], hw⟩
  | remove k =>
      obtain ⟨s', L', hrem, hw⟩ := hs.remove rb k
      exact ⟨s', none, L', by simp only [PidRbSkiplist.write, hrem, ok_bind], hw⟩

theorem RbShape.write_run (rb : KernelRbtree) (hs : RbShape s h L)
    (hclosed : Closed s.toPidSkiplist) (ops : List (WriteOp α)) :
    ∃ s' retvals L', runOut (PidRbSkiplist.write rb) s ops = .ok (s', retvals) ∧ RbShape s' h L' ∧
      Closed s'.toPidSkiplist ∧ ∀ q, 0 < s.ht q → 0 < s'.ht q := by
  induction ops generalizing s L with
  | nil => exact ⟨s, [], L, rfl, hs, hclosed, fun _ hq => hq⟩
  | cons op ops ih =>
      obtain ⟨s₁, retval, L₁, hs₁, hw⟩ := hs.write rb op
      obtain ⟨hclosed₁, hpos₁⟩ := hw.closed hs hclosed
      obtain ⟨s', retvals, L', hrun, hs', hclosed', hpos'⟩ := ih (hw.rbShape hs) hclosed₁
      refine ⟨s', retval :: retvals, L', ?_, hs', hclosed', fun q hq => hpos' q (hpos₁ q hq)⟩
      simp only [runOut, hs₁, ok_bind, hrun]

/-- Every call returns, without a fault on the way. -/
structure Safe (rb : KernelRbtree) (s : PidRbSkiplist α) : Prop where
  insert : ∀ key pid env, ∃ r, s.insert rb key pid env = .ok r
  remove : ∀ key, ∃ r, s.remove rb key = .ok r
  lookupRcu : ∀ key, ∃ r, s.lookupRcu key = .ok r
  findGeRcu : ∀ key, ∃ r, s.findGeRcu key = .ok r
  iterNextRcu : ∀ key, ∃ r, s.iterNextRcu none key = .ok r

theorem RbShape.safe (rb : KernelRbtree) (hs : RbShape s h L) : Safe rb s where
  insert key pid env := by
    obtain ⟨s', r, -, hins, -, -⟩ := hs.insert rb key pid env
    exact ⟨(s', r), hins⟩
  remove key := by
    obtain ⟨s', -, hrem, -⟩ := hs.remove rb key
    exact ⟨s', hrem⟩
  lookupRcu := hs.lookupRcu
  findGeRcu := hs.findGeRcu
  iterNextRcu := hs.iterNextRcu_none

/-- After any sequence of `pid_rb_skiplist_insert` and `pid_rb_skiplist_remove` calls on an
initialised list every call on it is safe, that with a cursor on a node of the list also after any
later calls. -/
theorem no_bad_access (rb : KernelRbtree) (ops : List (WriteOp α)) :
    ∃ (s : PidRbSkiplist α) (retvals : List (Option ℤ)),
      runOut (PidRbSkiplist.write rb) init ops = .ok (s, retvals) ∧ Safe rb s ∧
      ∀ x ∈ s.nodes.tail, ∀ later : List (WriteOp α), ∃ s' retvals',
        runOut (PidRbSkiplist.write rb) s later = .ok (s', retvals') ∧
          ∀ key, ∃ r, s'.iterNextRcu (some x) key = .ok r := by
  obtain ⟨s, retvals, L, hrun, hs, hclosed, -⟩ := rbShape_init.write_run rb closed_init ops
  refine ⟨s, retvals, hrun, hs.safe rb, fun x hx later => ?_⟩
  rw [hs.toShape.nodes_eq, List.tail_cons] at hx
  obtain ⟨s', retvals', L', hlater, hs', hclosed', hpos⟩ := hs.write_run rb hclosed later
  exact ⟨s', retvals', hlater,
    fun key => hs'.iterNextRcu_some hclosed' (hpos x (hs.ht_pos x hx)) key⟩

/-- A key of the tree gets a second node, and the calls that follow are safe. -/
example : ((runOut (PidRbSkiplist.write .flat) (init : PidRbSkiplist ℕ)
    [.insert 5 (some 50) ⟨pidSlRandomLevel 0, true, true⟩,
      .insert 5 (some 51) ⟨pidSlRandomLevel 0, true, true⟩]).map
        fun r => r.1.nodes.tail.map r.1.key) =
    .ok [5, 5] := by
  rfl

end KernelPid.PidRbSkiplist
