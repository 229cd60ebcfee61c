import KernelPid.Lib.SearchTree
import KernelPid.Skiplist.Basic

/-!
# The RB skip list (`rb-skiplist/pid_rb_skiplist.c`, `rb-skiplist/pid_rb_skiplist.h`)

The list is the plain one, and the nodes of the top level are in a search tree besides; every search
starts at the node the tree has for the key. The loops that follow and write the forward pointers
are the plain list's, line for line, and are taken over from there.

The kernel's `rbtree` is not part of the repository. `KernelRbtree` is what the list uses of it:
rebalancing after a leaf was linked, and taking a node out, both without a change to the order.
-/

namespace KernelPid

open Runs SearchTree

/-- `struct rb_root` and the colours that the `rb_node`s below it carry. -/
structure RbRoot where
  tree : BinaryTree Addr
  red : Addr → Bool

/-- `rb_insert_color` and `rb_erase` of the kernel's `rbtree`. -/
structure KernelRbtree where
  insertColor : Addr → RbRoot → RbRoot
  erase : Addr → RbRoot → RbRoot
  inorder_insertColor : ∀ x t, inorder (insertColor x t).tree = inorder t.tree
  inorder_erase : ∀ x t, (inorder t.tree).Nodup → x ∈ inorder t.tree →
    inorder (erase x t).tree = (inorder t.tree).erase x

/-- Trees that are never rotated: what the kernel's functions do to trees of one node. -/
def KernelRbtree.flat : KernelRbtree where
  insertColor x t := { t with red := Function.update t.red x false }
  erase x t := { t with tree := SearchTree.erase x t.tree }
  inorder_insertColor _ _ := rfl
  inorder_erase _ t ht _ := SearchTree.inorder_erase t.tree ht

/-- `struct pid_rb_skiplist`; `inRbTree` holds the field `in_rb_tree` of every node. -/
structure PidRbSkiplist (α : Type) extends PidSkiplist α where
  topRbRoot : RbRoot
  inRbTree : Addr → Bool

namespace PidRbSkiplist

variable {α : Type}

/-- `pid_rb_skiplist_init` -/
def init : PidRbSkiplist α where
  toPidSkiplist := PidSkiplist.init
  topRbRoot := { tree := .nil, red := fun _ => false }
  inRbTree _ := false

/-- The descent of `rb_find_le` from a tree node, with the best node so far. -/
def rbFindLeFrom (s : PidSkiplist α) (key : ℤ) : BinaryTree Addr → Addr → Except Fault Addr
  | .nil, result => .ok result
  | .node x l r, result => do
    let n ← s.deref x
    if n.key ≤ key then rbFindLeFrom s key r x else rbFindLeFrom s key l result

/-- `rb_find_le(sl, key)` -/
def rbFindLe (s : PidRbSkiplist α) (key : ℤ) : Except Fault Addr := do
  let header ← s.getHeader
  rbFindLeFrom s.toPidSkiplist key s.topRbRoot.tree header

/-- The descent of `rb_insert_node` and the `rb_link_node` at its end; `none` where it returns
because the tree has the key. -/
def rbLink (s : PidSkiplist α) (key : ℤ) (x : Addr) :
    BinaryTree Addr → Except Fault (Option (BinaryTree Addr))
  | .nil => .ok (some (.node x .nil .nil))
  | .node y l r => do
    let n ← s.deref y
    if key < n.key then
      let l' ← rbLink s key x l
      .ok (l'.map fun l' => .node y l' r)
    else if n.key < key then
      let r' ← rbLink s key x r
      .ok (r'.map fun r' => .node y l r')
    else .ok none

/-- `rb_insert_node(sl, node)` -/
def rbInsertNode (rb : KernelRbtree) (s : PidRbSkiplist α) (x : Addr) :
    Except Fault (PidRbSkiplist α) := do
  let n ← s.deref x
  match ← rbLink s.toPidSkiplist n.key x s.topRbRoot.tree with
  | none => .ok s
  | some tree => .ok { s with
      topRbRoot := rb.insertColor x { tree, red := Function.update s.topRbRoot.red x true }
      inRbTree := Function.update s.inRbTree x true }

/-- Step 1 of `pid_rb_skiplist_insert`: the tree is only asked while the top level is in use. -/
def insertStart (s : PidRbSkiplist α) (header : Addr) (key : ℤ) : Except Fault Addr := do
  let hn ← s.deref header
  if s.level = hn.level then s.rbFindLe key else .ok header

/-- `pid_rb_skiplist_insert(sl, key, pid, gfp)` -/
def insert (rb : KernelRbtree) (s : PidRbSkiplist α) (key : ℤ) (pid : Option α) (env : NodeEnv) :
    Except Fault (PidRbSkiplist α × ℤ) := do
  let header ← s.getHeader
  let x ← s.insertStart header key
  let (x, update) ← s.descend key s.level x fun _ => none
  let x ← s.forward x 0
  match ← s.matchKey key x with
  | some x => .ok ({ s with toPidSkiplist := s.toPidSkiplist.setPid x pid }, 0)
  | none =>
    match ← s.toPidSkiplist.insertNew header update key pid env with
    | (sl, none) => .ok ({ s with toPidSkiplist := sl }, -ENOMEM)
    | (sl, some x) =>
      let s : PidRbSkiplist α :=
        { toPidSkiplist := sl
          topRbRoot := s.topRbRoot
          inRbTree := Function.update s.inRbTree x false }
      let hn ← s.deref header
      if env.draw.val = s.level ∧ env.draw.val = hn.level then
        let s ← rbInsertNode rb s x
        .ok (s, 0)
      else .ok (s, 0)

/-- `pid_rb_skiplist_lookup_rcu(sl, key)` -/
def lookupRcu (s : PidRbSkiplist α) (key : ℤ) : Except Fault (Option α) := do
  match s.header with
  | none => .ok none
  | some _ =>
    let x ← s.rbFindLe key
    let (x, _) ← s.descend key s.level x fun _ => none
    let next ← s.forward x 0
    match ← s.matchKey key next with
    | some next =>
      let n ← s.deref next
      .ok n.pid
    | none => .ok none

/-- `pid_rb_skiplist_remove(sl, key)` -/
def remove (rb : KernelRbtree) (s : PidRbSkiplist α) (key : ℤ) :
    Except Fault (PidRbSkiplist α) := do
  match s.header with
  | none => .ok s
  | some header =>
    let x ← s.rbFindLe key
    let (x, update) ← s.descend key s.level x fun _ => none
    let x ← s.forward x 0
    match ← s.matchKey key x with
    | none => .ok s
    | some x =>
      let s : PidRbSkiplist α := if s.inRbTree x then
          { s with
            topRbRoot := rb.erase x s.topRbRoot
            inRbTree := Function.update s.inRbTree x false }
        else s
      let sl ← s.toPidSkiplist.removeNode header update x
      .ok { s with toPidSkiplist := sl }

/-- `pid_rb_skiplist_iter_next_rcu(sl, &cursor, start_key)` -/
def iterNextRcu (s : PidRbSkiplist α) (cursor : Option Addr) (startKey : ℤ) :
    Except Fault (Option Addr × Option α) := do
  match s.header with
  | none => .ok (cursor, none)
  | some _ =>
    match cursor with
    | none =>
      let x ← s.rbFindLe startKey
      let (x, _) ← s.descend startKey s.level x fun _ => none
      match ← s.forward x 0 with
      | none => .ok (none, none)
      | some y =>
        let n ← s.deref y
        if n.key < startKey then .ok (none, none) else .ok (some y, n.pid)
    | some c =>
      match ← s.forward c 0 with
      | none => .ok (some c, none)
      | some y =>
        let n ← s.deref y
        .ok (some y, n.pid)

/-- `pid_rb_skiplist_find_ge_rcu(sl, key)` -/
def findGeRcu (s : PidRbSkiplist α) (key : ℤ) : Except Fault (Option α) := do
  match s.header with
  | none => .ok none
  | some _ =>
    let x ← s.rbFindLe key
    let (x, _) ← s.descend key s.level x fun _ => none
    match ← s.forward x 0 with
    | none => .ok none
    | some y =>
      let n ← s.deref y
      .ok n.pid

/-- The loop of `pid_rb_skiplist_destroy`: nodes still in the tree leave it on the way. -/
def freeChain (rb : KernelRbtree) :
    ℕ → Option Addr → PidRbSkiplist α → Except Fault (PidRbSkiplist α)
  | 0, _, _ => .error .diverge
  | _ + 1, none, s => .ok s
  | fuel + 1, some x, s => do
    let next ← s.forward x 0
    let s : PidRbSkiplist α :=
      if s.inRbTree x then { s with topRbRoot := rb.erase x s.topRbRoot } else s
    let sl ← s.toPidSkiplist.kfreeNode x
    freeChain rb fuel next { s with toPidSkiplist := sl }

/-- `pid_rb_skiplist_destroy(sl)`, after `synchronize_rcu`. -/
def destroy (rb : KernelRbtree) (s : PidRbSkiplist α) : Except Fault (PidRbSkiplist α) := do
  let header ← s.getHeader
  let node ← s.forward header 0
  let s ← freeChain rb (s.brk + 1) node s
  let sl ← s.toPidSkiplist.kfreeNode header
  .ok { s with toPidSkiplist := sl }

end PidRbSkiplist

end KernelPid
