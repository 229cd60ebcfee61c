import KernelPid.Lib.Runs
import Mathlib.Algebra.Group.Int.Defs
import Mathlib.Algebra.Group.Nat.Defs
import Mathlib.Data.Int.Basic
import Mathlib.Logic.Function.Basic

/-!
# The plain skip list (`skiplist/pid_skiplist.c`, `skiplist/pid_skiplist.h`)

The list is kept as the C code keeps it: nodes in memory, each with a key, a `struct pid` pointer
(`NULL` allowed) and an array of `level` forward pointers. A read the C code must not make (through
`NULL`, past the end of `forward`, of an `update[]` slot never assigned) is a `Fault`, and so is a
loop that takes more rounds than there are nodes, that is one that runs in a circle.

Memory is never handed out twice: `kzalloc` returns the address `brk`. A removed node stays in
memory with its fields until its RCU callback runs.
-/

namespace KernelPid

open Runs

/-- What the C code does where its behaviour is undefined or it never returns. -/
inductive Fault
  /-- `NULL`, or memory that is not allocated, is dereferenced. -/
  | nullDeref
  /-- `forward[i]` is accessed on a node with `level <= i`. -/
  | outOfBounds
  /-- An array slot is read before it is assigned. -/
  | uninit
  /-- A loop runs in a circle. -/
  | diverge
deriving DecidableEq, Repr

/-- Addresses of list nodes. -/
abbrev Addr := ℕ

/-- `PID_SL_MAX_LEVEL` -/
def pidSlMaxLevel : ℕ := 16

/-- `PID_SL_P` -/
def pidSlP : ℕ := 4

def ENOMEM : ℤ := 12

/-- `struct pid_sl_node`; `forward` has `level` slots. -/
structure PidSlNode (α : Type) where
  key : ℤ
  pid : Option α
  forward : ℕ → Option Addr
  level : ℕ

/-- The two allocations that make up a node. -/
inductive Block
  | node (x : Addr)
  | forward (x : Addr)
deriving DecidableEq

inductive MemEvent
  | alloc (b : Block)
  | free (b : Block)
deriving DecidableEq

/-- `struct pid_skiplist` together with the memory its pointers lead into: `rcu` holds the nodes
handed to `call_rcu` and `log` what `kzalloc`, `kcalloc` and `kfree` did. -/
structure PidSkiplist (α : Type) where
  level : ℕ
  header : Option Addr
  node : Addr → Option (PidSlNode α)
  brk : Addr
  rcu : List Addr
  log : List MemEvent

/-- A level drawn for a new node. -/
structure SlLevel where
  val : ℕ
  pos : 1 ≤ val
  le_max : val ≤ pidSlMaxLevel
deriving DecidableEq

/-- What the kernel answers while one node is made: the level drawn, and whether the two
allocations of `pid_sl_node_alloc` succeed. -/
structure NodeEnv where
  draw : SlLevel
  kzalloc : Bool
  kcalloc : Bool
deriving DecidableEq

/-- Both allocations succeed. -/
def NodeEnv.ok (env : NodeEnv) : Bool := env.kzalloc && env.kcalloc

/-! ## `pid_sl_random_level` -/

/-- The loop of `pid_sl_random_level` with `n` rounds left before `PID_SL_MAX_LEVEL`. -/
def randomLevelFrom : ℕ → BitVec 32 → ℕ
  | 0, _ => pidSlMaxLevel
  | n + 1, random =>
    if random &&& ((1 <<< pidSlP) - 1) = 0 then randomLevelFrom n (random >>> pidSlP)
    else pidSlMaxLevel - (n + 1)

theorem randomLevelFrom_le (n : ℕ) (random : BitVec 32) :
    randomLevelFrom n random ≤ pidSlMaxLevel := by
  induction n generalizing random with
  | zero => exact le_refl _
  | succ n ih =>
      simp only [randomLevelFrom]
      split
      · exact ih _
      · omega

theorem le_randomLevelFrom (n : ℕ) (random : BitVec 32) :
    pidSlMaxLevel - n ≤ randomLevelFrom n random := by
  induction n generalizing random with
  | zero => exact le_refl _
  | succ n ih =>
      simp only [randomLevelFrom]
      split
      · exact le_trans (by omega) (ih _)
      · omega

/-- `pid_sl_random_level`, on the number `prandom_u32` returned. -/
def pidSlRandomLevel (random : BitVec 32) : SlLevel where
  val := randomLevelFrom (pidSlMaxLevel - 1) random
  pos := le_trans (by decide) (le_randomLevelFrom _ random)
  le_max := randomLevelFrom_le _ random

/-- The top level is drawn, for one random number out of `2 ^ 32`. -/
example : (pidSlRandomLevel 0).val = 16 := by decide

namespace PidSkiplist

variable {α : Type}

/-! ## Memory accesses -/

/-- `*x` -/
def deref (s : PidSkiplist α) (x : Addr) : Except Fault (PidSlNode α) :=
  match s.node x with
  | some n => .ok n
  | none => .error .nullDeref

/-- `x->forward[i]` -/
def forward (s : PidSkiplist α) (x : Addr) (i : ℕ) : Except Fault (Option Addr) := do
  let n ← s.deref x
  if i < n.level then .ok (n.forward i) else .error .outOfBounds

/-- Overwrite the node at `x`. -/
def modifyNode (s : PidSkiplist α) (x : Addr) (f : PidSlNode α → PidSlNode α) : PidSkiplist α :=
  { s with node := fun a => if a = x then (s.node a).map f else s.node a }

/-- `x->forward[i] = y` -/
def setForward (s : PidSkiplist α) (x : Addr) (i : ℕ) (y : Option Addr) :
    Except Fault (PidSkiplist α) := do
  let n ← s.deref x
  if i < n.level then
    .ok (s.modifyNode x fun n => { n with forward := Function.update n.forward i y })
  else .error .outOfBounds

/-- `x->pid = pid` -/
def setPid (s : PidSkiplist α) (x : Addr) (pid : Option α) : PidSkiplist α :=
  s.modifyNode x fun n => { n with pid }

/-- `update[i]`; slots not yet assigned are `none`. -/
def slot (update : ℕ → Option Addr) (i : ℕ) : Except Fault Addr :=
  match update i with
  | some x => .ok x
  | none => .error .uninit

/-- `sl->header`, about to be dereferenced. -/
def getHeader (s : PidSkiplist α) : Except Fault Addr :=
  match s.header with
  | some h => .ok h
  | none => .error .nullDeref

/-- `pid_sl_node_alloc(level, gfp)`: a failed `kcalloc` frees the node again. -/
def nodeAlloc (s : PidSkiplist α) (level : ℕ) (env : NodeEnv) : PidSkiplist α × Option Addr :=
  if env.kzalloc then
    if env.kcalloc then
      ({ s with
          node := Function.update s.node s.brk
            (some { key := 0, pid := none, forward := fun _ => none, level })
          brk := s.brk + 1
          log := s.log ++ [.alloc (.node s.brk), .alloc (.forward s.brk)] }, some s.brk)
    else
      ({ s with
          brk := s.brk + 1
          log := s.log ++ [.alloc (.node s.brk), .free (.node s.brk)] }, none)
  else (s, none)

/-- `kfree(x->forward); kfree(x)` -/
def kfreeNode (s : PidSkiplist α) (x : Addr) : Except Fault (PidSkiplist α) := do
  let _ ← s.deref x
  .ok { s with
    node := Function.update s.node x none
    log := s.log ++ [.free (.forward x), .free (.node x)] }

/-- `INT_MIN` -/
def intMin : ℤ := -2 ^ 31

/-- `pid_skiplist_init`: the header is allocated with `__GFP_NOFAIL`. -/
def init : PidSkiplist α where
  level := 1
  header := some 0
  node := fun a =>
    if a = 0 then
      some { key := intMin, pid := none, forward := fun _ => none, level := pidSlMaxLevel }
    else none
  brk := 1
  rcu := []
  log := [.alloc (.node 0), .alloc (.forward 0)]

/-! ## Searching

All five operations search alike: from the top level down, each level is followed while the next
node's key is below the one sought. -/

/-- `while (x->forward[i] && x->forward[i]->key < key) x = x->forward[i];` -/
def walk (s : PidSkiplist α) (key : ℤ) (i : ℕ) : ℕ → Addr → Except Fault Addr
  | 0, _ => .error .diverge
  | fuel + 1, x => do
    match ← s.forward x i with
    | none => .ok x
    | some y =>
      let n ← s.deref y
      if n.key < key then walk s key i fuel y else .ok x

/-- `for (i = sl->level - 1; i >= 0; i--)` around `walk`, with `i + 1` levels to go. The last
node of each level is kept in `update`; the readers do not look at it. -/
def descend (s : PidSkiplist α) (key : ℤ) :
    ℕ → Addr → (ℕ → Option Addr) → Except Fault (Addr × (ℕ → Option Addr))
  | 0, x, update => .ok (x, update)
  | i + 1, x, update => do
    let x ← s.walk key i s.brk x
    s.descend key i x (Function.update update i (some x))

/-- `x && x->key == key` -/
def matchKey (s : PidSkiplist α) (key : ℤ) : Option Addr → Except Fault (Option Addr)
  | none => .ok none
  | some x => do
    let n ← s.deref x
    .ok (if n.key = key then some x else none)

/-! ## `pid_skiplist_insert` -/

/-- The linking loop `for (i = 0; i < lvl; i++)`, after `lvl` rounds. -/
def link (update : ℕ → Option Addr) (x : Addr) :
    ℕ → PidSkiplist α → Except Fault (PidSkiplist α)
  | 0, s => .ok s
  | i + 1, s => do
    let s ← link update x i s
    let u ← slot update i
    let y ← s.forward u i
    let s ← s.setForward x i y
    s.setForward u i (some x)

/-- `if (lvl > sl->level) for (i = sl->level; i < lvl; i++) update[i] = sl->header;` -/
def raiseUpdate (s : PidSkiplist α) (header : Addr) (update : ℕ → Option Addr) (lvl : ℕ) :
    ℕ → Option Addr :=
  if s.level < lvl then fun i => if s.level ≤ i ∧ i < lvl then some header else update i else update

/-- `if (lvl > sl->level) WRITE_ONCE(sl->level, lvl);` -/
def raiseLevel (s : PidSkiplist α) (lvl : ℕ) : PidSkiplist α :=
  { s with level := if s.level < lvl then lvl else s.level }

/-- `pid_skiplist_insert` from the level draw on: the new node, or `NULL` when there is no memory
for it. The level is raised before the node is allocated, and stays raised when that fails. -/
def insertNew (s : PidSkiplist α) (header : Addr) (update : ℕ → Option Addr) (key : ℤ)
    (pid : Option α) (env : NodeEnv) : Except Fault (PidSkiplist α × Option Addr) := do
  let lvl := env.draw.val
  let update := s.raiseUpdate header update lvl
  match (s.raiseLevel lvl).nodeAlloc lvl env with
  | (s, none) => .ok (s, none)
  | (s, some x) =>
    let s := s.modifyNode x fun n => { n with key, pid }
    let s ← link update x lvl s
    .ok (s, some x)

/-- `pid_skiplist_insert(sl, key, pid, gfp)` -/
def insert (s : PidSkiplist α) (key : ℤ) (pid : Option α) (env : NodeEnv) :
    Except Fault (PidSkiplist α × ℤ) := do
  let header ← s.getHeader
  let (x, update) ← s.descend key s.level header fun _ => none
  let x ← s.forward x 0
  match ← s.matchKey key x with
  | some x => .ok (s.setPid x pid, 0)
  | none =>
    match ← s.insertNew header update key pid env with
    | (s, some _) => .ok (s, 0)
    | (s, none) => .ok (s, -ENOMEM)

/-! ## `pid_skiplist_lookup_rcu` -/

/-- `pid_skiplist_lookup_rcu(sl, key)` -/
def lookupRcu (s : PidSkiplist α) (key : ℤ) : Except Fault (Option α) := do
  match s.header with
  | none => .ok none
  | some header =>
    let (x, _) ← s.descend key s.level header fun _ => none
    let next ← s.forward x 0
    match ← s.matchKey key next with
    | some next =>
      let n ← s.deref next
      .ok n.pid
    | none => .ok none

/-! ## `pid_skiplist_remove` -/

/-- The unlinking loop, with `n` rounds left from level `i` on; it breaks at the first level
whose last node does not lead to `x`. -/
def unlink (update : ℕ → Option Addr) (x : Addr) :
    ℕ → ℕ → PidSkiplist α → Except Fault (PidSkiplist α)
  | 0, _, s => .ok s
  | n + 1, i, s => do
    let u ← slot update i
    if (← s.forward u i) = some x then
      let y ← s.forward x i
      let s ← s.setForward u i y
      unlink update x n (i + 1) s
    else .ok s

/-- `while (new_level > 1 && !sl->header->forward[new_level - 1]) new_level--;` -/
def shrink (s : PidSkiplist α) (header : Addr) : ℕ → Except Fault ℕ
  | 0 => .ok 0
  | 1 => .ok 1
  | n + 2 => do
    match ← s.forward header (n + 1) with
    | none => s.shrink header (n + 1)
    | some _ => .ok (n + 2)

/-- `pid_skiplist_remove` once node `x` with the key is found: unlink it, lower the level and
hand it to `call_rcu`. -/
def removeNode (s : PidSkiplist α) (header : Addr) (update : ℕ → Option Addr) (x : Addr) :
    Except Fault (PidSkiplist α) := do
  let s ← unlink update x s.level 0 s
  let newLevel ← s.shrink header s.level
  .ok { s with level := newLevel, rcu := s.rcu ++ [x] }

/-- `pid_skiplist_remove(sl, key)` -/
def remove (s : PidSkiplist α) (key : ℤ) : Except Fault (PidSkiplist α) := do
  match s.header with
  | none => .ok s
  | some header =>
    let (x, update) ← s.descend key s.level header fun _ => none
    let x ← s.forward x 0
    match ← s.matchKey key x with
    | none => .ok s
    | some x => s.removeNode header update x

/-! ## `pid_skiplist_iter_next_rcu`, `pid_skiplist_find_ge_rcu` -/

/-- `pid_skiplist_iter_next_rcu(sl, &cursor, start_key)`: the new cursor and the value. -/
def iterNextRcu (s : PidSkiplist α) (cursor : Option Addr) (startKey : ℤ) :
    Except Fault (Option Addr × Option α) := do
  match s.header with
  | none => .ok (cursor, none)
  | some header =>
    match cursor with
    | none =>
      let (x, _) ← s.descend startKey s.level header fun _ => none
      match ← s.forward x 0 with
      | none => .ok (none, none)
      | some y =>
        let n ← s.deref y
        if n.key < startKey then .ok (none, none) else .ok (some y, n.pid)
    | some c =>
      match ← s.forward c 0 with
      | none => .ok (some c, none)
      | some y =>
        let n ← s.deref y
        .ok (some y, n.pid)

/-- `pid_skiplist_find_ge_rcu(sl, key)` -/
def findGeRcu (s : PidSkiplist α) (key : ℤ) : Except Fault (Option α) := do
  let header ← s.getHeader
  let (x, _) ← s.descend key s.level header fun _ => none
  match ← s.forward x 0 with
  | none => .ok none
  | some y =>
    let n ← s.deref y
    .ok n.pid

/-! ## Freeing -/

/-- `pid_sl_node_rcu_free`, the callback of node `x`. -/
def nodeRcuFree (s : PidSkiplist α) (x : Addr) : Except Fault (PidSkiplist α) := do
  let s ← s.kfreeNode x
  .ok { s with rcu := s.rcu.erase x }

/-- The loop of `pid_skiplist_destroy` over the level-0 chain. -/
def freeChain : ℕ → Option Addr → PidSkiplist α → Except Fault (PidSkiplist α)
  | 0, _, _ => .error .diverge
  | _ + 1, none, s => .ok s
  | fuel + 1, some x, s => do
    let next ← s.forward x 0
    let s ← s.kfreeNode x
    freeChain fuel next s

/-- `pid_skiplist_destroy(sl)`, after `synchronize_rcu`. -/
def destroy (s : PidSkiplist α) : Except Fault (PidSkiplist α) := do
  let header ← s.getHeader
  let node ← s.forward header 0
  let s ← freeChain (s.brk + 1) node s
  s.kfreeNode header

/-- The nodes of the level-0 chain from `x` on, as `pid_skiplist_destroy` walks them. -/
def chainFrom (s : PidSkiplist α) : ℕ → Option Addr → Except Fault (List Addr)
  | 0, _ => .error .diverge
  | _ + 1, none => .ok []
  | fuel + 1, some x => do
    let next ← s.forward x 0
    let xs ← s.chainFrom fuel next
    .ok (x :: xs)

/-- The key and value of every node of the level-0 chain, in chain order. -/
def entries (s : PidSkiplist α) : Except Fault (List (ℤ × Option α)) := do
  let header ← s.getHeader
  let xs ← s.chainFrom (s.brk + 1) (← s.forward header 0)
  xs.mapM fun x => do
    let n ← s.deref x
    .ok (n.key, n.pid)

end PidSkiplist

end KernelPid
