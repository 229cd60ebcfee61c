import KernelPid.Lib.Runs
import Mathlib.Logic.Function.Basic

/-!
# Reference counts and grace periods (`skiplist/pid.c`, `skiplist/pid_namespace.c`)

When `struct pid`s and `struct pid_namespace`s come and go: the counts, the functions that take and
drop references, and the callbacks that `call_rcu` has been given. Of `alloc_pid` and `free_pid`
there is only what they do to references; what they do to the lists is in `Pid`, and of
`pid_skiplist_destroy` there is only its `synchronize_rcu`.

`syncs` records the context that each `synchronize_rcu` was executed in. It waits for a grace
period, so it must not be called from an RCU callback. Counts are not bounded here, while those of a
`refcount_t` saturate.
-/

namespace KernelPid.Lifetime

open Runs

/-- Addresses of `struct pid`s. -/
abbrev PidAddr := ℕ

/-- Addresses of `struct pid_namespace`s. -/
abbrev NsAddr := ℕ

/-- `&init_pid_ns` -/
def initPidNs : NsAddr := 0

/-- What the code does where its behaviour is undefined or it never returns. -/
inductive Fault
  /-- `NULL`, or memory that is not allocated, is dereferenced. -/
  | nullDeref
  /-- A count of 0 is decremented. -/
  | underflow
  /-- A loop runs in a circle. -/
  | diverge
deriving DecidableEq

/-- What the code runs in. -/
inductive Context
  | process
  | rcuCallback
deriving DecidableEq

/-- `struct pid_namespace`: `kref`, `level` and `parent`. -/
structure NsObject where
  kref : ℕ
  level : ℕ
  parent : Option NsAddr

/-- `struct pid`: `count`, and the namespace of its top level, `numbers[level].ns`. -/
structure PidObject where
  count : ℕ
  ns : NsAddr

/-- What `call_rcu` is given. -/
inductive RcuHead
  | delayedPutPid (p : PidAddr)
  | delayedFreePidns (n : NsAddr)
deriving DecidableEq

/-- The objects in memory, the callbacks that wait for their grace period, and the context. Memory
is never handed out twice. -/
structure Objects where
  ns : NsAddr → Option NsObject
  nsBrk : NsAddr
  pid : PidAddr → Option PidObject
  pidBrk : PidAddr
  rcu : List RcuHead
  context : Context
  syncs : List Context

namespace Objects

/-- `*ns` -/
def derefNs (K : Objects) (n : NsAddr) : Except Fault NsObject :=
  match K.ns n with
  | some d => .ok d
  | none => .error .nullDeref

/-- `*pid` -/
def derefPid (K : Objects) (p : PidAddr) : Except Fault PidObject :=
  match K.pid p with
  | some d => .ok d
  | none => .error .nullDeref

def setNs (K : Objects) (n : NsAddr) (d : Option NsObject) : Objects :=
  { K with ns := Function.update K.ns n d }

def setPid (K : Objects) (p : PidAddr) (d : Option PidObject) : Objects :=
  { K with pid := Function.update K.pid p d }

/-- `kmem_cache_zalloc(pid_ns_cachep, GFP_KERNEL)`, filled in. -/
def newNs (K : Objects) (d : NsObject) : Objects :=
  { K with ns := Function.update K.ns K.nsBrk (some d), nsBrk := K.nsBrk + 1 }

/-- `kmem_cache_alloc(ns->pid_cachep, GFP_KERNEL)`, filled in. -/
def newPid (K : Objects) (d : PidObject) : Objects :=
  { K with pid := Function.update K.pid K.pidBrk (some d), pidBrk := K.pidBrk + 1 }

def callRcu (K : Objects) (h : RcuHead) : Objects :=
  { K with rcu := h :: K.rcu }

def synchronizeRcu (K : Objects) : Objects :=
  { K with syncs := K.context :: K.syncs }

/-! ## `pid_namespace.c` -/

/-- `pid_skiplist_destroy(&ns->pid_sl)` -/
def pidSkiplistDestroy (K : Objects) : Objects := K.synchronizeRcu

/-- `get_pid_ns(ns)` -/
def getPidNs (K : Objects) (n : NsAddr) : Except Fault Objects :=
  if n = initPidNs then .ok K
  else do
    let d ← K.derefNs n
    .ok (K.setNs n (some { d with kref := d.kref + 1 }))

/-- `destroy_pid_namespace(ns)` -/
def destroyPidNamespace (K : Objects) (n : NsAddr) : Objects :=
  K.pidSkiplistDestroy.callRcu (.delayedFreePidns n)

/-- `free_pid_ns(&ns->kref)` -/
def freePidNs (K : Objects) (n : NsAddr) : Objects := K.destroyPidNamespace n

/-- `kref_put(&ns->kref, free_pid_ns)`, and whether it was the last reference. -/
def krefPut (K : Objects) (n : NsAddr) : Except Fault (Objects × Bool) := do
  let d ← K.derefNs n
  match d.kref with
  | 0 => .error .underflow
  | 1 => .ok ((K.setNs n (some { d with kref := 0 })).freePidNs n, true)
  | k + 2 => .ok (K.setNs n (some { d with kref := k + 1 }), false)

/-- The loop of `put_pid_ns`, with at most `fuel` rounds to go. -/
def putPidNsLoop : ℕ → Option NsAddr → Objects → Except Fault Objects
  | 0, _, _ => .error .diverge
  | _ + 1, none, _ => .error .nullDeref
  | fuel + 1, some n, K =>
    if n = initPidNs then .ok K
    else do
      let d ← K.derefNs n
      let (K, last) ← K.krefPut n
      if last then putPidNsLoop fuel d.parent K else .ok K

/-- `put_pid_ns(ns)` -/
def putPidNs (K : Objects) (n : NsAddr) : Except Fault Objects :=
  putPidNsLoop (K.nsBrk + 1) (some n) K

/-- `create_pid_namespace(user_ns, parent)`, from the check of the level on, with memory for
the namespace: the new namespace, if there is one. Without `made`, `create_pid_cachep` or
`ns_alloc_inum` fails, and the list that was just initialised is destroyed. -/
def createPidNamespace (maxPidNsLevel : ℕ) (K : Objects) (parent : NsAddr) (made : Bool) :
    Except Fault (Objects × Option NsAddr) := do
  let d ← K.derefNs parent
  if maxPidNsLevel < d.level + 1 then .ok (K, none)
  else if made = false then .ok (K.pidSkiplistDestroy, none)
  else
    let K ← K.getPidNs parent
    .ok (K.newNs { kref := 1, level := d.level + 1, parent := some parent }, some K.nsBrk)

/-- `delayed_free_pidns(&ns->rcu)` -/
def delayedFreePidns (K : Objects) (n : NsAddr) : Objects := K.setNs n none

/-! ## `pid.c` -/

/-- `get_pid(pid)` -/
def getPid (K : Objects) (p : PidAddr) : Except Fault Objects := do
  let d ← K.derefPid p
  .ok (K.setPid p (some { d with count := d.count + 1 }))

/-- `put_pid(pid)` -/
def putPid (K : Objects) (p : PidAddr) : Except Fault Objects := do
  let d ← K.derefPid p
  match d.count with
  | 0 => .error .underflow
  | 1 => (K.setPid p none).putPidNs d.ns
  | k + 2 => .ok (K.setPid p (some { d with count := k + 1 }))

/-- `delayed_put_pid(&pid->rcu)` -/
def delayedPutPid (K : Objects) (p : PidAddr) : Except Fault Objects := K.putPid p

/-- `alloc_pid(ns)` behind its level loop: the new pid, unless the namespace takes no more
processes. -/
def allocPid (K : Objects) (n : NsAddr) (adding : Bool) :
    Except Fault (Objects × Option PidAddr) := do
  let K ← K.getPidNs n
  if adding then .ok (K.newPid { count := 1, ns := n }, some K.pidBrk)
  else
    let K ← K.putPidNs n
    .ok (K, none)

/-- `free_pid(pid)` -/
def freePid (K : Objects) (p : PidAddr) : Objects := K.callRcu (.delayedPutPid p)

/-- The callback that was given to `call_rcu` as `h` is executed. -/
def rcuCallback (K : Objects) (h : RcuHead) : Except Fault Objects := do
  let K : Objects := { K with rcu := K.rcu.erase h, context := .rcuCallback }
  let K ← match h with
    | .delayedPutPid p => K.delayedPutPid p
    | .delayedFreePidns n => .ok (K.delayedFreePidns n)
  .ok { K with context := .process }

end Objects

/-! ## The callers -/

/-- The objects, the references that the callers hold, and the pids that were allocated and
not freed. -/
structure World where
  K : Objects
  nsRefs : NsAddr → ℕ
  pidRefs : PidAddr → ℕ
  live : List PidAddr

/-- A call, or the execution of a callback. -/
inductive Act
  | createPidNamespace (parent : NsAddr) (made : Bool)
  | getPidNs (n : NsAddr)
  | putPidNs (n : NsAddr)
  | allocPid (n : NsAddr) (adding : Bool)
  | freePid (p : PidAddr)
  | getPid (p : PidAddr)
  | putPid (p : PidAddr)
  | callback (h : RcuHead)

/-- One more reference to `n`. -/
def addRef (refs : ℕ → ℕ) (n : ℕ) : ℕ → ℕ := Function.update refs n (refs n + 1)

/-- One reference to `n` less. -/
def dropRef (refs : ℕ → ℕ) (n : ℕ) : ℕ → ℕ := Function.update refs n (refs n - 1)

/-- Somebody holds a reference to the namespace `n`. -/
def Objects.IsUsed (K : Objects) (n : NsAddr) : Prop := ∃ d ∈ K.ns n, 0 < d.kref

instance decidableIsUsed (K : Objects) (n : NsAddr) : Decidable (K.IsUsed n) :=
  inferInstanceAs (Decidable (∃ d ∈ K.ns n, 0 < d.kref))

/-- One step. Callers use namespaces and pids that exist, and drop references that they hold;
anything else is no step. -/
def step (maxPidNsLevel : ℕ) (s : World) : Act → Except Fault World
  | .createPidNamespace parent made =>
    if s.K.IsUsed parent then do
      match ← s.K.createPidNamespace maxPidNsLevel parent made with
      | (K, some n) => .ok { s with K, nsRefs := addRef s.nsRefs n }
      | (K, none) => .ok { s with K }
    else .ok s
  | .getPidNs n =>
    if s.K.IsUsed n then do
      let K ← s.K.getPidNs n
      .ok { s with K, nsRefs := addRef s.nsRefs n }
    else .ok s
  | .putPidNs n =>
    if 0 < s.nsRefs n then do
      let K ← s.K.putPidNs n
      .ok { s with K, nsRefs := dropRef s.nsRefs n }
    else .ok s
  | .allocPid n adding =>
    if s.K.IsUsed n then do
      match ← s.K.allocPid n adding with
      | (K, some p) => .ok { s with K, live := p :: s.live }
      | (K, none) => .ok { s with K }
    else .ok s
  | .freePid p =>
    if p ∈ s.live then .ok { s with K := s.K.freePid p, live := s.live.erase p } else .ok s
  | .getPid p =>
    if (s.K.pid p).isSome then do
      let K ← s.K.getPid p
      .ok { s with K, pidRefs := addRef s.pidRefs p }
    else .ok s
  | .putPid p =>
    if 0 < s.pidRefs p then do
      let K ← s.K.putPid p
      .ok { s with K, pidRefs := dropRef s.pidRefs p }
    else .ok s
  | .callback h =>
    if h ∈ s.K.rcu then do
      let K ← s.K.rcuCallback h
      .ok { s with K }
    else .ok s

/-- There is only `init_pid_ns`. -/
def World.init : World where
  K :=
    { ns :=
        Function.update (fun _ => none) initPidNs (some { kref := 2, level := 0, parent := none })
      nsBrk := 1
      pid := fun _ => none
      pidBrk := 0
      rcu := []
      context := .process
      syncs := [] }
  nsRefs _ := 0
  pidRefs _ := 0
  live := []

end KernelPid.Lifetime
