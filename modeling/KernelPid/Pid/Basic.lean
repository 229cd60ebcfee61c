import KernelPid.RbSkiplist.Basic

/-!
# Allocating and freeing pids (`skiplist/pid.c`, `rb-skiplist/pid.c`)

The two files are one text up to the names of the list they call, so there is one model of them,
over the list's operations `PidList`; `plainList` and `rbList` are the two builds.

Each section that runs under `pidmap_lock` is a function on the state of the kernel. An `alloc_pid`
call takes the lock once for each level, once to publish and once to roll back, and is modelled by
`allocStep`, which does one of these; `allocPid` is the call that nothing interrupts. `last_pid` and
`pid_max` are `int`s, and `pid_allocated` is an `unsigned int` whose top bit is `PIDNS_ADDING`.

The wakeups of the reaper and of the work queue are left out, and so are the reference counts, which
`Lifetime` has.
-/

namespace KernelPid

open Runs

def EAGAIN : ℤ := 11
def EINVAL : ℤ := 22
def ENOSPC : ℤ := 28

/-- `PIDNS_ADDING` -/
def pidnsAdding : BitVec 32 := 1#32 <<< 31

/-- The value of an `int` computation: the kernel is built to let these wrap around. -/
def wrapInt (x : ℤ) : ℤ := Int.bmod x (2 ^ 32)

/-- Addresses of `struct pid`s. -/
abbrev PidAddr := ℕ

/-- The list that a build of the kernel uses, as `pid.c` calls it. -/
structure PidList (σ : Type) where
  /-- `sl.header != NULL` -/
  hasHeader : σ → Bool
  lookupRcu : σ → ℤ → Except Fault (Option PidAddr)
  findGeRcu : σ → ℤ → Except Fault (Option PidAddr)
  insert : σ → ℤ → Option PidAddr → NodeEnv → Except Fault (σ × ℤ)
  remove : σ → ℤ → Except Fault σ

/-- `CONFIG_PID_SKIPLIST` -/
def plainList : PidList (PidSkiplist PidAddr) where
  hasHeader s := s.header.isSome
  lookupRcu := PidSkiplist.lookupRcu
  findGeRcu := PidSkiplist.findGeRcu
  insert := PidSkiplist.insert
  remove := PidSkiplist.remove

/-- `CONFIG_PID_RB_SKIPLIST` -/
def rbList (rb : KernelRbtree) : PidList (PidRbSkiplist PidAddr) where
  hasHeader s := s.header.isSome
  lookupRcu := PidRbSkiplist.lookupRcu
  findGeRcu := PidRbSkiplist.findGeRcu
  insert := PidRbSkiplist.insert rb
  remove := PidRbSkiplist.remove rb

/-! ## The state -/

/-- The namespaces: `level` and `parent` never change after `create_pid_namespace`. -/
structure PidNsTree (ι : Type) where
  level : ι → ℕ
  parent : ι → Option ι
  level_parent : ∀ n p, parent n = some p → level n = level p + 1
  exists_parent : ∀ n, 0 < level n → ∃ p, parent n = some p

/-- `struct pid_namespace`, the fields that change. -/
structure PidNamespace (σ : Type) where
  pidSl : σ
  lastPid : ℤ
  pidAllocated : BitVec 32

/-- `struct upid` -/
structure Upid (ι : Type) where
  nr : ℤ
  ns : ι
deriving DecidableEq

/-- `struct pid`; slots of `numbers` not yet assigned are `none`. -/
structure PidStruct (ι : Type) where
  level : ℕ
  numbers : ℕ → Option (Upid ι)

/-- What `pidmap_lock` guards, and the memory for `struct pid`s, which is never handed out twice. -/
structure Kernel (σ ι : Type) where
  ns : ι → PidNamespace σ
  pid : PidAddr → Option (PidStruct ι)
  brk : PidAddr

variable {σ ι : Type}

/-- `*pid` -/
def Kernel.derefPid (K : Kernel σ ι) (p : PidAddr) : Except Fault (PidStruct ι) :=
  match K.pid p with
  | some d => .ok d
  | none => .error .nullDeref

/-- `pid->numbers[i]` -/
def PidStruct.number (d : PidStruct ι) (i : ℕ) : Except Fault (Upid ι) :=
  match d.numbers i with
  | some u => .ok u
  | none => .error .uninit

/-- `pid->numbers[i] = u` -/
def Kernel.setNumber (K : Kernel σ ι) (p : PidAddr) (i : ℕ) (u : Upid ι) : Kernel σ ι :=
  { K with pid := fun a => if a = p
      then (K.pid a).map fun d => { d with numbers := Function.update d.numbers i (some u) }
      else K.pid a }

/-- Overwrite a namespace. -/
def Kernel.setNs [DecidableEq ι] (K : Kernel σ ι) (n : ι) (d : PidNamespace σ) : Kernel σ ι :=
  { K with ns := Function.update K.ns n d }

/-- `kmem_cache_free(ns->pid_cachep, pid)` -/
def Kernel.freePidStruct (K : Kernel σ ι) (p : PidAddr) : Kernel σ ι :=
  { K with pid := Function.update K.pid p none }

/-- A new `struct pid` for a namespace at level `level`. -/
def Kernel.newPidStruct (K : Kernel σ ι) (level : ℕ) : Kernel σ ι :=
  { K with
    pid := Function.update K.pid K.brk (some { level, numbers := fun _ => none })
    brk := K.brk + 1 }

/-- Back to the number 1 for `ns`, if it still waits for its first process. -/
def resetCursor [DecidableEq ι] (K : Kernel σ ι) (ns : ι) : Kernel σ ι :=
  if (K.ns ns).pidAllocated = pidnsAdding then K.setNs ns { K.ns ns with lastPid := 0 } else K

/-- `is_child_reaper(pid)` -/
def isChildReaper (K : Kernel σ ι) (p : PidAddr) : Except Fault Bool := do
  let d ← K.derefPid p
  let u ← d.number d.level
  .ok (u.nr = 1)

/-! ## `alloc_pid` -/

/-- What the kernel answers while one level is reserved: `pid_max`, and what making a node for each
candidate number meets with. -/
structure ReserveEnv where
  pidMax : ℤ
  node : ℤ → NodeEnv

/-- What the kernel answers during one call of `alloc_pid`, by level where it matters. -/
structure AllocEnv where
  /-- `kmem_cache_alloc` succeeds. -/
  pidAlloc : Bool
  reserve : ℕ → ReserveEnv
  /-- `pid_ns_prepare_proc` succeeds. -/
  prepareProc : Bool
  publish : ℕ → NodeEnv

/-- What `alloc_pid` returns: a `struct pid`, or `ERR_PTR(e)`, which is `NULL` for `e = 0`. -/
inductive AllocResult
  | pid (p : PidAddr)
  | err (e : ℤ)
deriving DecidableEq

/-- Where a call of `alloc_pid` stands. -/
inductive AllocPc (ι : Type)
  /-- About to reserve a number in `tmp`, at level `i`. -/
  | reserve (i : ℕ) (tmp : ι)
  | publish
  /-- At `out_free`, with the levels from `lo` on reserved. -/
  | rollback (lo : ℕ)
  | returned (r : AllocResult)
deriving DecidableEq

/-- The local variables of `alloc_pid`, and what it will meet with. -/
structure AllocCall (ι : Type) where
  ns : ι
  pid : PidAddr
  env : AllocEnv
  retval : ℤ
  pc : AllocPc ι

/-- `for (scan = from; scan < bound; scan++)`, with `n` candidates to go: the list, `retval`, and
the number taken. A candidate for which `pid_skiplist_insert` fails is passed over. -/
def scanLoop (B : PidList σ) (node : ℤ → NodeEnv) :
    ℕ → ℤ → σ → ℤ → Except Fault (σ × ℤ × Option ℤ)
  | 0, _, sl, retval => .ok (sl, retval, none)
  | n + 1, scan, sl, retval => do
    match ← B.lookupRcu sl scan with
    | some _ => scanLoop B node n (scan + 1) sl retval
    | none =>
      let (sl, retval) ← B.insert sl scan none (node scan)
      if retval = 0 then .ok (sl, retval, some scan)
      else scanLoop B node n (scan + 1) sl retval

/-- `start_pid` -/
def startPid (lastPid pidMax : ℤ) : ℤ :=
  if wrapInt (lastPid + 1) < 1 ∨ wrapInt (lastPid + 1) ≥ pidMax then 1 else wrapInt (lastPid + 1)

/-- One round of the level loop under `pidmap_lock`: the namespace, `retval` and `nr`. -/
def reserve (B : PidList σ) (env : ReserveEnv) (d : PidNamespace σ) (retval : ℤ) :
    Except Fault (PidNamespace σ × ℤ × ℤ) := do
  let start := startPid d.lastPid env.pidMax
  match ← scanLoop B env.node (env.pidMax - start).toNat start d.pidSl retval with
  | (sl, retval, some nr) => .ok ({ d with pidSl := sl, lastPid := nr }, retval, nr)
  | (sl, retval, none) =>
    match ← scanLoop B env.node (start - 1).toNat 1 sl retval with
    | (sl, retval, some nr) => .ok ({ d with pidSl := sl, lastPid := nr }, retval, nr)
    | (sl, retval, none) => .ok ({ d with pidSl := sl }, retval, -1)

/-- A loop over the levels `is` of a `struct pid` that updates the namespace of each one. -/
def eachLevel [DecidableEq ι] (d : PidStruct ι)
    (f : ℕ → ℤ → PidNamespace σ → Except Fault (PidNamespace σ)) :
    List ℕ → Kernel σ ι → Except Fault (Kernel σ ι)
  | [], K => .ok K
  | i :: is, K => do
    let u ← d.number i
    let ns ← f i u.nr (K.ns u.ns)
    eachLevel d f is (K.setNs u.ns ns)

/-- `pid_skiplist_insert(&upid->ns->pid_sl, upid->nr, pid)`, whose status is not looked at, and
`upid->ns->pid_allocated++` -/
def publishLevel (B : PidList σ) (p : PidAddr) (node : ℕ → NodeEnv) (i : ℕ) (nr : ℤ)
    (d : PidNamespace σ) : Except Fault (PidNamespace σ) := do
  let (sl, _) ← B.insert d.pidSl nr (some p) (node i)
  .ok { d with pidSl := sl, pidAllocated := d.pidAllocated + 1 }

/-- `for ( ; upid >= pid->numbers; --upid)`, from level `n` on -/
def publishLevels [DecidableEq ι] (B : PidList σ) (p : PidAddr) (d : PidStruct ι)
    (node : ℕ → NodeEnv) (n : ℕ) : Kernel σ ι → Except Fault (Kernel σ ι) :=
  eachLevel d (publishLevel B p node) (List.range (n + 1)).reverse

/-- `pid_skiplist_remove(&upid->ns->pid_sl, upid->nr)` -/
def rollbackLevel (B : PidList σ) (_ : ℕ) (nr : ℤ) (d : PidNamespace σ) :
    Except Fault (PidNamespace σ) := do
  let sl ← B.remove d.pidSl nr
  .ok { d with pidSl := sl }

/-- `while (++i <= ns->level)`, from level `lo` up to level `n` -/
def rollbackLevels [DecidableEq ι] (B : PidList σ) (d : PidStruct ι) (lo n : ℕ) :
    Kernel σ ι → Except Fault (Kernel σ ι) :=
  eachLevel d (rollbackLevel B) (List.range' lo (n + 1 - lo))

section AllocPid

variable [DecidableEq ι] (B : PidList σ) (T : PidNsTree ι)

/-- `alloc_pid(ns)` up to its level loop. -/
def allocBegin (K : Kernel σ ι) (ns : ι) (env : AllocEnv) : Kernel σ ι × AllocCall ι :=
  let c : AllocCall ι :=
    { ns, pid := K.brk, env, retval := -ENOMEM, pc := .reserve (T.level ns) ns }
  if B.hasHeader (K.ns ns).pidSl = false then (K, { c with pc := .returned (.err (-EINVAL)) })
  else if env.pidAlloc = false then (K, { c with pc := .returned (.err c.retval) })
  else (K.newPidStruct (T.level ns), c)

/-- Behind the level loop: the first process of a namespace has `pid_ns_prepare_proc` run. -/
def prepare (K : Kernel σ ι) (c : AllocCall ι) : Except Fault (AllocPc ι) := do
  let reaper ← isChildReaper K c.pid
  .ok (if reaper = true ∧ c.env.prepareProc = false then .rollback 0 else .publish)

/-- Behind the two branches for the number: `(nr == -ENOSPC) ? -EAGAIN : nr` -/
def retvalOf (nr : ℤ) : ℤ := if nr = -ENOSPC then -EAGAIN else nr

/-- The next section of an `alloc_pid` call. -/
def allocStep (K : Kernel σ ι) (c : AllocCall ι) : Except Fault (Kernel σ ι × AllocCall ι) :=
  match c.pc with
  | .reserve i tmp => do
    let (d, retval, nr) ← reserve B (c.env.reserve i) (K.ns tmp) c.retval
    let K := K.setNs tmp d
    if nr < 0 then
      .ok (K, { c with
        retval := retvalOf nr
        pc := .rollback (i + 1) })
    else
      let K := K.setNumber c.pid i { nr, ns := tmp }
      match i with
      | 0 =>
        let pc ← prepare K c
        .ok (K, { c with retval, pc })
      | i + 1 =>
        match T.parent tmp with
        | none => .error .nullDeref
        | some tmp => .ok (K, { c with retval, pc := .reserve i tmp })
  | .publish => do
    let d ← K.derefPid c.pid
    if (K.ns c.ns).pidAllocated &&& pidnsAdding = 0 then .ok (K, { c with pc := .rollback 0 })
    else
      let K ← publishLevels B c.pid d c.env.publish (T.level c.ns) K
      .ok (K, { c with pc := .returned (.pid c.pid) })
  | .rollback lo => do
    let d ← K.derefPid c.pid
    let K ← rollbackLevels B d lo (T.level c.ns) K
    let K := resetCursor K c.ns
    .ok (K.freePidStruct c.pid, { c with pc := .returned (.err c.retval) })
  | .returned _ => .ok (K, c)

/-- The level loop, with at most `n` rounds to go. -/
def reserveLevels : ℕ → Kernel σ ι → AllocCall ι → Except Fault (Kernel σ ι × AllocCall ι)
  | 0, K, c => .ok (K, c)
  | n + 1, K, c =>
    match c.pc with
    | .reserve _ _ => do
      let (K, c) ← allocStep B T K c
      reserveLevels n K c
    | _ => .ok (K, c)

/-- `disable_pid_allocation(ns)` -/
def disablePidAllocation (K : Kernel σ ι) (ns : ι) : Kernel σ ι :=
  K.setNs ns { K.ns ns with pidAllocated := (K.ns ns).pidAllocated &&& ~~~pidnsAdding }

/-- `alloc_pid(ns)`, with nothing but, if `disabled`, a `disable_pid_allocation(ns)` between its
reservations and what follows them. -/
def allocPid (K : Kernel σ ι) (ns : ι) (env : AllocEnv) (disabled : Bool) :
    Except Fault (Kernel σ ι × AllocResult) := do
  let (K, c) := allocBegin B T K ns env
  let (K, c) ← reserveLevels B T (T.level ns + 1) K c
  let K := if disabled then disablePidAllocation K ns else K
  -- publication or rollback, and the rollback after a publication that was refused
  let (K, c) ← allocStep B T K c
  let (K, c) ← allocStep B T K c
  match c.pc with
  | .returned r => .ok (K, r)
  | _ => .error .diverge

end AllocPid

/-! ## `free_pid` and the readers -/

/-- `--ns->pid_allocated`, and the reset after a fork failure of the first process. -/
def decAllocated (n : BitVec 32) : BitVec 32 :=
  if n - 1 = pidnsAdding then 0 else n - 1

/-- The body of the loop of `free_pid`. -/
def freeLevel (B : PidList σ) (_ : ℕ) (nr : ℤ) (d : PidNamespace σ) :
    Except Fault (PidNamespace σ) := do
  let sl ← B.remove d.pidSl nr
  .ok { d with pidSl := sl, pidAllocated := decAllocated d.pidAllocated }

/-- `free_pid(pid)`, up to the RCU callback. -/
def freePid [DecidableEq ι] (B : PidList σ) (K : Kernel σ ι) (p : PidAddr) :
    Except Fault (Kernel σ ι) := do
  let d ← K.derefPid p
  eachLevel d (freeLevel B) (List.range (d.level + 1)) K

/-- `find_pid_ns(nr, ns)` -/
def findPidNs (B : PidList σ) (K : Kernel σ ι) (nr : ℤ) (ns : ι) : Except Fault (Option PidAddr) :=
  B.lookupRcu (K.ns ns).pidSl nr

/-- `find_ge_pid(nr, ns)` -/
def findGePid (B : PidList σ) (K : Kernel σ ι) (nr : ℤ) (ns : ι) : Except Fault (Option PidAddr) :=
  if B.hasHeader (K.ns ns).pidSl = false then .ok none
  else B.findGeRcu (K.ns ns).pidSl nr

/-! ## The start -/

/-- Namespaces as `create_pid_namespace` makes them, with the list `sl`, and nothing allocated. -/
def Kernel.init (sl : σ) : Kernel σ ι where
  ns _ := { pidSl := sl, lastPid := 0, pidAllocated := pidnsAdding }
  pid _ := none
  brk := 0

/-! ## A namespace on its own -/

/-- The initial namespace without any others. -/
def soleNs : PidNsTree Unit where
  level _ := 0
  parent _ := none
  level_parent _ _ h := by simp at h
  exists_parent _ h := by simp at h

/-- Every request is granted, and all nodes are of level 1. -/
def grantAll (pidMax : ℤ) : AllocEnv where
  pidAlloc := true
  reserve _ := { pidMax, node := fun _ => ⟨pidSlRandomLevel 1, true, true⟩ }
  prepareProc := true
  publish _ := ⟨pidSlRandomLevel 1, true, true⟩

/-- Every request is granted, and the nodes of the even numbers are of level 2. -/
def grantMixed (pidMax : ℤ) : AllocEnv :=
  { grantAll pidMax with
    reserve := fun _ =>
      { pidMax
        node := fun nr => ⟨pidSlRandomLevel (if nr % 2 = 0 then 16 else 1), true, true⟩ } }

end KernelPid
