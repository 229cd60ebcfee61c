import KernelPid.Lifetime.Tree
import KernelPid.Pid.Cursor

/-!
# The namespaces of processes (`skiplist/pid_namespace.c`)

A process is in the namespace of its pid as long as it lives. Its children are made in another
one, the `pid_ns_for_children` of its `nsproxy`, which `copy_pid_ns` and `pidns_install` decide.
A file that was opened on a namespace holds it; `pidns_get` and the two like it return what such
a file holds.

`fork`, `unshare`, `setns` and the files themselves are elsewhere in the kernel. `procStep` has of
them what they ask of the functions here, of `alloc_pid` and of `free_pid`. Each process has an
`nsproxy` of its own.
-/

namespace KernelPid.Lifetime

open Runs

namespace Objects

/-- `task_active_pid_ns(task)`, of a task whose thread pid is at `p`. -/
def taskActivePidNs (K : Objects) (p : PidAddr) : Except Fault NsAddr := do
  let d ← K.derefPid p
  .ok d.ns

/-- `copy_pid_ns(flags, user_ns, old_ns)`, in a task of the namespace `active`: the namespace that
is returned, unless it is an error. `newpid` is whether `flags` has `CLONE_NEWPID`. -/
def copyPidNs (maxPidNsLevel : ℕ) (K : Objects) (newpid : Bool) (active oldNs : NsAddr)
    (made : Bool) : Except Fault (Objects × Option NsAddr) :=
  if newpid = false then do
    let K ← K.getPidNs oldNs
    .ok (K, some oldNs)
  else if active ≠ oldNs then .ok (K, none)
  else K.createPidNamespace maxPidNsLevel oldNs made

/-- The loop of `pidns_install`, from `ancestor` up to the level of the active namespace, with at
most `fuel` rounds to go. -/
def installLoop (K : Objects) (level : ℕ) : ℕ → Option NsAddr → Except Fault NsAddr
  | 0, _ => .error .diverge
  | _ + 1, none => .error .nullDeref
  | fuel + 1, some ancestor => do
    let d ← K.derefNs ancestor
    if level < d.level then K.installLoop level fuel d.parent else .ok ancestor

/-- `pidns_install(nsproxy, new)`, in a task of the namespace `active`: what
`nsproxy->pid_ns_for_children` is then, and the return value. `capable` is whether `ns_capable` says
so of both user namespaces. -/
def pidnsInstall (K : Objects) (active pidNsForChildren new : NsAddr) (capable : Bool) :
    Except Fault (Objects × NsAddr × ℤ) := do
  let d ← K.derefNs new
  if capable = false then .ok (K, pidNsForChildren, -EPERM)
  else
    let a ← K.derefNs active
    if d.level < a.level then .ok (K, pidNsForChildren, -EINVAL)
    else
      let ancestor ← K.installLoop a.level (K.nsBrk + 1) (some new)
      if ancestor ≠ active then .ok (K, pidNsForChildren, -EINVAL)
      else
        let K ← K.putPidNs pidNsForChildren
        let K ← K.getPidNs new
        .ok (K, new, 0)

/-- The loop of `pidns_get_parent`: whether it comes from `p` to `active`. -/
def getParentLoop (K : Objects) (active : NsAddr) : ℕ → Option NsAddr → Except Fault Bool
  | 0, _ => .error .diverge
  | _ + 1, none => .ok false
  | fuel + 1, some p =>
    if p = active then .ok true
    else do
      let d ← K.derefNs p
      K.getParentLoop active fuel d.parent

/-- `pidns_get_parent(ns)`, in a task of the namespace `active`: the parent, unless it
is `-EPERM`. -/
def pidnsGetParent (K : Objects) (active n : NsAddr) : Except Fault (Objects × Option NsAddr) := do
  let d ← K.derefNs n
  let seen ← K.getParentLoop active (K.nsBrk + 1) d.parent
  match seen, d.parent with
  | false, _ => .ok (K, none)
  | true, none => .error .nullDeref
  | true, some q =>
    let K ← K.getPidNs q
    .ok (K, some q)

/-- `pidns_get(task)`, of a task whose thread pid is at `p`. -/
def pidnsGet (K : Objects) (p : PidAddr) : Except Fault (Objects × NsAddr) := do
  let n ← K.taskActivePidNs p
  let K ← K.getPidNs n
  .ok (K, n)

/-- `pidns_for_children_get(task)`, of a task with an `nsproxy`. `reaper` is whether the namespace
has a `child_reaper`. -/
def pidnsForChildrenGet (K : Objects) (pidNsForChildren : NsAddr) (reaper : Bool) :
    Except Fault (Objects × Option NsAddr) := do
  let K ← K.getPidNs pidNsForChildren
  if reaper then .ok (K, some pidNsForChildren)
  else
    let K ← K.putPidNs pidNsForChildren
    .ok (K, none)

/-- `pidns_put(ns)` -/
def pidnsPut (K : Objects) (n : NsAddr) : Except Fault Objects := K.putPidNs n

end Objects

/-! ## Processes -/

/-- A process. The namespaces that its forefathers were in are recorded, and no function
looks at them. -/
structure Proc where
  pidNsForChildren : NsAddr
  forefathers : List NsAddr

/-- The processes by their pids, the references of open files to namespaces, and the rest: the
references of the callers in `world` are those of the files and of the `nsproxy`s. -/
structure ProcSys where
  world : World
  files : NsAddr → ℕ
  proc : PidAddr → Option Proc

/-- What a process does, or what is done to it. -/
inductive ProcAct
  /-- The idle task forks. -/
  | start (adding : Bool)
  | fork (p : PidAddr) (newpid made adding : Bool)
  /-- `unshare(CLONE_NEWPID)` -/
  | unshare (p : PidAddr) (made : Bool)
  /-- `setns(fd, CLONE_NEWPID)`, with a file that was opened on `n`. -/
  | setns (p : PidAddr) (n : NsAddr) (capable : Bool)
  | exit (p : PidAddr)
  /-- `/proc/<pid>/ns/pid` is opened. -/
  | openPid (p : PidAddr)
  /-- `/proc/<pid>/ns/pid_for_children` is opened. -/
  | openPidForChildren (p : PidAddr) (reaper : Bool)
  /-- `ioctl(fd, NS_GET_PARENT)`, with a file that was opened on `n`. -/
  | getParent (p : PidAddr) (n : NsAddr)
  | close (n : NsAddr)
  | getPid (p : PidAddr)
  | putPid (p : PidAddr)
  | callback (h : RcuHead)

/-- Nothing but the objects changes. -/
def ProcSys.setK (s : ProcSys) (K : Objects) : ProcSys := { s with world := { s.world with K } }

/-- A new process, in the namespace of its `nsproxy`. -/
def ProcSys.addProc (s : ProcSys) (K : Objects) (p : PidAddr) (c : Proc) : ProcSys where
  world :=
    { s.world with
      K
      nsRefs := addRef s.world.nsRefs c.pidNsForChildren
      live := p :: s.world.live }
  files := s.files
  proc := Function.update s.proc p (some c)

/-- The `nsproxy` of a process gets another namespace. -/
def ProcSys.setNsproxy (s : ProcSys) (K : Objects) (p : PidAddr) (c : Proc) (n : NsAddr) :
    ProcSys where
  world := { s.world with K, nsRefs := addRef (dropRef s.world.nsRefs c.pidNsForChildren) n }
  files := s.files
  proc := Function.update s.proc p (some { c with pidNsForChildren := n })

/-- A file is opened on a namespace. -/
def ProcSys.openFile (s : ProcSys) (K : Objects) (n : NsAddr) : ProcSys where
  world := { s.world with K, nsRefs := addRef s.world.nsRefs n }
  files := addRef s.files n
  proc := s.proc

/-- A new child of a process in `active`, whose `nsproxy` has `copied` already: `alloc_pid`, and
what is left when it fails. -/
def ProcSys.forkChild (s : ProcSys) (K : Objects) (active copied : NsAddr)
    (forefathers : List NsAddr) (adding : Bool) : Except Fault ProcSys := do
  match ← K.allocPid copied adding with
  | (K, some q) => .ok (s.addProc K q ⟨copied, active :: forefathers⟩)
  | (K, none) =>
    let K ← K.putPidNs copied
    .ok (s.setK K)

/-- One step of the process `c`, whose pid is at `p`. -/
def procStepOf (maxPidNsLevel : ℕ) (s : ProcSys) (p : PidAddr) (c : Proc) :
    ProcAct → Except Fault ProcSys
  | .fork _ newpid made adding => do
    let active ← s.world.K.taskActivePidNs p
    match ← s.world.K.copyPidNs maxPidNsLevel newpid active c.pidNsForChildren made with
    | (K, none) => .ok (s.setK K)
    | (K, some n) => s.forkChild K active n c.forefathers adding
  | .unshare _ made => do
    let active ← s.world.K.taskActivePidNs p
    match ← s.world.K.copyPidNs maxPidNsLevel true active c.pidNsForChildren made with
    | (K, none) => .ok (s.setK K)
    | (K, some n) =>
      -- the old `nsproxy` goes
      let K ← K.putPidNs c.pidNsForChildren
      .ok (s.setNsproxy K p c n)
  | .setns _ n capable =>
    if 0 < s.files n then do
      let active ← s.world.K.taskActivePidNs p
      -- into a copy of the `nsproxy`, which then takes its place, unless there is an error
      let K ← s.world.K.getPidNs c.pidNsForChildren
      let (K, installed, _) ← K.pidnsInstall active c.pidNsForChildren n capable
      let K ← K.putPidNs c.pidNsForChildren
      .ok (s.setNsproxy K p c installed)
    else .ok s
  | .exit _ => do
    let K ← s.world.K.putPidNs c.pidNsForChildren
    let world : World :=
      { s.world with
        K := K.freePid p
        nsRefs := dropRef s.world.nsRefs c.pidNsForChildren
        live := s.world.live.erase p }
    .ok { s with world, proc := Function.update s.proc p none }
  | .openPid _ => do
    let (K, n) ← s.world.K.pidnsGet p
    .ok (s.openFile K n)
  | .openPidForChildren _ reaper => do
    match ← s.world.K.pidnsForChildrenGet c.pidNsForChildren reaper with
    | (K, some n) => .ok (s.openFile K n)
    | (K, none) => .ok (s.setK K)
  | .getParent _ n =>
    if 0 < s.files n then do
      let active ← s.world.K.taskActivePidNs p
      match ← s.world.K.pidnsGetParent active n with
      | (K, some q) => .ok (s.openFile K q)
      | (K, none) => .ok (s.setK K)
    else .ok s
  | _ => .ok s

/-- One step. -/
def procStep (maxPidNsLevel : ℕ) (s : ProcSys) (a : ProcAct) : Except Fault ProcSys :=
  match a with
  | .start adding => do
    -- the idle task is in `init_pid_ns`, and so is the `nsproxy` that it hands on
    let K ← s.world.K.getPidNs initPidNs
    s.forkChild K initPidNs initPidNs [] adding
  | .fork p .. | .unshare p _ | .setns p .. | .exit p | .openPid p | .openPidForChildren p _
  | .getParent p _ =>
    match s.proc p with
    | none => .ok s
    | some c => procStepOf maxPidNsLevel s p c a
  | .close n =>
    if 0 < s.files n then do
      let K ← s.world.K.pidnsPut n
      let world : World := { s.world with K, nsRefs := dropRef s.world.nsRefs n }
      .ok { s with world, files := dropRef s.files n }
    else .ok s
  | .getPid p => do
    let world ← step maxPidNsLevel s.world (.getPid p)
    .ok { s with world }
  | .putPid p => do
    let world ← step maxPidNsLevel s.world (.putPid p)
    .ok { s with world }
  | .callback h => do
    let world ← step maxPidNsLevel s.world (.callback h)
    .ok { s with world }

/-- There is only the idle task. -/
def ProcSys.init : ProcSys where
  world := .init
  files _ := 0
  proc _ := none

end KernelPid.Lifetime
