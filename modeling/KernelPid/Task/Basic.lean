import KernelPid.Lib.IntrusiveList
import KernelPid.Pid.Numbers

/-!
# Tasks and their pids (`skiplist/pid.c`, `rb-skiplist/pid.c`)

A task has a pid of each type, and is on the list of tasks of a pid for each type that it was
attached with. `__change_pid` frees a pid when its last list has become empty. All of this
runs under `tasklist_lock`, while the sections of `Sys` that belong to calls of `alloc_pid`
run in between.

The pids that a task is given, and its `signal`, are set by code outside these files, which is the
label's business, as are the lists' operations: adding a node that is on a list already, or taking
off one that is on none, is a fault.
-/

namespace KernelPid

open Runs PidSkiplist IntrusiveList

/-- `enum pid_type` -/
inductive PidType
  | pid
  | tgid
  | pgid
  | sid
deriving DecidableEq

/-- `for (tmp = PIDTYPE_MAX; --tmp >= 0; )` -/
def PidType.fromMax : List PidType := [.sid, .pgid, .tgid, .pid]

/-- Addresses of `struct task_struct`s. -/
abbrev TaskAddr := ℕ

/-- Addresses of `struct signal_struct`s. -/
abbrev SignalAddr := ℕ

/-- What the tasks and the `tasks` of the `struct pid`s hold. -/
structure Tasks where
  /-- `task->thread_pid` -/
  threadPid : TaskAddr → Option PidAddr
  /-- `task->signal` -/
  signal : TaskAddr → SignalAddr
  /-- `signal->pids` -/
  pids : SignalAddr → PidType → Option PidAddr
  /-- `task->pid_links[type]` and `pid->tasks[type]` -/
  links : PidType → Lists PidAddr TaskAddr

/-- No task has a pid. -/
def Tasks.init : Tasks where
  threadPid _ := none
  signal task := task
  pids _ _ := none
  links _ := Lists.empty

/-- `*task_pid_ptr(task, type)` -/
def Tasks.taskPid (t : Tasks) (task : TaskAddr) : PidType → Option PidAddr
  | .pid => t.threadPid task
  | type => t.pids (t.signal task) type

/-- `*task_pid_ptr(task, type) = pid` -/
def Tasks.setTaskPid (t : Tasks) (task : TaskAddr) (type : PidType) (pid : Option PidAddr) :
    Tasks :=
  match type with
  | .pid => { t with threadPid := Function.update t.threadPid task pid }
  | type =>
    let pids := Function.update (t.pids (t.signal task)) type pid
    { t with pids := Function.update t.pids (t.signal task) pids }

def Tasks.setLinks (t : Tasks) (type : PidType) (L : Lists PidAddr TaskAddr) : Tasks :=
  { t with links := Function.update t.links type L }

/-- `hlist_empty(&pid->tasks[tmp])` for every `tmp` -/
def Tasks.unused (t : Tasks) (p : PidAddr) : Bool :=
  PidType.fromMax.all fun tmp => ((t.links tmp).members p).isEmpty

/-- `attach_pid(task, type)` -/
def attachPid (t : Tasks) (task : TaskAddr) (type : PidType) : Except Fault Tasks :=
  match t.taskPid task type with
  | none => .error .nullDeref
  | some p =>
    if h : (t.links type).head task = none then
      .ok (t.setLinks type ((t.links type).addHead p task h))
    else .error .nullDeref

/-- `transfer_pid(old, new, type)` -/
def transferPid (t : Tasks) (old new : TaskAddr) (type : PidType) : Except Fault Tasks :=
  let t := if type = .pid then
    { t with threadPid := Function.update t.threadPid new (t.threadPid old) } else t
  if (t.links type).head old = none then .error .nullDeref
  else if h : (t.links type).head new = none then
    .ok (t.setLinks type ((t.links type).replace old new h))
  else .error .nullDeref

/-- `pid_task(pid, type)` -/
def pidTask (t : Tasks) (pid : Option PidAddr) (type : PidType) : Option TaskAddr :=
  match pid with
  | none => none
  | some p => ((t.links type).members p).head?

/-- `do_each_pid_task(pid, type, task)` up to `while_each_pid_task`: the tasks that it
goes through. -/
def eachPidTask (t : Tasks) (pid : Option PidAddr) (type : PidType) : List TaskAddr :=
  match pid with
  | none => []
  | some p => if type = .pid then ((t.links type).members p).take 1 else (t.links type).members p

variable {σ ι : Type}

/-- The pids with the calls of `alloc_pid`, and the tasks. -/
structure TaskSys (σ ι : Type) where
  sys : Sys σ ι
  tasks : Tasks

/-- One section under `pidmap_lock` of a call of `alloc_pid` or of the like, one under
`tasklist_lock`, or a write of a task's `signal` or of a pid of a task's. -/
inductive TaskAct (ι : Type)
  | pids (a : Act ι)
  | setSignal (task : TaskAddr) (sig : SignalAddr)
  | setTaskPid (task : TaskAddr) (type : PidType) (pid : Option PidAddr)
  | attachPid (task : TaskAddr) (type : PidType)
  | detachPid (task : TaskAddr) (type : PidType)
  | changePid (task : TaskAddr) (type : PidType) (pid : PidAddr)
  | transferPid (old new : TaskAddr) (type : PidType)

/-- No call has run. -/
def TaskSys.init (sl : σ) : TaskSys σ ι where
  sys := Sys.init sl
  tasks := Tasks.init

section Steps

variable [DecidableEq ι] (B : PidList σ) (T : PidNsTree ι)

/-- `__change_pid(task, type, new)` -/
def changePidTo (s : TaskSys σ ι) (task : TaskAddr) (type : PidType) (new : Option PidAddr) :
    Except Fault (TaskSys σ ι) :=
  let pid := s.tasks.taskPid task type
  if ((s.tasks.links type).head task) = none then .error .nullDeref
  else
    let t := (s.tasks.setLinks type ((s.tasks.links type).del task)).setTaskPid task type new
    match pid with
    | none => .error .nullDeref
    | some p =>
      if t.unused p then do
        let K ← freePid B s.sys.K p
        .ok { sys := { s.sys with K, live := s.sys.live.erase p }, tasks := t }
      else .ok { s with tasks := t }

/-- `detach_pid(task, type)` -/
def detachPid (s : TaskSys σ ι) (task : TaskAddr) (type : PidType) : Except Fault (TaskSys σ ι) :=
  changePidTo B s task type none

/-- `change_pid(task, type, pid)` -/
def changePid (s : TaskSys σ ι) (task : TaskAddr) (type : PidType) (pid : PidAddr) :
    Except Fault (TaskSys σ ι) := do
  let s ← changePidTo B s task type (some pid)
  let t ← attachPid s.tasks task type
  .ok { s with tasks := t }

def taskStep (s : TaskSys σ ι) : TaskAct ι → Except Fault (TaskSys σ ι)
  | .pids a => do
    let sys ← sysStep B T s.sys a
    .ok { s with sys }
  | .setSignal task sig =>
    .ok { s with tasks := { s.tasks with signal := Function.update s.tasks.signal task sig } }
  | .setTaskPid task type pid => .ok { s with tasks := s.tasks.setTaskPid task type pid }
  | .attachPid task type => do
    let t ← attachPid s.tasks task type
    .ok { s with tasks := t }
  | .detachPid task type => detachPid B s task type
  | .changePid task type pid => changePid B s task type pid
  | .transferPid old new type => do
    let t ← transferPid s.tasks old new type
    .ok { s with tasks := t }

end Steps

/-! ## What the callers keep to -/

/-- `task_pid_ptr` is one address for both tasks. -/
def Tasks.Shares (t : Tasks) (type : PidType) (task task' : TaskAddr) : Prop :=
  match type with
  | .pid => task' = task
  | _ => t.signal task' = t.signal task

instance decidableShares (t : Tasks) (task task' : TaskAddr) :
    ∀ type, Decidable (t.Shares type task task')
  | .pid => Nat.decEq task' task
  | .tgid | .pgid | .sid => Nat.decEq (t.signal task') (t.signal task)

/-- No task is attached to `p` through the pointer of `task`. -/
def Tasks.NoneAttached (t : Tasks) (p : PidAddr) (type : PidType) (task : TaskAddr) : Prop :=
  ∀ task' ∈ (t.links type).members p, ¬ t.Shares type task task'

/-- What the callers of these functions see to: one task of a thread group is attached for all types
but `PIDTYPE_PID`, and its pid does not change while it is; a task is attached to a published pid,
and to another one than before when it changes its pid; and a pid is freed by hand only as long as
no task was attached to it. -/
def CallerRule (s : TaskSys σ ι) : TaskAct ι → Prop
  | .pids (.free p) => p ∈ s.sys.live → s.tasks.unused p = true
  | .pids _ => True
  | .setSignal task _ => ∀ type ∈ PidType.fromMax, type ≠ .pid →
      (s.tasks.links type).head task = none
  | .setTaskPid task type _ => ∀ p ∈ s.tasks.taskPid task type, s.tasks.NoneAttached p type task
  | .attachPid task type => (∃ p ∈ s.sys.live, s.tasks.taskPid task type = some p ∧
      s.tasks.NoneAttached p type task) ∧ (s.tasks.links type).head task = none
  | .detachPid task type => (s.tasks.links type).head task ≠ none
  | .changePid task type pid => (s.tasks.links type).head task ≠ none ∧ pid ∈ s.sys.live ∧
      s.tasks.taskPid task type ≠ some pid
  | .transferPid old new type => (s.tasks.links type).head old ≠ none ∧
      (s.tasks.links type).head new = none ∧ (type = .pid ∨ s.tasks.signal old = s.tasks.signal new)

instance decidableCallerRule (s : TaskSys σ ι) : ∀ a, Decidable (CallerRule s a)
  | .pids (.free p) => inferInstanceAs (Decidable (p ∈ s.sys.live → s.tasks.unused p = true))
  | .pids (.start _ _ _) | .pids (.step _) | .pids (.disable _) | .pids (.writeLastPid _ _) =>
    instDecidableTrue
  | .setSignal task _ => inferInstanceAs (Decidable (∀ type ∈ PidType.fromMax, type ≠ .pid →
      (s.tasks.links type).head task = none))
  | .setTaskPid task type _ => inferInstanceAs (Decidable (∀ p ∈ s.tasks.taskPid task type,
      ∀ task' ∈ (s.tasks.links type).members p, ¬ s.tasks.Shares type task task'))
  | .attachPid task type => inferInstanceAs (Decidable ((∃ p ∈ s.sys.live,
      s.tasks.taskPid task type = some p ∧
      ∀ task' ∈ (s.tasks.links type).members p, ¬ s.tasks.Shares type task task') ∧
      (s.tasks.links type).head task = none))
  | .detachPid task type => inferInstanceAs (Decidable ((s.tasks.links type).head task ≠ none))
  | .changePid task type pid => inferInstanceAs (Decidable ((s.tasks.links type).head task ≠ none ∧
      pid ∈ s.sys.live ∧ s.tasks.taskPid task type ≠ some pid))
  | .transferPid old new type => inferInstanceAs (Decidable ((s.tasks.links type).head old ≠ none ∧
      (s.tasks.links type).head new = none ∧
      (type = .pid ∨ s.tasks.signal old = s.tasks.signal new)))

/-! ## The readers -/

section Readers

variable [DecidableEq ι] (B : PidList σ) (T : PidNsTree ι)

/-- `find_task_by_pid_ns(nr, ns)` -/
def findTaskByPidNs (s : TaskSys σ ι) (nr : ℤ) (ns : ι) : Except Fault (Option TaskAddr) := do
  let pid ← findPidNs B s.sys.K nr ns
  .ok (pidTask s.tasks pid .pid)

/-- `__task_pid_nr_ns(task, type, ns)`, with `pid_alive(task)` for a `thread_pid` -/
def taskPidNrNs (s : TaskSys σ ι) (task : TaskAddr) (type : PidType) (ns : ι) : Except Fault ℤ :=
  if s.tasks.threadPid task = none then .ok 0
  else pidNrNs T s.sys.K (s.tasks.taskPid task type) ns

/-- `task_active_pid_ns(tsk)` -/
def taskActivePidNs (s : TaskSys σ ι) (tsk : TaskAddr) : Except Fault (Option ι) :=
  nsOfPid s.sys.K (s.tasks.threadPid tsk)

end Readers

end KernelPid
