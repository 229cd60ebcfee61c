import KernelPid.Pid.Zap
import KernelPid.Task.Attached

/-!
# Finding tasks by number (`find_task_by_pid_ns`, `__task_pid_nr_ns`, `do_each_pid_task`)

In a run that keeps the table and whose callers keep to the rules, the number that a task has in
a namespace leads back to it, for each type of pid (`find_task_round_trip`, `each_pid_task_iff`),
and the kill loop of `zap_pid_ns_processes` reaches the tasks behind the pids that it visits
(`zap_kills_iff`).
-/

namespace KernelPid

open Runs PidSkiplist IntrusiveList

variable {ι : Type} [DecidableEq ι] {T : PidNsTree ι} {s : TaskSys (PidSkiplist PidAddr) ι}
  {S : MapSys ι}
  {task : TaskAddr} {type : PidType} {p : PidAddr} {n : ι} {nr : ℤ}

/-- Every run that keeps to the rules, and whose reservations all come to a free number before any
reserved one, keeps the invariant and the table. -/
theorem task_run_table (T : PidNsTree ι) (as : List (TaskAct ι))
    (hrule : Meets (taskStep plainList T) (fun s a => CallerRule s a ∧ OnPids FreshStep s a)
      (TaskSys.init init) as) :
    ∃ s S, run (taskStep plainList T) (TaskSys.init init) as = .ok s ∧ TaskInv T s S ∧ Table S := by
  obtain ⟨s, hrun, ⟨S₀, h⟩, bs, hbs, hmeets⟩ :=
    task_run (C := FreshStep) (fun _ _ => trivial) T as hrule
  have hfresh : Meets (sysStep plainList T) FreshStep (Sys.init init) bs :=
    hmeets.imp_of_invariant (I := fun _ => True)
      (fun s b _ hb => ⟨hb.2, fun _ _ => trivial⟩) trivial
  obtain ⟨s', S, hbs', hs, hS, hT⟩ := plain_run_table T bs hfresh
  obtain rfl : s' = s.sys := Except.ok.inj (hbs'.symm.trans hbs)
  exact ⟨s, S, hrun, ⟨hs, hS, h.attached⟩, hT⟩

/-! ## Numbers of attached tasks -/

/-- An attached task of a live process has the number of the pid that it is attached to. -/
theorem Attached.taskPidNrNs (h : Attached s.tasks s.sys.live)
    (hatt : s.tasks.IsAttached task type p) (halive : s.tasks.threadPid task ≠ none) :
    KernelPid.taskPidNrNs T s task type n = pidNrNs T s.sys.K (some p) n := by
  simp only [KernelPid.taskPidNrNs, if_neg halive, h.taskPid hatt]

omit [DecidableEq ι] in
theorem Attached.threadPid_ne_none (h : Attached s.tasks s.sys.live)
    (hatt : s.tasks.IsAttached task .pid p) : s.tasks.threadPid task ≠ none := by
  rw [show s.tasks.threadPid task = some p from h.taskPid hatt]
  simp

/-- The number of an attached task is the one by which `find_pid_ns` finds the pid. -/
theorem TaskInv.taskPidNrNs_iff (h : TaskInv T s S) (hT : Table S)
    (hatt : s.tasks.IsAttached task type p) (halive : s.tasks.threadPid task ≠ none) :
    KernelPid.taskPidNrNs T s task type n = .ok nr ∧ nr ≠ 0 ↔
      findPidNs plainList s.sys.K nr n = .ok (some p) := by
  obtain ⟨d, m, hd, hnum⟩ := h.shape.numbers_of_live h.sim (h.attached.live hatt)
  obtain ⟨nr', hnr', -, howns⟩ := pidNrNs_spec (T := T) hd hnum n
  rw [h.attached.taskPidNrNs hatt halive, hnr', hT.findPidNs_iff h.sim, howns, Except.ok.injEq]
  constructor
  · rintro ⟨rfl, hne⟩
    exact ⟨h.attached.live hatt, rfl, hne⟩
  · rintro ⟨-, rfl, hne⟩
    exact ⟨rfl, hne⟩

omit [DecidableEq ι] in
/-- `find_pid_ns` comes back with some answer. -/
theorem TaskInv.findPidNs (h : TaskInv T s S) (nr : ℤ) (n : ι) :
    ∃ pid, KernelPid.findPidNs plainList s.sys.K nr n = .ok pid :=
  ⟨_, plainList_simulates.lookupRcu (h.sim.K.ns n).pidSl nr⟩

omit [DecidableEq ι] in
/-- `pid_task` finds a task if and only if there is one. -/
theorem Tasks.pidTask_eq_some (t : Tasks) (h : pidTask t (some p) type = some task) :
    t.IsAttached task type p := by
  rw [← Tasks.mem_members_iff]
  exact List.mem_of_head? h

theorem Tasks.exists_pidTask (t : Tasks) (h : t.IsAttached task type p) :
    ∃ task', pidTask t (some p) type = some task' ∧ t.IsAttached task' type p := by
  cases htask : pidTask t (some p) type with
  | none => exact absurd (List.head?_eq_none_iff.mp htask) (Lists.members_ne_nil h)
  | some task' => exact ⟨task', rfl, t.pidTask_eq_some htask⟩

/-- In every run that keeps to the rules, and whose reservations all come to a free number before
any reserved one: the task that `find_task_by_pid_ns` finds by a number has this number. And every
task that is attached as a process has a number, other than 0, in its own namespace and in those
above it and in no other, by which `find_task_by_pid_ns` finds it, or a task that is attached to
the same pid. -/
theorem find_task_round_trip (T : PidNsTree ι) (as : List (TaskAct ι))
    (hrule : Meets (taskStep plainList T) (fun s a => CallerRule s a ∧ OnPids FreshStep s a)
      (TaskSys.init init) as) :
    ∃ s, run (taskStep plainList T) (TaskSys.init init) as = .ok s ∧
      (∀ nr n task, findTaskByPidNs plainList s nr n = .ok (some task) →
        nr ≠ 0 ∧ taskPidNrNs T s task .pid n = .ok nr) ∧
      ∀ task p, s.tasks.IsAttached task .pid p → ∃ m, taskActivePidNs s task = .ok (some m) ∧ ∀ n,
        ∃ nr, taskPidNrNs T s task .pid n = .ok nr ∧ (nr ≠ 0 ↔ T.IsAncestor m n) ∧
          (nr ≠ 0 → ∃ task', findTaskByPidNs plainList s nr n = .ok (some task') ∧
            s.tasks.IsAttached task' .pid p) := by
  obtain ⟨s, S, hrun, h, hT⟩ := task_run_table T as hrule
  refine ⟨s, hrun, fun nr n task hfind => ?_, fun task p hatt => ?_⟩
  · obtain ⟨pid, hpid⟩ := h.findPidNs nr n
    simp only [findTaskByPidNs, hpid, ok_bind, Except.ok.injEq] at hfind
    cases pid with
    | none => simp [pidTask] at hfind
    | some p =>
        have hatt := s.tasks.pidTask_eq_some hfind
        exact ((h.taskPidNrNs_iff hT hatt (h.attached.threadPid_ne_none hatt)).mpr hpid).symm
  · have halive := h.attached.threadPid_ne_none hatt
    obtain ⟨d, m, hd, hnum⟩ := h.shape.numbers_of_live h.sim (h.attached.live hatt)
    refine ⟨m, ?_, fun n => ?_⟩
    · rw [taskActivePidNs, show s.tasks.threadPid task = some p from h.attached.taskPid hatt]
      exact nsOfPid_eq hd hnum
    · obtain ⟨nr, hnr, hanc, -⟩ := pidNrNs_spec (T := T) hd hnum n
      rw [← h.attached.taskPidNrNs hatt halive] at hnr
      refine ⟨nr, hnr, hanc, fun hne => ?_⟩
      have hfind := (h.taskPidNrNs_iff hT hatt halive).mp ⟨hnr, hne⟩
      obtain ⟨task', htask', hatt'⟩ := s.tasks.exists_pidTask hatt
      exact ⟨task', by simp only [findTaskByPidNs, hfind, ok_bind, htask'], hatt'⟩

theorem find_task_round_trip_deThread :
    ∃ s, run (taskStep plainList soleNs) (TaskSys.init init) deThread = .ok s ∧
      (∀ nr n task, findTaskByPidNs plainList s nr n = .ok (some task) →
        nr ≠ 0 ∧ taskPidNrNs soleNs s task .pid n = .ok nr) ∧
      ∀ task p, s.tasks.IsAttached task .pid p → ∃ m, taskActivePidNs s task = .ok (some m) ∧ ∀ n,
        ∃ nr, taskPidNrNs soleNs s task .pid n = .ok nr ∧ (nr ≠ 0 ↔ soleNs.IsAncestor m n) ∧
          (nr ≠ 0 → ∃ task', findTaskByPidNs plainList s nr n = .ok (some task') ∧
            s.tasks.IsAttached task' .pid p) :=
  find_task_round_trip soleNs deThread (by decide)

/-! ## All tasks of a pid -/

theorem eachPidTask_nodup (t : Tasks) (pid : Option PidAddr) (type : PidType) :
    (eachPidTask t pid type).Nodup := by
  cases pid with
  | none => exact List.nodup_nil
  | some p =>
      simp only [eachPidTask]
      split
      · exact ((t.links type).nodup p).sublist (List.take_sublist ..)
      · exact (t.links type).nodup p

theorem Tasks.isAttached_of_mem_each (t : Tasks) (h : task ∈ eachPidTask t (some p) type) :
    t.IsAttached task type p := by
  rw [← Tasks.mem_members_iff]
  simp only [eachPidTask] at h
  split at h
  · exact List.mem_of_mem_take h
  · exact h

theorem Tasks.mem_eachPidTask_iff (t : Tasks) (htype : type ≠ .pid) :
    task ∈ eachPidTask t (some p) type ↔ t.IsAttached task type p := by
  rw [eachPidTask, if_neg htype, Tasks.mem_members_iff]

/-- Of the tasks that are attached as processes one is visited. -/
theorem Tasks.eachPidTask_pid_length (t : Tasks) (h : t.IsAttached task .pid p) :
    (eachPidTask t (some p) .pid).length = 1 := by
  have hpos := List.length_pos_of_mem (Tasks.mem_members_iff.mpr h)
  simp only [eachPidTask, if_true, List.length_take]
  omega

/-- The leader of a process group has detached as a process, and is visited as a member of
the group. -/
example : (run (taskStep plainList soleNs) (TaskSys.init init)
    [.pids (.start 0 () (grantAll 32768)), .pids (.step 0), .pids (.step 0),
      .setTaskPid 0 .pgid (some 0), .attachPid 0 .pgid, .setTaskPid 0 .pid (some 0),
      .attachPid 0 .pid, .detachPid 0 .pid]).toOption.map (fun s => (s.tasks.threadPid 0,
        (findPidNs plainList s.sys.K 1 ()).toOption.map fun pid => eachPidTask s.tasks pid .pgid)) =
    some (none, some [0]) := by
  decide

/-! ## `zap_pid_ns_processes` -/

/-- The tasks that the kill loop of `zap_pid_ns_processes(pid_ns)` sends `SIGKILL` to; `pending` is
what `__fatal_signal_pending` says when the loop comes to a task. -/
def zapKills (K : Kernel (PidSkiplist PidAddr) ι) (t : Tasks) (pending : TaskAddr → Bool) (ns : ι) :
    Except Fault (List TaskAddr) := do
  let pids ← zapVisits K ns
  .ok ((pids.filterMap fun pid => pidTask t (some pid) .pid).filter fun task => !pending task)

omit [DecidableEq ι] in
/-- The pids that a list binds are those that `find_pid_ns` finds. -/
theorem bindings_eq_some_iff {s : Sys (PidSkiplist PidAddr) ι} (hs : SysSim Represents s S) :
    (s.K.ns n).pidSl.bindings nr = some (some p) ↔ findPidNs plainList s.K nr n = .ok (some p) := by
  have hlookup := plainList_simulates.lookupRcu (hs.K.ns n).pidSl nr
  rw [(hs.K.ns n).pidSl.eq_bindings] at hlookup
  rw [findPidNs, hlookup, Except.ok.injEq, Option.join_eq_some_iff]

omit [DecidableEq ι] in
/-- The loop visits all pids of a namespace without a reserved number below a published one. -/
theorem Table.zapVisitsAll {s : Sys (PidSkiplist PidAddr) ι} (hT : Table S)
    (hs : SysSim Represents s S) (hS : SysShape T S)
    (hnone : NoneReservedBelow (s.K.ns n).pidSl.bindings) : ZapVisitsAll s.K n := by
  obtain ⟨h, L, hinv, -⟩ := id (hs.K.ns n).pidSl
  refine (zapVisitsAll_iff hinv fun nr nr' p hb hb' => ?_).mpr hnone
  rw [bindings_eq_some_iff hs, hT.findPidNs_iff hs] at hb hb'
  obtain ⟨d, m, hd, hnum⟩ := hS.numbers_of_live hs hb.1
  exact hnum.nr_unique ((Kernel.owns_iff hd _ _).mp hb.2) ((Kernel.owns_iff hd _ _).mp hb'.2)

/-- In every run that keeps to the rules, and whose reservations all come to a free number before
any reserved one: if no reserved number of the namespace lies below a published one, the kill loop
signals, once each, the tasks that `find_task_by_pid_ns` finds by the numbers from 2 on and that
have no fatal signal pending. -/
theorem zap_kills_iff (T : PidNsTree ι) (as : List (TaskAct ι))
    (hrule : Meets (taskStep plainList T) (fun s a => CallerRule s a ∧ OnPids FreshStep s a)
      (TaskSys.init init) as) :
    ∃ s, run (taskStep plainList T) (TaskSys.init init) as = .ok s ∧
      ∀ n, NoneReservedBelow (s.sys.K.ns n).pidSl.bindings → ∀ pending,
        ∃ ts, zapKills s.sys.K s.tasks pending n = .ok ts ∧ ts.Nodup ∧
          ∀ task, task ∈ ts ↔ pending task = false ∧
            ∃ nr, 2 ≤ nr ∧ findTaskByPidNs plainList s nr n = .ok (some task) := by
  obtain ⟨s, S, hrun, h, hT⟩ := task_run_table T as hrule
  refine ⟨s, hrun, fun n hnone pending => ?_⟩
  obtain ⟨xs, -, hxs, hnodup, hvisits⟩ := hT.zapVisitsAll h.sim h.shape hnone
  have hkills : zapKills s.sys.K s.tasks pending n = .ok (((xs.map Prod.snd).filterMap fun pid =>
      pidTask s.tasks (some pid) .pid).filter fun task => !pending task) := by
    simp only [zapKills, hvisits, ok_bind]
  refine ⟨_, hkills, (hnodup.filterMap ?_).filter _, fun task => ?_⟩
  · -- a task is attached to one pid at most
    intro p q task hp hq
    exact Lists.eq_of_mem (Tasks.mem_members_iff.mpr (s.tasks.pidTask_eq_some hp))
      (Tasks.mem_members_iff.mpr (s.tasks.pidTask_eq_some hq))
  · have hfind : ∀ nr, findTaskByPidNs plainList s nr n = .ok (some task) ↔
        ∃ p, (s.sys.K.ns n).pidSl.bindings nr = some (some p) ∧
          pidTask s.tasks (some p) .pid = some task := by
      intro nr
      obtain ⟨pid, hpid⟩ := h.findPidNs nr n
      simp only [findTaskByPidNs, bindings_eq_some_iff h.sim, hpid, ok_bind, Except.ok.injEq]
      cases pid with
      | none => simp [pidTask]
      | some p => simp
    simp only [List.mem_filter, List.mem_filterMap, List.mem_map, Prod.exists,
      exists_eq_right, hxs, hfind, Bool.not_eq_true']
    constructor
    · rintro ⟨⟨p, ⟨nr, hnr, hb⟩, htask⟩, hpend⟩
      exact ⟨hpend, nr, hnr, p, hb, htask⟩
    · rintro ⟨hpend, nr, hnr, p, hb, htask⟩
      exact ⟨⟨p, ⟨nr, hnr, hb⟩, htask⟩, hpend⟩

theorem zap_kills_iff_deThread :
    ∃ s, run (taskStep plainList soleNs) (TaskSys.init init) deThread = .ok s ∧
      ∀ n, NoneReservedBelow (s.sys.K.ns n).pidSl.bindings → ∀ pending,
        ∃ ts, zapKills s.sys.K s.tasks pending n = .ok ts ∧ ts.Nodup ∧
          ∀ task, task ∈ ts ↔ pending task = false ∧
            ∃ nr, 2 ≤ nr ∧ findTaskByPidNs plainList s nr n = .ok (some task) :=
  zap_kills_iff soleNs deThread (by decide)

end KernelPid
