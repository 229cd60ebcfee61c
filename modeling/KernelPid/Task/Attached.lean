import KernelPid.Task.Basic

/-!
# Attached tasks

`Attached` is the invariant of the task lists: a task that is attached is so to the pid that it has,
this pid is published, and no other task is attached through the same pointer. Each operation keeps
it, and `__change_pid` passes a pid to `free_pid` just when its last task goes. So the tasks take
the pids through a run of the system of `System`, one that only frees what is published
(`attached_pids_are_published`), and a pid that was attached is published as long as a task is
attached to it and no longer (`published_while_attached`).
-/

namespace KernelPid

open Runs PidSkiplist IntrusiveList

variable {σ ι : Type} {t t' : Tasks} {task task' : TaskAddr} {type type' : PidType} {p q : PidAddr}
  {live : List PidAddr}

/-! ## Pointers and lists -/

theorem Tasks.Shares.refl (t : Tasks) (type : PidType) (task : TaskAddr) :
    t.Shares type task task := by
  cases type <;> rfl

theorem Tasks.Shares.symm (h : t.Shares type task task') : t.Shares type task' task := by
  cases type <;> exact Eq.symm h

theorem Tasks.Shares.taskPid_eq (h : t.Shares type task task') :
    t.taskPid task' type = t.taskPid task type := by
  cases type with
  | pid =>
      obtain rfl : task' = task := h
      rfl
  | tgid | pgid | sid =>
      have hsig : t.signal task' = t.signal task := h
      simp only [Tasks.taskPid, hsig]

@[simp] theorem Tasks.links_setTaskPid (t : Tasks) (task : TaskAddr) (type : PidType)
    (pid : Option PidAddr) :
    (t.setTaskPid task type pid).links = t.links := by
  cases type <;> rfl

@[simp] theorem Tasks.shares_setTaskPid (t : Tasks) (task₀ : TaskAddr) (type₀ : PidType)
    (pid : Option PidAddr) :
    (t.setTaskPid task₀ type₀ pid).Shares type task task' ↔ t.Shares type task task' := by
  cases type₀ <;> cases type <;> rfl

/-- A write goes to the one pointer that the task shares with its thread group. -/
theorem Tasks.taskPid_setTaskPid_of_shares (h : t.Shares type task task') (pid : Option PidAddr) :
    (t.setTaskPid task type pid).taskPid task' type = pid := by
  cases type with
  | pid =>
      obtain rfl : task' = task := h
      simp [Tasks.setTaskPid, Tasks.taskPid]
  | tgid | pgid | sid =>
      have hsig : t.signal task' = t.signal task := h
      simp [Tasks.setTaskPid, Tasks.taskPid, hsig]

theorem Tasks.taskPid_setTaskPid_of_not_shares (h : ¬ (type' = type ∧ t.Shares type task task'))
    (pid : Option PidAddr) :
    (t.setTaskPid task type pid).taskPid task' type' = t.taskPid task' type' := by
  cases type <;> cases type' <;>
    simp_all [Tasks.setTaskPid, Tasks.taskPid, Tasks.Shares, Function.update_apply] <;> grind

@[simp] theorem Tasks.taskPid_setLinks (t : Tasks) (type₀ : PidType) (L : Lists PidAddr TaskAddr) :
    (t.setLinks type₀ L).taskPid task type = t.taskPid task type := by
  cases type <;> rfl

@[simp] theorem Tasks.shares_setLinks (t : Tasks) (type₀ : PidType) (L : Lists PidAddr TaskAddr) :
    (t.setLinks type₀ L).Shares type task task' ↔ t.Shares type task task' := by
  cases type <;> rfl

theorem Tasks.links_setLinks_self (t : Tasks) (type : PidType) (L : Lists PidAddr TaskAddr) :
    (t.setLinks type L).links type = L := Function.update_self ..

theorem Tasks.links_setLinks_of_ne (t : Tasks) (L : Lists PidAddr TaskAddr) (h : type' ≠ type) :
    (t.setLinks type L).links type' = t.links type' := Function.update_of_ne h ..

/-- `task` is attached to `p` as its pid of the type `type`. -/
def Tasks.IsAttached (t : Tasks) (task : TaskAddr) (type : PidType) (p : PidAddr) : Prop :=
  (t.links type).head task = some p

theorem Tasks.mem_members_iff : task ∈ (t.links type).members p ↔ t.IsAttached task type p :=
  (t.links type).mem_iff p task

/-- A pid is unused when no task is attached to it. -/
theorem Tasks.unused_iff : t.unused p = true ↔ ∀ task type, ¬ t.IsAttached task type p := by
  have hall : ∀ type, type ∈ PidType.fromMax := by
    intro type
    cases type <;> decide
  simp only [Tasks.unused, List.all_eq_true, List.isEmpty_iff, Lists.members_eq_nil_iff]
  exact ⟨fun h task type => h type (hall type) task, fun h type _ task => h task type⟩

/-! ## The invariant -/

/-- A task is attached to the pid that it has, which is published, and it is the only one that is
attached through its pointer. -/
structure Attached (t : Tasks) (live : List PidAddr) : Prop where
  taskPid : ∀ {task type p}, t.IsAttached task type p → t.taskPid task type = some p
  live : ∀ {task type p}, t.IsAttached task type p → p ∈ live
  alone : ∀ {task task' type p q}, t.IsAttached task type p → t.IsAttached task' type q →
    t.Shares type task task' → task' = task

theorem attached_init : Attached Tasks.init live where
  taskPid h := by simp [Tasks.IsAttached, Tasks.init, Lists.empty] at h
  live h := by simp [Tasks.IsAttached, Tasks.init, Lists.empty] at h
  alone h := by simp [Tasks.IsAttached, Tasks.init, Lists.empty] at h

/-- More pids may be published, and those that no task is attached to may go. -/
theorem Attached.of_live {live' : List PidAddr} (h : Attached t live)
    (hlive : ∀ p ∈ live, p ∈ live' ∨ t.unused p = true) : Attached t live' where
  taskPid := h.taskPid
  live hatt := by
    rcases hlive _ (h.live hatt) with hp | hun
    · exact hp
    · exact absurd hatt (Tasks.unused_iff.mp hun _ _)
  alone := h.alone

/-- With another `signal`, a task shares its pointers with others. -/
theorem Attached.setSignal (h : Attached t live) (sig : SignalAddr)
    (hnone : ∀ type ∈ PidType.fromMax, type ≠ .pid → (t.links type).head task = none) :
    Attached { t with signal := Function.update t.signal task sig } live := by
  -- an attached task is another one, or is attached as its own `thread_pid`
  have hsig : ∀ {task' type p}, t.IsAttached task' type p → type ≠ .pid →
      Function.update t.signal task sig task' = t.signal task' := by
    intro task' type p hatt htype
    refine Function.update_of_ne ?_ _ _
    rintro rfl
    have := hnone type (by cases type <;> decide) htype
    unfold Tasks.IsAttached at hatt
    rw [this] at hatt
    simp at hatt
  refine ⟨fun {task' type p} hatt => ?_, fun hatt => h.live hatt,
    fun {task' task'' type p q} hp hq hsh => ?_⟩
  · have heq := h.taskPid hatt
    cases type with
    | pid => exact heq
    | tgid | pgid | sid => simpa only [Tasks.taskPid, hsig hatt (by decide)] using heq
  · refine h.alone hp hq ?_
    cases type with
    | pid => exact hsh
    | tgid | pgid | sid =>
        have hsh' : Function.update t.signal task sig task'' =
          Function.update t.signal task sig task' := hsh
        rw [hsig hp (by decide), hsig hq (by decide)] at hsh'
        exact hsh'

/-- A pointer through which no task is attached may be written. -/
theorem Attached.setTaskPid (h : Attached t live) (pid : Option PidAddr)
    (hnone : ∀ p, t.taskPid task type = some p → t.NoneAttached p type task) :
    Attached (t.setTaskPid task type pid) live := by
  refine ⟨fun {task' type' p} hatt => ?_, fun {task' type' p} hatt => ?_,
    fun {task' task'' type' p q} hp hq hsh => ?_⟩
  · simp only [Tasks.IsAttached, Tasks.links_setTaskPid] at hatt
    have heq := h.taskPid hatt
    rw [Tasks.taskPid_setTaskPid_of_not_shares, heq]
    rintro ⟨rfl, hsh⟩
    rw [hsh.taskPid_eq] at heq
    exact hnone p heq task' (Tasks.mem_members_iff.mpr hatt) hsh
  · simp only [Tasks.IsAttached, Tasks.links_setTaskPid] at hatt
    exact h.live hatt
  · simp only [Tasks.IsAttached, Tasks.links_setTaskPid, Tasks.shares_setTaskPid] at hp hq hsh
    exact h.alone hp hq hsh

/-! ## The operations -/

theorem Tasks.isAttached_setLinks (L : Lists PidAddr TaskAddr) :
    (t.setLinks type L).IsAttached task' type' q ↔
      if type' = type then L.head task' = some q else t.IsAttached task' type' q := by
  by_cases htype : type' = type
  · subst htype
    rw [if_pos rfl, Tasks.IsAttached, Tasks.links_setLinks_self]
  · rw [if_neg htype, Tasks.IsAttached, Tasks.links_setLinks_of_ne t L htype, Tasks.IsAttached]

/-- Afterwards the task is attached to `p`, and all others are as they were. -/
theorem Tasks.isAttached_addHead (h : (t.links type).head task = none) :
    (t.setLinks type ((t.links type).addHead p task h)).IsAttached task' type' q ↔
      (task' = task ∧ type' = type ∧ q = p) ∨ t.IsAttached task' type' q := by
  rw [Tasks.isAttached_setLinks, Lists.head_addHead, Tasks.IsAttached]
  by_cases htype : type' = type <;> by_cases htask : task' = task
  · subst htype htask
    simp [h, eq_comm]
  · simp [htype, htask]
  · simp [htype]
  · simp [htype, htask]

theorem Tasks.isAttached_del :
    (t.setLinks type ((t.links type).del task)).IsAttached task' type' q ↔
      ¬ (task' = task ∧ type' = type) ∧ t.IsAttached task' type' q := by
  rw [Tasks.isAttached_setLinks, Lists.head_del, Tasks.IsAttached]
  by_cases htype : type' = type <;> by_cases htask : task' = task <;> simp [htype, htask]

theorem Tasks.isAttached_replace {new : TaskAddr} (h : (t.links type).head new = none) :
    (t.setLinks type ((t.links type).replace task new h)).IsAttached task' type' q ↔
      (task' = new ∧ type' = type ∧ t.IsAttached task type q) ∨
        ¬ (task' = task ∧ type' = type) ∧ t.IsAttached task' type' q := by
  rw [Tasks.isAttached_setLinks, Lists.head_replace]
  unfold Tasks.IsAttached
  by_cases htype : type' = type
  · subst htype
    by_cases hnew : task' = new
    · subst hnew
      simp [h]
    · by_cases htask : task' = task
      · simp [htask, show task ≠ new from htask ▸ hnew]
      · simp [hnew, htask]
  · simp [htype]

/-- `attach_pid` of a task through whose pointer none is attached. -/
theorem Attached.attachPid (h : Attached t live) (hp : p ∈ live)
    (htp : t.taskPid task type = some p) (hnone : t.NoneAttached p type task)
    (hhead : (t.links type).head task = none) :
    ∃ t', KernelPid.attachPid t task type = .ok t' ∧ Attached t' live ∧
      ∀ task' type' q, t'.IsAttached task' type' q ↔
        (task' = task ∧ type' = type ∧ q = p) ∨ t.IsAttached task' type' q := by
  refine ⟨_, by simp only [KernelPid.attachPid, htp, dif_pos hhead], ?_,
    fun _ _ _ => Tasks.isAttached_addHead hhead⟩
  -- an attached task that shares the pointer would be attached to `p`
  have hfree : ∀ {task' q}, t.IsAttached task' type q → ¬ t.Shares type task task' := by
    intro task' q hatt hsh
    have heq := h.taskPid hatt
    rw [hsh.taskPid_eq, htp] at heq
    obtain rfl := Option.some.inj heq
    exact hnone task' (Tasks.mem_members_iff.mpr hatt) hsh
  constructor
  · intro task' type' q hatt
    rw [Tasks.taskPid_setLinks]
    rcases (Tasks.isAttached_addHead hhead).mp hatt with ⟨rfl, rfl, rfl⟩ | hatt
    · exact htp
    · exact h.taskPid hatt
  · intro task' type' q hatt
    rcases (Tasks.isAttached_addHead hhead).mp hatt with ⟨rfl, rfl, rfl⟩ | hatt
    · exact hp
    · exact h.live hatt
  · intro task' task'' type' q q' ha ha' hsh
    rw [Tasks.shares_setLinks] at hsh
    rcases (Tasks.isAttached_addHead hhead).mp ha with ⟨rfl, rfl, -⟩ | hq <;>
      rcases (Tasks.isAttached_addHead hhead).mp ha' with ⟨rfl, htype, -⟩ | hq'
    · rfl
    · exact absurd hsh (hfree hq')
    · subst htype
      exact absurd hsh.symm (hfree hq)
    · exact h.alone hq hq' hsh

/-- What `__change_pid` does to the tasks: `task` leaves its list and has the pid `new`. -/
def Tasks.dropped (t : Tasks) (task : TaskAddr) (type : PidType) (new : Option PidAddr) : Tasks :=
  (t.setLinks type ((t.links type).del task)).setTaskPid task type new

theorem Tasks.isAttached_dropped {new : Option PidAddr} :
    (t.dropped task type new).IsAttached task' type' q ↔
      ¬ (task' = task ∧ type' = type) ∧ t.IsAttached task' type' q := by
  rw [← Tasks.isAttached_del]
  simp only [Tasks.dropped, Tasks.IsAttached, Tasks.links_setTaskPid]

/-- Through the pointer that it writes, no task is attached any more. -/
theorem Attached.dropped (h : Attached t live) (new : Option PidAddr)
    (hatt : t.IsAttached task type p) : Attached (t.dropped task type new) live := by
  constructor
  · intro task' type' q ha
    obtain ⟨hne, hq⟩ := Tasks.isAttached_dropped.mp ha
    rw [Tasks.dropped, Tasks.taskPid_setTaskPid_of_not_shares, Tasks.taskPid_setLinks, h.taskPid hq]
    rintro ⟨rfl, hs⟩
    rw [Tasks.shares_setLinks] at hs
    exact hne ⟨h.alone hatt hq hs, rfl⟩
  · intro task' type' q ha
    exact h.live (Tasks.isAttached_dropped.mp ha).2
  · intro task' task'' type' q q' ha ha' hs
    simp only [Tasks.dropped, Tasks.shares_setTaskPid, Tasks.shares_setLinks] at hs
    exact h.alone (Tasks.isAttached_dropped.mp ha).2 (Tasks.isAttached_dropped.mp ha').2 hs

/-- A task that has the pid of an attached one takes its place on the list. -/
theorem Attached.replaced (h : Attached t live) {old new : TaskAddr}
    (hatt : t.IsAttached old type p) (hnew : (t.links type).head new = none)
    (htp : t.taskPid new type = some p)
    (hsh : ∀ {task'}, t.Shares type new task' → task' = new ∨ t.Shares type old task') :
    Attached (t.setLinks type ((t.links type).replace old new hnew)) live := by
  -- among the attached tasks only `old` shared the pointer
  have hfree : ∀ {task' q}, task' ≠ old → t.IsAttached task' type q →
    ¬ t.Shares type new task' := by
    intro task' q hne hq hs
    rcases hsh hs with rfl | hs
    · rw [Tasks.IsAttached, hnew] at hq
      simp at hq
    · exact hne (h.alone hatt hq hs)
  constructor
  · intro task' type' q ha
    rw [Tasks.taskPid_setLinks]
    rcases (Tasks.isAttached_replace hnew).mp ha with ⟨rfl, rfl, hold⟩ | ⟨-, hq⟩
    · rw [Tasks.IsAttached, hatt] at hold
      exact hold ▸ htp
    · exact h.taskPid hq
  · intro task' type' q ha
    rcases (Tasks.isAttached_replace hnew).mp ha with ⟨rfl, rfl, hold⟩ | ⟨-, hq⟩
    · exact h.live hold
    · exact h.live hq
  · intro task' task'' type' q q' ha ha' hs
    rw [Tasks.shares_setLinks] at hs
    rcases (Tasks.isAttached_replace hnew).mp ha with ⟨rfl, rfl, -⟩ | ⟨hne, hq⟩ <;>
      rcases (Tasks.isAttached_replace hnew).mp ha' with ⟨rfl, htype, -⟩ | ⟨hne', hq'⟩
    · rfl
    · exact absurd hs (hfree (fun heq => hne' ⟨heq, rfl⟩) hq')
    · subst htype
      exact absurd hs.symm (hfree (fun heq => hne ⟨heq, rfl⟩) hq)
    · exact h.alone hq hq' hs

/-- `transfer_pid` between two tasks of one thread group, or of a `thread_pid`. -/
theorem Attached.transferPid (h : Attached t live) {old new : TaskAddr}
    (hatt : t.IsAttached old type p) (hnew : (t.links type).head new = none)
    (hgroup : type = .pid ∨ t.signal old = t.signal new) :
    ∃ t', KernelPid.transferPid t old new type = .ok t' ∧ Attached t' live ∧
      ∀ task' type' q, t'.IsAttached task' type' q ↔
        (task' = new ∧ type' = type ∧ q = p) ∨
          ¬ (task' = old ∧ type' = type) ∧ t.IsAttached task' type' q := by
  have hiff : ∀ {t₁ : Tasks} (hn : (t₁.links type).head new = none), t₁.links = t.links →
    ∀ task' type' q,
      (t₁.setLinks type ((t₁.links type).replace old new hn)).IsAttached task' type' q ↔
        (task' = new ∧ type' = type ∧ q = p) ∨
          ¬ (task' = old ∧ type' = type) ∧ t.IsAttached task' type' q := by
    intro t₁ hn hlinks task' type' q
    rw [Tasks.isAttached_replace hn]
    unfold Tasks.IsAttached at hatt ⊢
    rw [hlinks, hatt, Option.some.injEq, eq_comm (a := p)]
  by_cases htype : type = .pid
  · subst htype
    -- `new` has no list to leave, so its `thread_pid` may be written
    have hpid : Attached (t.setTaskPid new .pid (t.threadPid old)) live := by
      refine h.setTaskPid _ fun q _ task' hmem hs => ?_
      obtain rfl : task' = new := hs
      rw [Tasks.mem_members_iff, Tasks.IsAttached, hnew] at hmem
      simp at hmem
    refine ⟨_, ?_, hpid.replaced hatt hnew ?_ fun hs => Or.inl hs, hiff hnew rfl⟩
    · have hold : (t.links .pid).head old ≠ none := by
        rw [hatt]
        simp
      simp only [KernelPid.transferPid, if_true, if_neg hold, dif_pos hnew]
      rfl
    · rw [← h.taskPid hatt]
      exact Tasks.taskPid_setTaskPid_of_shares (Tasks.Shares.refl t .pid new) _
  · have hshares : t.Shares type old new ∧
      ∀ {task'}, t.Shares type new task' → t.Shares type old task' := by
      have hsig := (hgroup.resolve_left htype).symm
      cases type with
      | pid => exact absurd rfl htype
      | tgid | pgid | sid => exact ⟨hsig, fun hs => Eq.trans hs hsig⟩
    refine ⟨_, ?_, h.replaced hatt hnew ?_ fun hs => Or.inr (hshares.2 hs), hiff hnew rfl⟩
    · have hold : (t.links type).head old ≠ none := by
        rw [hatt]
        simp
      simp only [KernelPid.transferPid, if_neg htype, if_neg hold, dif_pos hnew]
    · rw [hshares.1.taskPid_eq, h.taskPid hatt]

/-! ## Steps -/

/-- Some task is attached to `p`. -/
def Tasks.Used (t : Tasks) (p : PidAddr) : Prop := ∃ task type, t.IsAttached task type p

/-- Nothing but a published pid is freed. -/
def FreesLive (s : Sys σ ι) : Act ι → Prop
  | .free p => p ∈ s.live
  | _ => True

section Steps

variable {T : PidNsTree ι} {s s' : TaskSys (PidSkiplist PidAddr) ι} {S S' : MapSys ι}
  {a : TaskAct ι}

/-- The invariant of every run that keeps to the rules. -/
structure TaskInv (T : PidNsTree ι) (s : TaskSys (PidSkiplist PidAddr) ι) (S : MapSys ι) :
    Prop where
  sim : SysSim Represents s.sys S
  shape : SysShape T S
  attached : Attached s.tasks s.sys.live

theorem taskInv_init : TaskInv T (TaskSys.init init) (Sys.init fun _ => none) where
  sim := sysSim_init represents_init
  shape := sysShape_init
  attached := attached_init

variable [DecidableEq ι]

/-- What a step did to the pids: nothing, or one step of theirs, which is the label's or frees a
published pid. -/
inductive PidPart (T : PidNsTree ι) (s : TaskSys (PidSkiplist PidAddr) ι) (S : MapSys ι)
    (a : TaskAct ι)
    (s' : Sys (PidSkiplist PidAddr) ι) (S' : MapSys ι) : Prop
  | none (hs : s' = s.sys) (hS : S' = S)
  | step {b : Act ι} (hb : a = .pids b ∨ ∃ p, b = .free p) (hlive : FreesLive s.sys b)
      (hs : sysStep plainList T s.sys b = .ok s') (hS : SysStep T S b S')

/-- A step that kept to the rules. -/
structure Stepped (T : PidNsTree ι) (s : TaskSys (PidSkiplist PidAddr) ι) (S : MapSys ι)
    (a : TaskAct ι)
    (s' : TaskSys (PidSkiplist PidAddr) ι) (S' : MapSys ι) : Prop where
  inv : TaskInv T s' S'
  pids : PidPart T s S a s'.sys S'
  /-- A pid that was used is freed when it is not used any more. -/
  freed : ∀ p, s.tasks.Used p → ¬ s'.tasks.Used p → p ∉ s'.sys.live

/-- A step of the plain build's pids. -/
theorem TaskInv.sysStep (h : TaskInv T s S) (b : Act ι) :
    ∃ s' S', KernelPid.sysStep plainList T s.sys b = .ok s' ∧
    SysSim Represents s' S' ∧ SysShape T S' ∧ SysStep T S b S' := by
  obtain ⟨s', S', hrun, hs', hS'⟩ :=
    sysStep_refines plainList_simulates h.sim h.shape (fun _ => AllocCall.admissible_true _ _) b
  exact ⟨s', S', hrun, hs', hS'.shape h.shape, hS'⟩

/-- A step that changes the tasks only, and takes none off a pid. -/
theorem Stepped.of_tasks (h : TaskInv T s S) (hatt : Attached t s.sys.live)
    (hused : ∀ p, s.tasks.Used p → t.Used p) : Stepped T s S a { s with tasks := t } S where
  inv := ⟨h.sim, h.shape, hatt⟩
  pids := .none rfl rfl
  freed p hp hnot := absurd (hused p hp) hnot

theorem changePidTo_eq {B : PidList σ} {s : TaskSys σ ι}
    (hhead : (s.tasks.links type).head task ≠ none) (htp : s.tasks.taskPid task type = some p)
    (new : Option PidAddr) : KernelPid.changePidTo B s task type new =
      if (s.tasks.dropped task type new).unused p = true then do
        let K ← freePid B s.sys.K p
        .ok { sys := { s.sys with K, live := s.sys.live.erase p }
              tasks := s.tasks.dropped task type new }
      else .ok { s with tasks := s.tasks.dropped task type new } := by
  simp only [KernelPid.changePidTo, if_neg hhead, htp]
  rfl

/-- `__change_pid`: the task leaves its pid, which is freed if it was the last one. -/
theorem TaskInv.changePidTo (h : TaskInv T s S) (hatt : s.tasks.IsAttached task type p)
    (new : Option PidAddr) (a : TaskAct ι) :
    ∃ s' S', KernelPid.changePidTo plainList s task type new = .ok s' ∧
      s'.tasks = s.tasks.dropped task type new ∧ Stepped T s S a s' S' ∧
      ∀ q ∈ s.sys.live, q ≠ p → q ∈ s'.sys.live := by
  have htp := h.attached.taskPid hatt
  have hhead : (s.tasks.links type).head task ≠ none := by
    rw [show _ = some p from hatt]
    simp
  have hdrop := h.attached.dropped new hatt
  have hused : ∀ q, s.tasks.Used q → ¬ (s.tasks.dropped task type new).Used q →
      q = p ∧ (s.tasks.dropped task type new).unused p = true := by
    rintro q ⟨task', type', hq⟩ hnot
    by_cases heq : task' = task ∧ type' = type
    · obtain ⟨rfl, rfl⟩ := heq
      obtain rfl : q = p := Option.some.inj (hq.symm.trans hatt)
      exact ⟨rfl, Tasks.unused_iff.mpr fun task'' type'' hq => hnot ⟨task'', type'', hq⟩⟩
    · exact absurd ⟨task', type', Tasks.isAttached_dropped.mpr ⟨heq, hq⟩⟩ hnot
  by_cases hun : (s.tasks.dropped task type new).unused p = true
  · -- the last task goes: `free_pid` is the step of the pids
    obtain ⟨s₁, S', hrun, hs', hS', hstep⟩ := h.sysStep (.free p)
    have hp := h.attached.live hatt
    have hstepEq := hrun
    simp only [KernelPid.sysStep, if_pos hp] at hrun
    cases hfree : freePid plainList s.sys.K p with
    | error e => simp [hfree] at hrun
    | ok K =>
        rw [hfree, ok_bind] at hrun
        obtain rfl := Except.ok.inj hrun
        refine ⟨⟨_, s.tasks.dropped task type new⟩, S', ?_, rfl,
          ⟨⟨hs', hS', hdrop.of_live fun q hq => ?_⟩, .step (Or.inr ⟨p, rfl⟩) hp hstepEq hstep,
            fun q hq hnot => ?_⟩, fun q hq hne => ?_⟩
        · rw [changePidTo_eq hhead htp, if_pos hun, hfree, ok_bind]
        · by_cases hqp : q = p
          · exact Or.inr (hqp ▸ hun)
          · exact Or.inl ((List.mem_erase_of_ne hqp).mpr hq)
        · obtain ⟨rfl, -⟩ := hused q hq hnot
          exact (h.sim.live ▸ h.shape.nodup).not_mem_erase
        · exact (List.mem_erase_of_ne hne).mpr hq
  · refine ⟨_, S, ?_, rfl, Stepped.of_tasks h hdrop fun q hq => ?_, fun q hq _ => hq⟩
    · rw [changePidTo_eq hhead htp, if_neg hun]
    · by_contra hnot
      exact hun (hused q hq hnot).2

/-- `change_pid`: the task leaves its pid and is attached to `pid`. -/
theorem TaskInv.changePid (h : TaskInv T s S) (hatt : s.tasks.IsAttached task type p)
    {pid : PidAddr} (hpid : pid ∈ s.sys.live) (hne : pid ≠ p) (a : TaskAct ι) :
    ∃ s' S', KernelPid.changePid plainList s task type pid = .ok s' ∧ Stepped T s S a s' S' := by
  obtain ⟨s₁, S', hrun, hdrop, ⟨hinv, hpids, hfreed⟩, hlive⟩ := h.changePidTo hatt (some pid) a
  have hpid' := hlive pid hpid hne
  have htp : s₁.tasks.taskPid task type = some pid := by
    rw [hdrop]
    exact Tasks.taskPid_setTaskPid_of_shares
      ((Tasks.shares_setLinks _ _ _).mpr (Tasks.Shares.refl s.tasks type task)) _
  -- the task itself was the only one that was attached through the pointer
  have hnone : s₁.tasks.NoneAttached pid type task := by
    intro task' hmem hsh
    rw [Tasks.mem_members_iff, hdrop, Tasks.isAttached_dropped] at hmem
    rw [hdrop, Tasks.dropped, Tasks.shares_setTaskPid, Tasks.shares_setLinks] at hsh
    exact hmem.1 ⟨h.attached.alone hatt hmem.2 hsh, rfl⟩
  have hhead : (s₁.tasks.links type).head task = none := by
    rw [Option.eq_none_iff_forall_ne_some]
    intro q hq
    have hq : s₁.tasks.IsAttached task type q := hq
    rw [hdrop, Tasks.isAttached_dropped] at hq
    exact hq.1 ⟨rfl, rfl⟩
  obtain ⟨t, hattach, hatt', hiff⟩ := hinv.attached.attachPid hpid' htp hnone hhead
  refine ⟨{ s₁ with tasks := t }, S', ?_,
    ⟨⟨hinv.sim, hinv.shape, hatt'⟩, hpids, fun q hq hnot => ?_⟩⟩
  · simp only [KernelPid.changePid, hrun, ok_bind, hattach]
  · refine hfreed q hq fun ⟨task', type', hq'⟩ => ?_
    exact hnot ⟨task', type', (hiff _ _ _).mpr (Or.inr hq')⟩

/-- A step of the pids, which frees no pid that is used. -/
theorem TaskInv.pidsStep (h : TaskInv T s S) (b : Act ι)
    (hfree : ∀ p, b = .free p → p ∈ s.sys.live → s.tasks.unused p = true) :
    ∃ s' S', taskStep plainList T s (.pids b) = .ok s' ∧ Stepped T s S (.pids b) s' S' := by
  by_cases hb : FreesLive s.sys b
  · obtain ⟨s₁, S', hrun, hs', hS', hstep⟩ := h.sysStep b
    refine ⟨{ s with sys := s₁ }, S', by simp only [taskStep, hrun, ok_bind],
      ⟨⟨hs', hS', h.attached.of_live fun q hq => ?_⟩, .step (Or.inl rfl) hb hrun hstep,
        fun q hq hnot => absurd hq hnot⟩⟩
    by_cases hq' : b = .free q
    · exact Or.inr (hfree q hq' hq)
    · exact Or.inl (hs'.live ▸ hstep.mem_live (h.sim.live ▸ hq) hq')
  · -- a `free_pid` of what is not published is no step
    have hskip : KernelPid.sysStep plainList T s.sys b = .ok s.sys := by
      cases b with
      | free p => exact if_neg hb
      | start | step | disable | writeLastPid => exact absurd trivial hb
    refine ⟨s, S, by simp only [taskStep, hskip, ok_bind],
      Stepped.of_tasks h h.attached fun _ => id⟩

/-- Every step that keeps to the rules goes through and keeps the invariant. -/
theorem taskStep_stepped (h : TaskInv T s S) (hrule : CallerRule s a) :
    ∃ s' S', taskStep plainList T s a = .ok s' ∧ Stepped T s S a s' S' := by
  cases a with
  | pids b =>
      refine h.pidsStep b ?_
      rintro p rfl
      exact hrule
  | setSignal task sig =>
      exact ⟨_, S, rfl, Stepped.of_tasks h (h.attached.setSignal sig hrule) fun _ => id⟩
  | setTaskPid task type pid =>
      refine ⟨_, S, rfl, Stepped.of_tasks h (h.attached.setTaskPid pid hrule) fun q hq => ?_⟩
      simpa only [Tasks.Used, Tasks.IsAttached, Tasks.links_setTaskPid] using hq
  | attachPid task type =>
      obtain ⟨⟨p, hp, htp, hnone⟩, hhead⟩ := hrule
      obtain ⟨t, hattach, hatt, hiff⟩ := h.attached.attachPid hp htp hnone hhead
      refine ⟨_, S, by simp only [taskStep, hattach, ok_bind], Stepped.of_tasks h hatt ?_⟩
      rintro q ⟨task', type', hq⟩
      exact ⟨task', type', (hiff _ _ _).mpr (Or.inr hq)⟩
  | detachPid task type =>
      obtain ⟨p, hatt⟩ := Option.ne_none_iff_exists'.mp hrule
      obtain ⟨s', S', hrun, -, hst, -⟩ := h.changePidTo hatt none (.detachPid task type)
      exact ⟨s', S', hrun, hst⟩
  | changePid task type pid =>
      obtain ⟨hlinked, hpid, hne⟩ := hrule
      obtain ⟨p, hatt⟩ := Option.ne_none_iff_exists'.mp hlinked
      have htp := h.attached.taskPid hatt
      refine h.changePid hatt hpid ?_ _
      rintro rfl
      exact hne htp
  | transferPid old new type =>
      obtain ⟨hlinked, hnew, hgroup⟩ := hrule
      obtain ⟨p, hatt⟩ := Option.ne_none_iff_exists'.mp hlinked
      obtain ⟨t, htransfer, hatt', hiff⟩ := h.attached.transferPid hatt hnew hgroup
      refine ⟨_, S, by simp only [taskStep, htransfer, ok_bind], Stepped.of_tasks h hatt' ?_⟩
      rintro q ⟨task', type', hq⟩
      -- the one whose place was taken was on the list of `p`, and so is the other one now
      by_cases heq : task' = old ∧ type' = type
      · obtain ⟨rfl, rfl⟩ := heq
        obtain rfl : q = p := Option.some.inj (hq.symm.trans hatt)
        exact ⟨new, type', (hiff _ _ _).mpr (Or.inl ⟨rfl, rfl, rfl⟩)⟩
      · exact ⟨task', type', (hiff _ _ _).mpr (Or.inr ⟨heq, hq⟩)⟩

/-! ## Runs -/

/-- What is asked of the steps of the pids. -/
def OnPids (C : Sys σ ι → Act ι → Prop) (s : TaskSys σ ι) : TaskAct ι → Prop
  | .pids b => C s.sys b
  | _ => True

instance decidableOnPids (C : Sys σ ι → Act ι → Prop) [∀ s b, Decidable (C s b)] (s : TaskSys σ ι) :
    ∀ a, Decidable (OnPids C s a)
  | .pids b => inferInstanceAs (Decidable (C s.sys b))
  | .setSignal _ _ | .setTaskPid _ _ _ | .attachPid _ _ | .detachPid _ _ | .changePid _ _ _
  | .transferPid _ _ _ => instDecidableTrue

/-- Every run that keeps to the rules goes through in the invariant, and takes the pids through a
run of theirs that frees nothing but published pids. -/
theorem task_run {C : Sys (PidSkiplist PidAddr) ι → Act ι → Prop} (hC : ∀ s p, C s (.free p))
    (T : PidNsTree ι) (as : List (TaskAct ι))
    (hrule : Meets (taskStep plainList T) (fun s a => CallerRule s a ∧ OnPids C s a)
      (TaskSys.init init) as) :
    ∃ s, run (taskStep plainList T) (TaskSys.init init) as = .ok s ∧ (∃ S, TaskInv T s S) ∧
      ∃ bs, run (KernelPid.sysStep plainList T) (Sys.init init) bs = .ok s.sys ∧
        Meets (KernelPid.sysStep plainList T) (fun s b => FreesLive s b ∧ C s b)
          (Sys.init init) bs := by
  refine run_invariant (I := fun s : TaskSys (PidSkiplist PidAddr) ι => (∃ S, TaskInv T s S) ∧
      ∃ bs, run (KernelPid.sysStep plainList T) (Sys.init init) bs = .ok s.sys ∧
        Meets (KernelPid.sysStep plainList T) (fun s b => FreesLive s b ∧ C s b)
          (Sys.init init) bs) ?_
    ⟨⟨_, taskInv_init⟩, [], rfl, trivial⟩ hrule
  rintro s a ⟨⟨S, h⟩, bs, hrun, hmeets⟩ ⟨hrule, hpids⟩
  obtain ⟨s', S', hstep, hst⟩ := taskStep_stepped h hrule
  refine ⟨s', hstep, ⟨S', hst.inv⟩, ?_⟩
  cases hst.pids with
  | none hs _ => exact ⟨bs, hs ▸ hrun, hmeets⟩
  | @step b hb hlive hs _ =>
      have hb' : C s.sys b := by
        rcases hb with rfl | ⟨p, rfl⟩
        · exact hpids
        · exact hC _ p
      exact ⟨bs ++ [b], (run_concat hrun b).trans hs, hmeets.concat hrun ⟨hlive, hb'⟩⟩

/-- A pid that is published just when it is used stays so: it is not published again. -/
theorem Stepped.published_iff_used (hst : Stepped T s S a s' S') (h : TaskInv T s S)
    (hset : Settled T S p) (hiff : p ∈ s.sys.live ↔ s.tasks.Used p) :
    Settled T S' p ∧ (p ∈ s'.sys.live ↔ s'.tasks.Used p) := by
  have hkeep : Settled T S' p ∧ (p ∈ s'.sys.live → p ∈ s.sys.live) := by
    cases hst.pids with
    | none hs hS => exact ⟨hS ▸ hset, fun hp => hs ▸ hp⟩
    | step _ _ _ hS =>
        rw [h.sim.live, hst.inv.sim.live]
        exact hS.settled hset
  refine ⟨hkeep.1, fun hp => ?_, fun ⟨task, type, hatt⟩ => hst.inv.attached.live hatt⟩
  by_contra hnot
  exact hst.freed p (hiff.mp (hkeep.2 hp)) hnot hp

/-- In every run whose callers keep to the rules, the tasks free nothing but published pids, and so
each pid once at most; no step faults; and every task is attached to the pid that it has, which is
published. -/
theorem attached_pids_are_published (T : PidNsTree ι) (as : List (TaskAct ι))
    (hrule : Meets (taskStep plainList T) CallerRule (TaskSys.init init) as) :
    ∃ s bs, run (taskStep plainList T) (TaskSys.init init) as = .ok s ∧
      run (KernelPid.sysStep plainList T) (Sys.init init) bs = .ok s.sys ∧
      Meets (KernelPid.sysStep plainList T) FreesLive (Sys.init init) bs ∧
      ∀ task type p, s.tasks.IsAttached task type p →
        s.tasks.taskPid task type = some p ∧ p ∈ s.sys.live := by
  obtain ⟨s, hrun, ⟨S, h⟩, bs, hbs, hmeets⟩ :=
    task_run (C := fun _ _ => True) (fun _ _ => trivial) T as
    (hrule.imp_of_invariant (I := fun _ => True)
      (fun s a _ ha => ⟨⟨ha, by cases a <;> trivial⟩, fun _ _ => trivial⟩) trivial)
  refine ⟨s, bs, hrun, hbs, hmeets.imp_of_invariant (I := fun _ => True)
    (fun s b _ hb => ⟨hb.1, fun _ _ => trivial⟩) trivial, fun task type p hatt => ?_⟩
  exact ⟨h.attached.taskPid hatt, h.attached.live hatt⟩

/-- A thread takes the place of its leader, which then exits. -/
def deThread : List (TaskAct Unit) :=
  [.pids (.start 0 () (grantAll 32768)), .pids (.step 0), .pids (.step 0),
    .setTaskPid 0 .tgid (some 0), .attachPid 0 .tgid, .setTaskPid 0 .pid (some 0),
    .attachPid 0 .pid, .pids (.start 1 () (grantAll 32768)), .pids (.step 1), .pids (.step 1),
    .setSignal 1 0, .setTaskPid 1 .pid (some 1), .attachPid 1 .pid,
    .changePid 1 .pid 0, .transferPid 0 1 .tgid, .detachPid 0 .pid]

theorem attached_pids_are_published_deThread :
    ∃ s bs, run (taskStep plainList soleNs) (TaskSys.init init) deThread = .ok s ∧
      run (KernelPid.sysStep plainList soleNs) (Sys.init init) bs = .ok s.sys ∧
      Meets (KernelPid.sysStep plainList soleNs) FreesLive (Sys.init init) bs ∧
      ∀ task type p, s.tasks.IsAttached task type p →
        s.tasks.taskPid task type = some p ∧ p ∈ s.sys.live :=
  attached_pids_are_published soleNs deThread (by decide)

/-- In every run whose callers keep to the rules, a pid that some task was attached to at some time
is published from then on as long as a task is attached to it, and not after that. -/
theorem published_while_attached (T : PidNsTree ι) (as bs : List (TaskAct ι))
    (hrule : Meets (taskStep plainList T) CallerRule (TaskSys.init init) (as ++ bs)) :
    ∃ s s', run (taskStep plainList T) (TaskSys.init init) as = .ok s ∧
      run (taskStep plainList T) s bs = .ok s' ∧
      ∀ p, s.tasks.Used p → (p ∈ s'.sys.live ↔ s'.tasks.Used p) := by
  obtain ⟨s, hrun, S, h⟩ := run_invariant
    (I := fun s : TaskSys (PidSkiplist PidAddr) ι => ∃ S, TaskInv T s S)
    (fun s a ⟨S, h⟩ ha => by
      obtain ⟨s', S', hstep, hst⟩ := taskStep_stepped h ha
      exact ⟨s', hstep, S', hst.inv⟩)
    ⟨_, taskInv_init⟩ hrule.left
  obtain ⟨s', hrun', S', -, hp⟩ := run_invariant
    (I := fun s' : TaskSys (PidSkiplist PidAddr) ι => ∃ S', TaskInv T s' S' ∧
      ∀ p, s.tasks.Used p → Settled T S' p ∧ (p ∈ s'.sys.live ↔ s'.tasks.Used p))
    (fun s₁ a ⟨S₁, h₁, hp⟩ ha => by
      obtain ⟨s₂, S₂, hstep, hst⟩ := taskStep_stepped h₁ ha
      refine ⟨s₂, hstep, S₂, hst.inv, fun p hused => ?_⟩
      exact hst.published_iff_used h₁ (hp p hused).1 (hp p hused).2)
    ⟨S, h, fun p hused => by
      obtain ⟨task, type, hatt⟩ := hused
      have hp := h.attached.live hatt
      exact ⟨h.shape.live (h.sim.live ▸ hp), iff_of_true hp ⟨task, type, hatt⟩⟩⟩ (hrule.split hrun)
  exact ⟨s, s', hrun, hrun', fun p hused => (hp p hused).2⟩

/-- The thread that took the leader's place exits, too. -/
theorem published_while_attached_deThread :
    ∃ s s', run (taskStep plainList soleNs) (TaskSys.init init) deThread = .ok s ∧
      run (taskStep plainList soleNs) s [.detachPid 1 .pid, .detachPid 1 .tgid] = .ok s' ∧
      ∀ p, s.tasks.Used p → (p ∈ s'.sys.live ↔ s'.tasks.Used p) :=
  published_while_attached soleNs deThread _ (by decide)

end Steps

end KernelPid
