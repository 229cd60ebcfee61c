import KernelPid.Lib.GracePeriods
import KernelPid.Lifetime.Tree

/-!
# Pids that are found by readers (`skiplist/pid.c`)

`find_get_pid` takes a reference to a pid that it has found in a list, and `get_task_pid` to that of
a task, with nothing but `rcu_read_lock` in between: `free_pid` may have taken the pid out
meanwhile, and others may drop all their references. The reference that the list had goes with
`delayed_put_pid`, which is given to `call_rcu`, so the pid is there until the section ends.

A reader may be slow: within its section, `find_vpid` may return any pid that was in the list at
some time since the section began. `synchronize_rcu` does not wait here, as in `Lifetime.Basic`.
-/

namespace KernelPid.Lifetime

open Runs Tally GracePeriods

/-- Where a thread stands in `find_get_pid`. -/
inductive ReaderPc
  | idle
  /-- Behind `rcu_read_lock()`. -/
  | locked
  /-- `find_vpid(nr)` has returned `pid`. -/
  | found (pid : Option PidAddr)
  /-- `get_pid(pid)` has returned. -/
  | got (pid : Option PidAddr)
deriving DecidableEq

/-- The kernel, the grace periods of the callbacks that it has queued, and the threads. -/
structure ReaderSys where
  w : World
  gp : GracePeriods.State ℕ RcuHead
  reader : ℕ → ReaderPc

/-- The next statement of `find_get_pid`, or another call. -/
inductive ReaderAct
  | rcuReadLock (r : ℕ)
  | findVpid (r : ℕ) (pid : Option PidAddr)
  | getPid (r : ℕ)
  | rcuReadUnlock (r : ℕ)
  | call (a : Act)

namespace ReaderSys

/-- Thread `r` can find the pid `p` in its section. -/
def Finds (s : ReaderSys) (r : ℕ) (p : PidAddr) : Prop :=
  s.gp.Seen RcuHead.delayedPutPid s.w.live s.w.K.rcu r p

instance decidableFinds (s : ReaderSys) (r : ℕ) (p : PidAddr) : Decidable (s.Finds r p) :=
  inferInstanceAs (Decidable (s.gp.Seen RcuHead.delayedPutPid s.w.live s.w.K.rcu r p))

/-- A callback is not executed before its grace period is over. -/
def Allows (s : ReaderSys) : Act → Prop
  | .callback g => s.gp.Expired g
  | _ => True

instance decidableAllows (s : ReaderSys) (a : Act) : Decidable (s.Allows a) :=
  match a with
  | .callback g => inferInstanceAs (Decidable (s.gp.Expired g))
  | .createPidNamespace _ _ | .getPidNs _ | .putPidNs _ | .allocPid _ _ | .freePid _ | .getPid _
  | .putPid _ =>
    instDecidableTrue

/-- Thread `r` goes on to `pc`. -/
def goto (s : ReaderSys) (r : ℕ) (pc : ReaderPc) : ReaderSys :=
  { s with reader := Function.update s.reader r pc }

/-- No thread is in `find_get_pid`. -/
def init : ReaderSys where
  w := World.init
  gp := { sections := [], waits := fun _ => [] }
  reader _ := .idle

end ReaderSys

/-- One step. A statement that is not the next one of its thread, and a callback before its time,
are no steps. -/
def readerStep (maxPidNsLevel : ℕ) (s : ReaderSys) : ReaderAct → Except Fault ReaderSys
  | .rcuReadLock r =>
    if s.reader r = .idle then .ok { s.goto r .locked with gp := s.gp.lock r } else .ok s
  | .findVpid r pid =>
    if s.reader r = .locked ∧ ∀ p ∈ pid, s.Finds r p then .ok (s.goto r (.found pid)) else .ok s
  | .getPid r =>
    match s.reader r with
    | .found none => .ok (s.goto r (.got none))
    | .found (some p) => do
      let K ← s.w.K.getPid p
      .ok { s.goto r (.got (some p)) with w := { s.w with K, pidRefs := addRef s.w.pidRefs p } }
    | _ => .ok s
  | .rcuReadUnlock r =>
    match s.reader r with
    | .got _ => .ok { s.goto r .idle with gp := s.gp.unlock r }
    | _ => .ok s
  | .call a =>
    if s.Allows a then do
      let w ← step maxPidNsLevel s.w a
      .ok { s with w, gp := s.gp.requeue s.w.K.rcu w.K.rcu }
    else .ok s

/-! ## The queue -/

variable {K K' K'' : Objects} {n : NsAddr} {p : PidAddr} {maxPidNsLevel : ℕ}

/-- `K'` has the callbacks of `K` in its queue, and no others that put a pid. -/
structure KeepsQueue (K K' : Objects) : Prop where
  mem : ∀ g ∈ K.rcu, g ∈ K'.rcu
  puts : ∀ p, K'.rcu.count (.delayedPutPid p) = K.rcu.count (.delayedPutPid p)

theorem KeepsQueue.of_eq (h : K'.rcu = K.rcu) : KeepsQueue K K' :=
  ⟨fun g hg => h ▸ hg, fun p => by rw [h]⟩

theorem KeepsQueue.trans (h : KeepsQueue K K') (h' : KeepsQueue K' K'') : KeepsQueue K K'' :=
  ⟨fun g hg => h'.mem g (h.mem g hg), fun p => (h'.puts p).trans (h.puts p)⟩

theorem getPidNs_queue (h : K.getPidNs n = .ok K') : KeepsQueue K K' := by
  unfold Objects.getPidNs at h
  split at h
  · obtain rfl := Except.ok.inj h
    exact .of_eq rfl
  · obtain ⟨d, -, h⟩ := bind_eq_ok.mp h
    obtain rfl := Except.ok.inj h
    exact .of_eq rfl

theorem krefPut_queue {last : Bool} (h : K.krefPut n = .ok (K', last)) : KeepsQueue K K' := by
  obtain ⟨d, -, h⟩ := bind_eq_ok.mp h
  split at h
  · exact absurd h (by simp)
  · obtain ⟨rfl, -⟩ := Prod.mk.inj (Except.ok.inj h)
    exact ⟨fun g hg => List.mem_cons_of_mem _ hg, fun p => List.count_cons_of_ne (by simp)⟩
  · obtain ⟨rfl, -⟩ := Prod.mk.inj (Except.ok.inj h)
    exact .of_eq rfl

theorem putPidNsLoop_queue {fuel : ℕ} {o : Option NsAddr}
    (h : Objects.putPidNsLoop fuel o K = .ok K') : KeepsQueue K K' := by
  induction fuel generalizing o K with
  | zero => simp [Objects.putPidNsLoop] at h
  | succ fuel ih =>
      cases o with
      | none => simp [Objects.putPidNsLoop] at h
      | some n =>
          unfold Objects.putPidNsLoop at h
          split at h
          · obtain rfl := Except.ok.inj h
            exact .of_eq rfl
          · obtain ⟨d, -, h⟩ := bind_eq_ok.mp h
            obtain ⟨⟨K₁, last⟩, hput, h⟩ := bind_eq_ok.mp h
            have h₁ := krefPut_queue hput
            cases last with
            | true => exact h₁.trans (ih h)
            | false =>
                obtain rfl := Except.ok.inj h
                exact h₁

theorem putPid_queue (h : K.putPid p = .ok K') : KeepsQueue K K' := by
  obtain ⟨d, -, h⟩ := bind_eq_ok.mp h
  split at h
  · simp at h
  · have hset : KeepsQueue K (K.setPid p none) := .of_eq rfl
    exact hset.trans (putPidNsLoop_queue h)
  · obtain rfl := Except.ok.inj h
    exact .of_eq rfl

/-- A pid is freed once: it is not in the queue before, and not twice behind it. -/
def World.Once (s : World) : Prop := ∀ p, s.live.count p + s.K.rcu.count (.delayedPutPid p) ≤ 1

/-- A step leaves the queue as it is up to what it executes, and a pid that it frees goes there. -/
structure HandsOver (s s' : World) (a : Act) : Prop where
  mem : ∀ g ∈ s.K.rcu, g ∈ s'.K.rcu ∨ a = .callback g
  freed : ∀ p ∈ s.live, p ∈ s'.live ∨ RcuHead.delayedPutPid p ∈ s'.K.rcu
  once : s.Once → s'.Once

variable {s s' : World} {a : Act}

theorem KeepsQueue.handsOver (h : KeepsQueue s.K s'.K) (hlive : s'.live = s.live) :
    HandsOver s s' a where
  mem g hg := Or.inl (h.mem g hg)
  freed p hp := Or.inl (hlive ▸ hp)
  once honce p := by
    rw [hlive, h.puts p]
    exact honce p

/-- A new pid has not been freed before. -/
theorem World.Sound.once_alloc (hs : s.Sound) (h : KeepsQueue s.K s'.K)
    (hlive : s'.live = s.K.pidBrk :: s.live) : HandsOver s s' a := by
  refine ⟨fun g hg => Or.inl (h.mem g hg), fun p hp => Or.inl ?_, fun honce p => ?_⟩
  · rw [hlive]
    exact List.mem_cons_of_mem _ hp
  · have hcount := hs.counted.count s.K.pidBrk
    rw [hs.counted.toShape.pid_pidBrk] at hcount
    simp only [countOf] at hcount
    rw [hlive, h.puts p, List.count_cons]
    by_cases hp : s.K.pidBrk = p
    · subst hp
      simp only [beq_self_eq_true, if_true]
      omega
    · simpa [hp] using honce p

theorem freePid_handsOver (hp : p ∈ s.live)
    (hs' : s' = { s with K := s.K.freePid p, live := s.live.erase p }) : HandsOver s s' a := by
  subst hs'
  refine ⟨fun g hg => Or.inl (List.mem_cons_of_mem _ hg), fun q hq => ?_, fun honce q => ?_⟩
  · by_cases hqp : q = p
    · subst hqp
      exact Or.inr List.mem_cons_self
    · exact Or.inl ((List.mem_erase_of_ne hqp).mpr hq)
  · have hq := honce q
    have herase := count_erase_add hp q
    show (s.live.erase p).count q + List.count _ (RcuHead.delayedPutPid p :: s.K.rcu) ≤ 1
    rw [List.count_cons]
    by_cases hqp : q = p
    · subst hqp
      simp only [beq_self_eq_true, if_true] at herase ⊢
      omega
    · simp only [if_neg hqp] at herase
      simp [Ne.symm hqp]
      omega

theorem rcuCallback_handsOver {g : RcuHead} (h : s.K.rcuCallback g = .ok K') :
    HandsOver s { s with K := K' } (.callback g) := by
  have hqueue : KeepsQueue { s.K with rcu := s.K.rcu.erase g } K' := by
    cases g with
    | delayedPutPid p =>
        obtain ⟨K₁, hput, hdone⟩ := bind_eq_ok.mp h
        obtain rfl := Except.ok.inj hdone
        exact ⟨(putPid_queue hput).mem, (putPid_queue hput).puts⟩
    | delayedFreePidns n =>
        obtain rfl := Except.ok.inj h
        exact .of_eq rfl
  refine ⟨fun g' hg' => ?_, fun p hp => Or.inl hp, fun honce p => ?_⟩
  · by_cases heq : g' = g
    · exact Or.inr (by rw [heq])
    · exact Or.inl (hqueue.mem g' ((List.mem_erase_of_ne heq).mpr hg'))
  · have hle : (s.K.rcu.erase g).count (.delayedPutPid p) ≤ s.K.rcu.count (.delayedPutPid p) :=
      List.erase_sublist.count_le _
    have hp := honce p
    have hputs := hqueue.puts p
    simp only at hputs ⊢
    omega

/-- Every step hands the pids that it frees to their callbacks. -/
theorem step_handsOver (hs : s.Sound) (hrun : step maxPidNsLevel s a = .ok s') :
    HandsOver s s' a := by
  have hskip : HandsOver s s a := KeepsQueue.handsOver (.of_eq rfl) rfl
  cases a with
  | createPidNamespace n made =>
      rcases step_or_skip hrun with ⟨-, hrun⟩ | rfl
      · obtain ⟨⟨K', o⟩, hcreate, hdone⟩ := bind_eq_ok.mp hrun
        have hqueue : KeepsQueue s.K K' := by
          obtain ⟨d, -, hcreate⟩ := bind_eq_ok.mp hcreate
          split at hcreate
          · obtain ⟨rfl, -⟩ := Prod.mk.inj (Except.ok.inj hcreate)
            exact .of_eq rfl
          · split at hcreate
            · obtain ⟨rfl, -⟩ := Prod.mk.inj (Except.ok.inj hcreate)
              exact .of_eq rfl
            · obtain ⟨K₁, hget, hdone⟩ := bind_eq_ok.mp hcreate
              obtain ⟨rfl, -⟩ := Prod.mk.inj (Except.ok.inj hdone)
              exact ⟨(getPidNs_queue hget).mem, (getPidNs_queue hget).puts⟩
        cases o <;> obtain rfl := Except.ok.inj hdone <;> exact hqueue.handsOver rfl
      · exact hskip
  | getPidNs n =>
      rcases step_or_skip hrun with ⟨-, hrun⟩ | rfl
      · obtain ⟨K', hget, hdone⟩ := bind_eq_ok.mp hrun
        obtain rfl := Except.ok.inj hdone
        exact (getPidNs_queue hget).handsOver rfl
      · exact hskip
  | putPidNs n =>
      rcases step_or_skip hrun with ⟨-, hrun⟩ | rfl
      · obtain ⟨K', hput, hdone⟩ := bind_eq_ok.mp hrun
        obtain rfl := Except.ok.inj hdone
        exact (putPidNsLoop_queue hput).handsOver rfl
      · exact hskip
  | allocPid n adding =>
      rcases step_or_skip hrun with ⟨-, hrun⟩ | rfl
      · obtain ⟨⟨K', o⟩, halloc, hdone⟩ := bind_eq_ok.mp hrun
        obtain ⟨K₁, hget, halloc⟩ := bind_eq_ok.mp halloc
        have hqueue := getPidNs_queue hget
        cases adding with
        | true =>
            obtain ⟨rfl, rfl⟩ := Prod.mk.inj (Except.ok.inj halloc)
            obtain rfl := Except.ok.inj hdone
            refine hs.once_alloc ⟨hqueue.mem, hqueue.puts⟩ ?_
            rw [← (getPidNs_same hget).pidBrk]
        | false =>
            obtain ⟨K₂, hput, halloc⟩ := bind_eq_ok.mp halloc
            obtain ⟨rfl, rfl⟩ := Prod.mk.inj (Except.ok.inj halloc)
            obtain rfl := Except.ok.inj hdone
            exact (hqueue.trans (putPidNsLoop_queue hput)).handsOver rfl
      · exact hskip
  | freePid p =>
      rcases step_or_skip hrun with ⟨hp, hrun⟩ | rfl
      · exact freePid_handsOver hp (Except.ok.inj hrun).symm
      · exact hskip
  | getPid p =>
      rcases step_or_skip hrun with ⟨-, hrun⟩ | rfl
      · obtain ⟨K', hget, hdone⟩ := bind_eq_ok.mp hrun
        obtain rfl := Except.ok.inj hdone
        obtain ⟨d, -, hget⟩ := bind_eq_ok.mp hget
        obtain rfl := Except.ok.inj hget
        exact KeepsQueue.handsOver (.of_eq rfl) rfl
      · exact hskip
  | putPid p =>
      rcases step_or_skip hrun with ⟨-, hrun⟩ | rfl
      · obtain ⟨K', hput, hdone⟩ := bind_eq_ok.mp hrun
        obtain rfl := Except.ok.inj hdone
        exact (putPid_queue hput).handsOver rfl
      · exact hskip
  | callback g =>
      rcases step_or_skip hrun with ⟨-, hrun⟩ | rfl
      · obtain ⟨K', hcall, hdone⟩ := bind_eq_ok.mp hrun
        obtain rfl := Except.ok.inj hdone
        exact rcuCallback_handsOver hcall
      · exact hskip

/-! ## The invariant -/

/-- The invariant of every run: what a thread has found it could find now, too. -/
structure ReaderInv (maxPidNsLevel : ℕ) (s : ReaderSys) : Prop where
  grown : s.w.Grown maxPidNsLevel
  once : s.w.Once
  bounded : s.gp.Bounded s.w.K.rcu
  sections : ∀ r, r ∈ s.gp.sections ↔ s.reader r ≠ .idle
  found : ∀ r p, s.reader r = .found (some p) → s.Finds r p

theorem readerInv_init (maxPidNsLevel : ℕ) : ReaderInv maxPidNsLevel ReaderSys.init where
  grown := grown_init maxPidNsLevel
  once p := by simp [ReaderSys.init, World.init]
  bounded g _ r hr := by simp [ReaderSys.init] at hr
  sections r := by simp [ReaderSys.init]
  found r p hr := by simp [ReaderSys.init] at hr

variable {t : ReaderSys} {r r' : ℕ} {pc pc' : ReaderPc}

theorem goto_cases (h : (t.goto r pc).reader r' = pc') :
    (r' = r ∧ pc' = pc) ∨ (r' ≠ r ∧ t.reader r' = pc') := by
  by_cases hr : r' = r
  · subst hr
    exact Or.inl ⟨rfl, h.symm.trans (Function.update_self ..)⟩
  · exact Or.inr ⟨hr, (Function.update_of_ne hr ..).symm.trans h⟩

/-- A pid with references is in memory, and its namespace is used. -/
theorem World.Sound.inMemory (hs : s.Sound) (hpos : 0 < countOf (s.K.pid p)) :
    ∃ d ∈ s.K.pid p, countOf (s.K.pid p) = d.count ∧ s.K.IsUsed d.ns := by
  cases hd : s.K.pid p with
  | none => simp [hd, countOf] at hpos
  | some d =>
      have hholds : s.Holds d.ns := Or.inr ⟨p, d, hd, rfl⟩
      exact ⟨d, rfl, rfl, hholds.used hs⟩

/-- What a thread can find is in memory. -/
theorem ReaderInv.inMemory (h : ReaderInv maxPidNsLevel t) (hp : t.Finds r p) :
    ∃ d ∈ t.w.K.pid p, 0 < d.count ∧ t.w.K.IsUsed d.ns := by
  have hpos : 0 < countOf (t.w.K.pid p) := by
    rw [h.grown.counted.count p]
    rcases hp with hlive | ⟨hmem, -⟩
    · have hlive' := List.count_pos_iff.mpr hlive
      omega
    · have hmem' := List.count_pos_iff.mpr hmem
      omega
  obtain ⟨d, hd, hcount, hused⟩ := h.grown.toSound.inMemory hpos
  exact ⟨d, hd, hcount ▸ hpos, hused⟩

/-- A thread goes on in its section. -/
theorem ReaderInv.goto (h : ReaderInv maxPidNsLevel t) (hr : t.reader r ≠ .idle) (hpc : pc ≠ .idle)
    (hfound : ∀ p, pc = .found (some p) → t.Finds r p) : ReaderInv maxPidNsLevel (t.goto r pc) where
  grown := h.grown
  once := h.once
  bounded := h.bounded
  sections r' := by
    by_cases hr' : r' = r
    · subst hr'
      exact iff_of_true ((h.sections r').mpr hr) (by simpa [ReaderSys.goto] using hpc)
    · simpa [ReaderSys.goto, hr'] using h.sections r'
  found r' p hr' := by
    rcases goto_cases hr' with ⟨rfl, heq⟩ | ⟨-, hold⟩
    · exact hfound p heq.symm
    · exact h.found r' p hold

theorem ReaderInv.lock (h : ReaderInv maxPidNsLevel t) (hr : t.reader r = .idle) :
    ReaderInv maxPidNsLevel { t.goto r .locked with gp := t.gp.lock r } where
  grown := h.grown
  once := h.once
  bounded := h.bounded.lock r
  sections r' := by
    by_cases hr' : r' = r
    · subst hr'
      simp [ReaderSys.goto, State.lock]
    · simpa [ReaderSys.goto, State.lock, hr'] using h.sections r'
  found r' p hr' := by
    rcases goto_cases hr' with ⟨-, heq⟩ | ⟨-, hold⟩
    · simp at heq
    · exact h.found r' p hold

theorem ReaderInv.unlock (h : ReaderInv maxPidNsLevel t) :
    ReaderInv maxPidNsLevel { t.goto r .idle with gp := t.gp.unlock r } where
  grown := h.grown
  once := h.once
  bounded := h.bounded.unlock r
  sections r' := by
    by_cases hr' : r' = r
    · subst hr'
      simp [ReaderSys.goto, State.unlock]
    · simpa [ReaderSys.goto, State.unlock, hr'] using h.sections r'
  found r' p hr' := by
    rcases goto_cases hr' with ⟨-, heq⟩ | ⟨hne, hold⟩
    · simp at heq
    · exact State.Seen.unlock (h.found r' p hold) hne

/-- Another call leaves what the threads have found. -/
theorem ReaderInv.call (h : ReaderInv maxPidNsLevel t) {w : World} (hallow : t.Allows a)
    (hrun : step maxPidNsLevel t.w a = .ok w) (hgrown : w.Grown maxPidNsLevel) :
    ReaderInv maxPidNsLevel { t with w, gp := t.gp.requeue t.w.K.rcu w.K.rcu } := by
  have hover := step_handsOver h.grown.toSound hrun
  refine ⟨hgrown, hover.once h.once, h.bounded.requeue _, h.sections, fun r p hr => ?_⟩
  refine State.Seen.requeue (h.found r p hr) ((h.sections r).mpr (by rw [hr]; simp))
    (fun hlive => ?_) fun g hg => ?_
  · -- it was not in the queue as long as it was not freed
    have hnot : RcuHead.delayedPutPid p ∉ t.w.K.rcu := by
      have honce := h.once p
      have hpos := List.count_pos_iff.mpr hlive
      exact List.count_eq_zero.mp (by omega)
    rcases hover.freed p hlive with hlive' | hmem
    · exact Or.inl hlive'
    · exact Or.inr ⟨hmem, hnot⟩
  · rcases hover.mem g hg with hmem | rfl
    · exact Or.inl hmem
    · exact Or.inr hallow

theorem ReaderInv.getPid (h : ReaderInv maxPidNsLevel t) (hr : t.reader r = .found (some p)) :
    ∃ t', readerStep maxPidNsLevel t (.getPid r) = .ok t' ∧ ReaderInv maxPidNsLevel t' := by
  obtain ⟨d, hd, -⟩ := h.inMemory (h.found r p hr)
  have hsome : (t.w.K.pid p).isSome := Option.isSome_iff_exists.mpr ⟨d, hd⟩
  obtain ⟨w, hrun, hgrown⟩ := h.grown.step (.getPid p)
  have hover := step_handsOver h.grown.toSound hrun
  rw [Lifetime.step, if_pos hsome] at hrun
  obtain ⟨K, hget, hdone⟩ := bind_eq_ok.mp hrun
  obtain rfl := Except.ok.inj hdone
  -- the queue is the same, so the grace periods are those of before
  have hrcu : K.rcu = t.w.K.rcu := by
    obtain ⟨d', -, hget⟩ := bind_eq_ok.mp hget
    obtain rfl := Except.ok.inj hget
    rfl
  refine ⟨{ t.goto r (.got (some p)) with w := { t.w with K, pidRefs := addRef t.w.pidRefs p } },
    ?_, ?_⟩
  · simp only [readerStep, hr, hget, ok_bind]
  · have hgoto : ReaderInv maxPidNsLevel (t.goto r (.got (some p))) :=
      h.goto (by simp [hr]) (by simp) fun q hq => by simp at hq
    refine ⟨hgrown, hover.once h.once, ?_, hgoto.sections, fun r' q hr' => ?_⟩
    · show t.gp.Bounded K.rcu
      rw [hrcu]
      exact h.bounded
    · have hfinds := hgoto.found r' q hr'
      show t.gp.Seen RcuHead.delayedPutPid t.w.live K.rcu r' q
      rw [hrcu]
      exact hfinds

/-- No step faults. -/
theorem ReaderInv.step (h : ReaderInv maxPidNsLevel t) (a : ReaderAct) :
    ∃ t', readerStep maxPidNsLevel t a = .ok t' ∧ ReaderInv maxPidNsLevel t' := by
  cases a with
  | rcuReadLock r =>
      by_cases hr : t.reader r = .idle
      · exact ⟨_, if_pos hr, h.lock hr⟩
      · exact ⟨t, if_neg hr, h⟩
  | findVpid r pid =>
      by_cases hr : t.reader r = .locked ∧ ∀ p ∈ pid, t.Finds r p
      · refine ⟨_, if_pos hr, h.goto (by simp [hr.1]) (by simp) fun p hp => ?_⟩
        exact hr.2 p (by simpa using hp)
      · exact ⟨t, if_neg hr, h⟩
  | getPid r =>
      cases hr : t.reader r with
      | found pid =>
          cases pid with
          | none =>
              refine ⟨t.goto r (.got none), ?_,
                h.goto (by simp [hr]) (by simp) fun p hp => by simp at hp⟩
              simp only [readerStep, hr]
          | some p => exact h.getPid hr
      | idle | locked | got pid => exact ⟨t, by simp only [readerStep, hr], h⟩
  | rcuReadUnlock r =>
      cases hr : t.reader r with
      | got pid =>
          refine ⟨{ t.goto r .idle with gp := t.gp.unlock r }, ?_, h.unlock⟩
          simp only [readerStep, hr]
      | idle | locked | found pid => exact ⟨t, by simp only [readerStep, hr], h⟩
  | call a =>
      by_cases hallow : t.Allows a
      · obtain ⟨w, hrun, hgrown⟩ := h.grown.step a
        refine ⟨_, ?_, h.call hallow hrun hgrown⟩
        simp only [readerStep, if_pos hallow, hrun, ok_bind]
      · exact ⟨t, if_neg hallow, h⟩

/-- However the sections of the readers overlap with calls and callbacks, no run uses memory that
was freed: a pid that a thread has found is in memory when it comes to `get_pid`, with references
and in a namespace that is used; a pid that is referred to stays there; and callbacks wait for
nothing but sections that are under way. -/
theorem find_get_pid_safe (maxPidNsLevel : ℕ) (as : List ReaderAct) :
    ∃ t, run (readerStep maxPidNsLevel) ReaderSys.init as = .ok t ∧
      (∀ r p, t.reader r = .found (some p) → ∃ d ∈ t.w.K.pid p, 0 < d.count ∧ t.w.K.IsUsed d.ns) ∧
      (∀ p, 0 < t.w.pidRefs p → ∃ d ∈ t.w.K.pid p, t.w.pidRefs p ≤ d.count ∧ t.w.K.IsUsed d.ns) ∧
      ∀ g ∈ t.w.K.rcu, ∀ r ∈ t.gp.waits g, t.reader r ≠ .idle := by
  obtain ⟨t, hrun, h⟩ :=
    run_invariant_always (fun _ a h => ReaderInv.step h a) (readerInv_init maxPidNsLevel) as
  refine ⟨t, hrun, fun r p hr => h.inMemory (h.found r p hr), fun p hp => ?_,
    fun g hg r hr => (h.sections r).mp (h.bounded g hg r hr)⟩
  have hcount := h.grown.counted.count p
  obtain ⟨d, hd, heq, hused⟩ := h.grown.toSound.inMemory (p := p) (by omega)
  exact ⟨d, hd, by omega, hused⟩

/-- A pid is freed and put while a thread has found it: its memory is there until
the section ends. -/
example : (run (readerStep 32) ReaderSys.init
    [.call (.allocPid 0 true), .rcuReadLock 0, .findVpid 0 (some 0), .call (.freePid 0),
      .call (.callback (.delayedPutPid 0)), .getPid 0, .rcuReadUnlock 0,
      .call (.callback (.delayedPutPid 0)), .call (.putPid 0)]).toOption.map
      (fun t => (t.w.K.rcu, (t.w.K.pid 0).isSome)) = some ([], false) := by
  decide

end KernelPid.Lifetime
