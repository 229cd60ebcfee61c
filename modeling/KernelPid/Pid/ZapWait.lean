import KernelPid.Lib.WaitLoop
import KernelPid.Pid.Notices

/-!
# The last loop of `zap_pid_ns_processes`

The init process of a namespace `n` that exits shuts the namespace, kills everyone in it, and then
waits until `pid_allocated` is down to the pids of its own threads. Meanwhile pids are allocated,
also in namespaces below `n`, and freed. The reaper reads `pid_allocated` without the lock, so it
may do so between a `free_pid`'s decrement and its wakeup. `zap_leaves_iff` says what the loop waits
for, and `no_lost_wakeup` that it does not wait for ever: once this has come true the reaper is
awake, or the wakeup is on its way.
-/

namespace KernelPid

open Runs PidSkiplist WaitLoop

variable {σ ι : Type}

/-! ## The code -/

/-- A task in `zap_pid_ns_processes`; `own` are the pids of its thread group. -/
structure Zap where
  leader : Bool
  own : List PidAddr
  waiter : Waiter

/-- `int init_pids = thread_group_leader(me) ? 1 : 2` -/
def Zap.initPids (z : Zap) : BitVec 32 := if z.leader then 1 else 2

/-- The pids with the calls of `alloc_pid`, and the reaper of one namespace; `waking` is set while a
`free_pid` has decremented `pid_allocated` and has not yet called `wake_up_process`. -/
structure ZapSys (σ ι : Type) where
  sys : Sys σ ι
  zap : Option Zap
  waking : Bool

/-- A step of the pids, the wakeup of a `free_pid` that is under way, the beginning of
`zap_pid_ns_processes`, or the next step of its last loop. -/
inductive ZapAct (ι : Type)
  | pids (a : Act ι)
  | wake
  | enter (leader : Bool) (own : List PidAddr)
  | wait

/-- No call has run. -/
def ZapSys.init (sl : σ) : ZapSys σ ι where
  sys := Sys.init sl
  zap := none
  waking := false

section Steps

variable [DecidableEq ι]

/-- `pid_ns->pid_allocated == init_pids` -/
def ZapSys.cond (s : ZapSys σ ι) (n : ι) (z : Zap) : Bool :=
  (s.sys.K.ns n).pidAllocated = z.initPids

/-- One step. While a `free_pid` is about to wake the reaper it has `pidmap_lock`, which the
others wait for. -/
def zapStep (B : PidList σ) (T : PidNsTree ι) (n : ι) (s : ZapSys σ ι) :
    ZapAct ι → Except Fault (ZapSys σ ι)
  | .pids a =>
    if s.waking then .ok s
    else match a with
      | .free p =>
        if p ∈ s.sys.live then do
          let (K, notices) ← freePidNotices B s.sys.K p
          .ok { s with
            sys := { s.sys with K, live := s.sys.live.erase p }
            waking := (n, .wakeReaper) ∈ notices }
        else .ok s
      | a => do
        let sys ← sysStep B T s.sys a
        .ok { s with sys }
  | .wake =>
    if s.waking then
      .ok { s with zap := s.zap.map fun z => { z with waiter := z.waiter.wake }, waking := false }
    else .ok s
  | .enter leader own =>
    if s.waking then .ok s
    else match s.zap with
      | some _ => .ok s
      | none => .ok { s with
          sys := { s.sys with K := disablePidAllocation s.sys.K n }
          zap := some { leader, own, waiter := .start } }
  | .wait =>
    match s.zap with
    | none => .ok s
    | some z => .ok { s with zap := some { z with waiter := z.waiter.step (s.cond n z) } }

theorem zapStep_pids {B : PidList σ} {T : PidNsTree ι} {n : ι} {s : ZapSys σ ι} {a : Act ι}
    (hw : s.waking = false) (ha : ∀ p, a ≠ .free p) : zapStep B T n s (.pids a) = (do
      let sys ← sysStep B T s.sys a
      .ok { s with sys }) := by
  cases a with
  | free p => exact absurd rfl (ha p)
  | start | step | disable | writeLastPid => simp only [zapStep, hw, if_neg Bool.false_ne_true]

theorem zapStep_wait {B : PidList σ} {T : PidNsTree ι} {n : ι} {s : ZapSys σ ι} {z : Zap}
    (hz : s.zap = some z) (hcond : s.cond n z = true) : zapStep B T n s .wait =
      .ok { s with zap := some { z with waiter := z.waiter.step true } } := by
  simp only [zapStep, hz, hcond]

/-- The exiting task is the last one of the init process, and its own pid and that of its leader
stay published as long as it is in the loop. -/
def ZapRule (n : ι) (s : ZapSys σ ι) : ZapAct ι → Prop
  | .pids (.free p) => ∀ z ∈ s.zap, z.waiter.pc ≠ .done → p ∉ z.own
  | .pids _ | .wake | .wait => True
  | .enter leader own => own.Nodup ∧ own.length = (if leader then 1 else 2) ∧
      ∀ p ∈ own, p ∈ s.sys.live ∧ (s.sys.K.pid p).any (fun d => d.hasNumberIn n) = true

instance decidableZapRule (n : ι) (s : ZapSys σ ι) : ∀ a, Decidable (ZapRule n s a)
  | .pids (.free p) => inferInstanceAs (Decidable (∀ z ∈ s.zap, z.waiter.pc ≠ .done → p ∉ z.own))
  | .pids (.start _ _ _) | .pids (.step _) | .pids (.disable _) | .pids (.writeLastPid _ _)
  | .wake | .wait =>
    instDecidableTrue
  | .enter leader own =>
      inferInstanceAs (Decidable (own.Nodup ∧ own.length = (if leader then 1 else 2) ∧
      ∀ p ∈ own, p ∈ s.sys.live ∧ (s.sys.K.pid p).any (fun d => d.hasNumberIn n) = true))

end Steps

/-! ## What the loop waits for -/

variable [DecidableEq ι] {T : PidNsTree ι} {S S' : MapSys ι} {n : ι} {z : Zap}

/-- A reaper that is in the loop, in the shut namespace `n`. -/
structure Zap.Waits (n : ι) (S : MapSys ι) (z : Zap) : Prop where
  shut : ¬ (S.K.ns n).Adding
  nodup : z.own.Nodup
  length : z.own.length = if z.leader then 1 else 2
  own : ∀ p ∈ z.own, p ∈ S.live ∧ ∃ nr, S.K.Owns p nr n

/-- The condition of the loop, by the count of the published pids. -/
theorem cond_iff_livePids (hcount : S.CountsLive) (hshut : ¬ (S.K.ns n).Adding)
    (hlength : z.own.length = if z.leader then 1 else 2) :
    (S.K.ns n).pidAllocated = z.initPids ↔ S.livePids n = z.own.length := by
  have hword : (S.K.ns n).pidAllocated.toNat = S.livePids n := by
    rcases FlagWord.toNat_cases (w := 31) (S.K.ns n).pidAllocated with ⟨-, hx⟩ | ⟨hadd, -⟩
    · exact hx.trans (hcount n)
    · exact absurd hadd hshut
  have hinit : z.initPids.toNat = z.own.length := by
    rw [hlength, Zap.initPids]
    split <;> rfl
  rw [← BitVec.toNat_inj, hword, hinit]

section Own

variable {own : List PidAddr} (hS : SysShape T S) (hnodup : own.Nodup)
  (hown : ∀ p ∈ own, p ∈ S.live ∧ ∃ nr, S.K.Owns p nr n)
include hS hnodup hown

theorem own_subperm :
    own.Subperm (S.live.filter fun p => (S.K.pid p).any fun d => d.hasNumberIn n) := by
  refine hnodup.subperm fun p hp => ?_
  obtain ⟨hlive, ho⟩ := hown p hp
  exact List.mem_filter.mpr ⟨hlive, (hS.hasNumberIn_iff hlive n).mpr ho⟩

theorem own_length_le : own.length ≤ S.livePids n := by
  rw [Sys.livePids, List.countP_eq_length_filter]
  exact (own_subperm hS hnodup hown).length_le

/-- The count is down to the pids `own` when these are all that is published. -/
theorem livePids_eq_iff :
    S.livePids n = own.length ↔ ∀ p ∈ S.live, (∃ nr, S.K.Owns p nr n) → p ∈ own := by
  have hsub := own_subperm hS hnodup hown
  rw [Sys.livePids, List.countP_eq_length_filter]
  constructor
  · intro heq p hp ho
    refine (hsub.perm_of_length_le (le_of_eq heq)).mem_iff.mpr (List.mem_filter.mpr ⟨hp, ?_⟩)
    exact (hS.hasNumberIn_iff hp n).mpr ho
  · intro hall
    refine le_antisymm ((hS.nodup.filter _).subperm fun p hp => ?_).length_le hsub.length_le
    obtain ⟨hlive, hhas⟩ := List.mem_filter.mp hp
    exact hall p hlive ((hS.hasNumberIn_iff hlive n).mp hhas)

end Own

/-! ## Steps of the pids -/

section SysSteps

variable {a : Act ι} {p : PidAddr}

/-- No step writes to the `struct pid` of a published pid. -/
theorem SysStep.pid_of_live (h : SysStep T S a S') (hS : SysShape T S) (hp : p ∈ S.live) :
    S'.K.pid p = S.K.pid p := by
  cases h with
  | start ns env _ => exact Function.update_of_ne (Nat.ne_of_lt (hS.live hp).lt_brk) _ _
  | step ht hstep => exact hstep.pid_of_live hS ht hp
  | skip | startFailed | free | disable | writeLastPid => rfl

/-- Only `free_pid` takes from the count. -/
theorem SysStep.livePids_mono (h : SysStep T S a S') (hS : SysShape T S) (ha : ∀ p, a ≠ .free p)
    (n : ι) : S.livePids n ≤ S'.livePids n := by
  simp only [Sys.livePids, List.countP_eq_length_filter]
  refine ((hS.nodup.filter _).subperm fun p hp => ?_).length_le
  obtain ⟨hlive, hhas⟩ := List.mem_filter.mp hp
  refine List.mem_filter.mpr ⟨h.mem_live hlive (ha p), ?_⟩
  rw [h.pid_of_live hS hlive]
  exact hhas

/-- A reaper stays in the loop, unless its own pids are freed. -/
theorem Zap.Waits.keep (hw : z.Waits n S) (h : SysStep T S a S') (hS : SysShape T S)
    (hadding : (S'.K.ns n).Adding → (S.K.ns n).Adding) (hown : ∀ p ∈ z.own, a ≠ .free p) :
    z.Waits n S' where
  shut hadd := hw.shut (hadding hadd)
  nodup := hw.nodup
  length := hw.length
  own p hp := by
    obtain ⟨hlive, nr, ho⟩ := hw.own p hp
    refine ⟨h.mem_live hlive (hown p hp), nr, ?_⟩
    rwa [Kernel.owns_congr (h.pid_of_live hS hlive)]

end SysSteps

/-! ## The invariant -/

variable {s : ZapSys (PidSkiplist PidAddr) ι}

/-- The invariant of every run. -/
structure ZapInv (T : PidNsTree ι) (n : ι) (s : ZapSys (PidSkiplist PidAddr) ι) (S : MapSys ι) :
    Prop where
  sim : SysSim Represents s.sys S
  shape : SysShape T S
  count : S.CountsLive
  zap : ∀ z ∈ s.zap, z.waiter.pc ≠ .done → z.Waits n S
  alert : s.waking = false → ∀ z ∈ s.zap, z.waiter.pc ≠ .done → z.waiter.Alert (s.cond n z)

theorem zapInv_init : ZapInv T n (ZapSys.init init) (Sys.init fun _ => none) where
  sim := sysSim_init represents_init
  shape := sysShape_init
  count := countsLive_init
  zap z hz := by simp [ZapSys.init] at hz
  alert _ z hz := by simp [ZapSys.init] at hz

omit [DecidableEq ι] in
theorem SysSim.cond_iff (hs : SysSim Represents s.sys S) :
    s.cond n z = true ↔ (S.K.ns n).pidAllocated = z.initPids := by
  rw [ZapSys.cond, (hs.K.ns n).pidAllocated, decide_eq_true_iff]

/-- The condition in terms of the count, in a state of the invariant. -/
theorem ZapInv.cond_iff_livePids (h : ZapInv T n s S) (hw : z.Waits n S) :
    s.cond n z = true ↔ S.livePids n = z.own.length := by
  rw [h.sim.cond_iff, KernelPid.cond_iff_livePids h.count hw.shut hw.length]

/-- A step of the pids, which leaves the reaper where it is. It makes the condition true only if it
was true before, or if it wakes the reaper. -/
theorem ZapInv.of_sysStep (h : ZapInv T n s S) {a : Act ι} {sys : Sys (PidSkiplist PidAddr) ι}
    {waking : Bool} (hs' : SysSim Represents sys S') (hS' : SysStep T S a S')
    (hfew : sys.live.length < 2 ^ 31) (hidle : s.waking = false)
    (hown : ∀ z ∈ s.zap, z.waiter.pc ≠ .done → ∀ p ∈ z.own, a ≠ .free p)
    (hwake : waking = false →
      ∀ z : Zap, z.Waits n S → S'.livePids n = z.own.length → S.livePids n = z.own.length) :
    ZapInv T n { s with sys, waking } S' := by
  obtain ⟨hcount', hadding⟩ := hS'.countsLive h.shape h.count (by rwa [← hs'.live])
  have hwaits : ∀ z ∈ s.zap, z.waiter.pc ≠ .done → z.Waits n S' := fun z hz hpc =>
    (h.zap z hz hpc).keep hS' h.shape (hadding n) (hown z hz hpc)
  refine ⟨hs', hS'.shape h.shape, hcount', hwaits, fun hidle' z hz hpc => ?_⟩
  refine (h.alert hidle z hz hpc).mono fun hcond => ?_
  have hw := hwaits z hz hpc
  have hcond := (SysSim.cond_iff (s := { s with sys, waking }) hs').mp hcond
  rw [KernelPid.cond_iff_livePids hcount' hw.shut hw.length] at hcond
  exact (h.cond_iff_livePids (h.zap z hz hpc)).mpr (hwake hidle' z (h.zap z hz hpc) hcond)

/-- A step of the pids other than a `free_pid` does not make the condition true: the count was at
least that of the reaper's own pids. -/
theorem ZapInv.pidsStep (h : ZapInv T n s S) (hidle : s.waking = false) {a : Act ι}
    (ha : ∀ p, a ≠ .free p) :
    ∃ s' S', zapStep plainList T n s (.pids a) = .ok s' ∧ SysSim Represents s'.sys S' ∧
      (s'.sys.live.length < 2 ^ 31 → ZapInv T n s' S') := by
  obtain ⟨sys, S', hstep, hs', hS', -⟩ := sysStep_counts h.sim h.shape h.count a
  refine ⟨{ s with sys }, S', by rw [zapStep_pids hidle ha, hstep, ok_bind], hs', fun hfew => ?_⟩
  refine h.of_sysStep hs' hS' hfew hidle (fun _ _ _ p _ => ha p) fun _ z hw hcond => ?_
  have hmono := hS'.livePids_mono h.shape ha n
  have hle := own_length_le h.shape hw.nodup hw.own
  omega

/-- A `free_pid` that takes the last other pid of the namespace is about to wake the reaper. -/
theorem ZapInv.freeStep (h : ZapInv T n s S) (hidle : s.waking = false) {p : PidAddr}
    (hp : p ∈ s.sys.live) (hown : ∀ z ∈ s.zap, z.waiter.pc ≠ .done → p ∉ z.own) :
    ∃ s' S', zapStep plainList T n s (.pids (.free p)) = .ok s' ∧ SysSim Represents s'.sys S' ∧
      (s'.sys.live.length < 2 ^ 31 → ZapInv T n s' S') := by
  obtain ⟨sys, S', notices, hrun, hs', hS', hnotices, hiff⟩ :=
    h.shape.freePidNotices h.sim h.count hp
  simp only [sysStep, if_pos hp] at hrun
  cases hfree : freePid plainList s.sys.K p with
  | error e => simp [hfree] at hrun
  | ok K =>
      rw [hfree, ok_bind] at hrun
      obtain rfl := Except.ok.inj hrun
      refine ⟨{ s with
        sys := { s.sys with K, live := s.sys.live.erase p }
        waking := (n, Notice.wakeReaper) ∈ notices }, S', ?_, hs', fun hfew => ?_⟩
      · simp only [zapStep, hidle, if_neg Bool.false_ne_true, if_pos hp, hnotices, ok_bind]
      · refine h.of_sysStep hs' hS' hfew hidle ?_ fun hnone z hw hcond => ?_
        · rintro z hz hpc q hq heq
          obtain rfl := Act.free.inj heq
          exact hown z hz hpc hq
        · -- at this count the reaper is woken, unless the pid was not in the namespace
          rw [← hcond]
          refine ((hiff n).1 fun ho => ?_).symm
          refine of_decide_eq_false hnone ((hiff n).2.2.mpr ⟨ho, fun hadd => ?_, ?_⟩)
          · exact hw.shut ((h.sim.adding_iff n).mp hadd)
          · rw [hcond, hw.length]
            split <;> simp

/-- The beginning: the namespace is shut, and the reaper is in front of the loop. -/
theorem ZapInv.enterStep (h : ZapInv T n s S) (hidle : s.waking = false) (hnone : s.zap = none)
    {leader : Bool} {own : List PidAddr} (hrule : ZapRule n s (.enter leader own)) :
    ∃ s' S', zapStep plainList T n s (.enter leader own) = .ok s' ∧ SysSim Represents s'.sys S' ∧
      (s'.sys.live.length < 2 ^ 31 → ZapInv T n s' S') := by
  obtain ⟨hnodup, hlength, hown⟩ := hrule
  have hdisable : SysStep T S (.disable n) { S with K := disablePidAllocation S.K n } := .disable n
  have hs' : SysSim Represents { s.sys with K := disablePidAllocation s.sys.K n }
      { S with K := disablePidAllocation S.K n } :=
    ⟨h.sim.K.disablePidAllocation n, h.sim.calls, h.sim.live⟩
  refine ⟨{ s with
    sys := { s.sys with K := disablePidAllocation s.sys.K n }
    zap := some { leader, own, waiter := .start } }, _, ?_, hs', fun hfew => ?_⟩
  · simp only [zapStep, hidle, if_neg Bool.false_ne_true, hnone]
  · obtain ⟨hcount', -⟩ := hdisable.countsLive h.shape h.count (by rwa [← hs'.live])
    refine ⟨hs', hdisable.shape h.shape, hcount', fun z hz _ => ?_, fun _ z hz _ => ?_⟩
    · obtain rfl := Option.some.inj hz
      refine ⟨?_, hnodup, hlength, fun p hp => ?_⟩
      · refine (PidNamespace.count_clear (a := S.K.ns n) ?_).2
        simp [disablePidAllocation, Kernel.setNs]
      · obtain ⟨hlive, hhas⟩ := hown p hp
        rw [h.sim.live] at hlive
        rw [h.sim.K.pid, h.shape.hasNumberIn_iff hlive] at hhas
        exact ⟨hlive, hhas⟩
    · obtain rfl := Option.some.inj hz
      exact alert_start

/-- The reaper is woken. -/
theorem ZapInv.wakeStep (h : ZapInv T n s S) :
    ZapInv T n { s with
      zap := s.zap.map fun z => { z with waiter := z.waiter.wake }
      waking := false } S := by
  refine ⟨h.sim, h.shape, h.count, fun z' hz' hpc => ?_, fun _ z' hz' _ => ?_⟩
  · obtain ⟨z, hz, rfl⟩ := Option.map_eq_some_iff.mp hz'
    have hw := h.zap z hz hpc
    exact ⟨hw.shut, hw.nodup, hw.length, hw.own⟩
  · obtain ⟨z, hz, rfl⟩ := Option.map_eq_some_iff.mp hz'
    exact alert_wake

/-- The reaper takes its next step. -/
theorem ZapInv.waitStep (h : ZapInv T n s S) (hz : s.zap = some z) :
    ZapInv T n { s with zap := some { z with waiter := z.waiter.step (s.cond n z) } } S := by
  have hdone : (z.waiter.step (s.cond n z)).pc ≠ .done → z.waiter.pc ≠ .done := by
    intro hpc hdone
    simp [Waiter.step, hdone] at hpc
  refine ⟨h.sim, h.shape, h.count, fun z' hz' hpc => ?_, fun hidle z' hz' hpc => ?_⟩
  · obtain rfl := Option.some.inj hz'
    have hw := h.zap z hz (hdone hpc)
    exact ⟨hw.shut, hw.nodup, hw.length, hw.own⟩
  · obtain rfl := Option.some.inj hz'
    exact (h.alert hidle z hz (hdone hpc)).step

/-- Every step that keeps to the rules keeps the invariant, as long as there are few enough
live pids. -/
theorem zapStep_inv (h : ZapInv T n s S) {a : ZapAct ι} (hrule : ZapRule n s a) :
    ∃ s' S', zapStep plainList T n s a = .ok s' ∧ SysSim Represents s'.sys S' ∧
      (s'.sys.live.length < 2 ^ 31 → ZapInv T n s' S') := by
  cases a with
  | pids a =>
      cases hidle : s.waking with
      | true => exact ⟨s, S, by simp only [zapStep, hidle, if_true], h.sim, fun _ => h⟩
      | false =>
          by_cases hfree : ∃ p, a = .free p
          · obtain ⟨p, rfl⟩ := hfree
            by_cases hp : p ∈ s.sys.live
            · exact h.freeStep hidle hp hrule
            · refine ⟨s, S, ?_, h.sim, fun _ => h⟩
              simp only [zapStep, hidle, if_neg Bool.false_ne_true, if_neg hp]
          · exact h.pidsStep hidle fun p hp => hfree ⟨p, hp⟩
  | wake =>
      cases hidle : s.waking with
      | true =>
          refine ⟨{ s with
            zap := s.zap.map fun z => { z with waiter := z.waiter.wake }
            waking := false }, S, ?_, h.sim, fun _ => h.wakeStep⟩
          simp only [zapStep, hidle, if_true]
      | false =>
          refine ⟨s, S, ?_, h.sim, fun _ => h⟩
          simp only [zapStep, hidle, if_neg Bool.false_ne_true]
  | enter leader own =>
      cases hidle : s.waking with
      | true => exact ⟨s, S, by simp only [zapStep, hidle, if_true], h.sim, fun _ => h⟩
      | false =>
          cases hz : s.zap with
          | none => exact h.enterStep hidle hz hrule
          | some z =>
              refine ⟨s, S, ?_, h.sim, fun _ => h⟩
              simp only [zapStep, hidle, if_neg Bool.false_ne_true, hz]
  | wait =>
      cases hz : s.zap with
      | none => exact ⟨s, S, by simp only [zapStep, hz], h.sim, fun _ => h⟩
      | some z =>
          exact ⟨{ s with zap := some { z with waiter := z.waiter.step (s.cond n z) } }, S,
            by simp only [zapStep, hz], h.sim, fun _ => h.waitStep hz⟩

/-! ## Runs -/

/-- While fewer than `2 ^ 31` pids are live at once, the runs that keep to the rules keep the
invariant. -/
theorem zap_run (T : PidNsTree ι) (n : ι) (as : List (ZapAct ι))
    (hrule : Meets (zapStep plainList T n) (ZapRule n) (ZapSys.init init) as)
    (hfew : Throughout (zapStep plainList T n) (fun s => s.sys.live.length < 2 ^ 31)
      (ZapSys.init init) as) :
    ∃ s S, run (zapStep plainList T n) (ZapSys.init init) as = .ok s ∧ ZapInv T n s S := by
  obtain ⟨s, hrun, S, h⟩ := run_invariant_of
    (I := fun s : ZapSys (PidSkiplist PidAddr) ι => ∃ S, ZapInv T n s S)
    (fun s a ⟨S, h⟩ _ ha => by
      obtain ⟨s', S', hstep, -, hinv⟩ := zapStep_inv h ha
      exact ⟨s', hstep, fun hfew => ⟨S', hinv hfew⟩⟩)
    ⟨_, zapInv_init⟩ hfew hrule
  exact ⟨s, S, hrun, h⟩

/-- A reaper in the loop would leave it now if and only if no published pid but its own ones has a
number in the namespace. -/
theorem ZapInv.cond_iff_own (h : ZapInv T n s S) (hz : s.zap = some z) (hpc : z.waiter.pc ≠ .done) :
    s.cond n z = true ↔ ∀ p ∈ s.sys.live, (∃ nr, s.sys.K.Owns p nr n) → p ∈ z.own := by
  have hw := h.zap z hz hpc
  rw [h.cond_iff_livePids hw, livePids_eq_iff h.shape hw.nodup hw.own]
  simp only [h.sim.live, h.sim.owns_iff]

/-- While fewer than `2 ^ 31` pids are live at once: in every state of every run, the step in which
the reaper looks at `pid_allocated` leads out of the loop if and only if no published pid but those
of its own thread group has a number in the namespace. -/
theorem zap_leaves_iff (T : PidNsTree ι) (n : ι) (as : List (ZapAct ι))
    (hrule : Meets (zapStep plainList T n) (ZapRule n) (ZapSys.init init) as)
    (hfew : Throughout (zapStep plainList T n) (fun s => s.sys.live.length < 2 ^ 31)
      (ZapSys.init init) as) :
    ∃ s, run (zapStep plainList T n) (ZapSys.init init) as = .ok s ∧
      ∀ z, s.zap = some z → z.waiter.pc = .check →
        ∃ s' z', zapStep plainList T n s .wait = .ok s' ∧ s'.zap = some z' ∧
          (z'.waiter.pc = .done ↔ ∀ p ∈ s.sys.live, (∃ nr, s.sys.K.Owns p nr n) → p ∈ z.own) := by
  obtain ⟨s, S, hrun, h⟩ := zap_run T n as hrule hfew
  refine ⟨s, hrun, fun z hz hpc => ?_⟩
  refine ⟨{ s with zap := some { z with waiter := z.waiter.step (s.cond n z) } }, _,
    by simp only [zapStep, hz], rfl, ?_⟩
  rw [← h.cond_iff_own hz (by rw [hpc]; decide)]
  simp only [Waiter.step, hpc]
  split <;> simp_all

/-- An init process waits for its child, which exits while the reaper is about to go to sleep. -/
def waitForChild : List (ZapAct Unit) :=
  [.pids (.start 0 () (grantAll 32768)), .pids (.step 0), .pids (.step 0),
    .pids (.start 1 () (grantAll 32768)), .pids (.step 1), .pids (.step 1),
    .enter true [0], .wait, .wait, .pids (.free 1), .wait, .wake, .wait]

theorem zap_leaves_iff_waitForChild :
    ∃ s, run (zapStep plainList soleNs ()) (ZapSys.init init) waitForChild = .ok s ∧
      ∀ z, s.zap = some z → z.waiter.pc = .check →
        ∃ s' z', zapStep plainList soleNs () s .wait = .ok s' ∧ s'.zap = some z' ∧
          (z'.waiter.pc = .done ↔ ∀ p ∈ s.sys.live, (∃ nr, s.sys.K.Owns p nr ()) → p ∈ z.own) :=
  zap_leaves_iff soleNs () waitForChild (by decide) (by decide)

/-- A wakeup that is on its way comes, and then the reaper takes three steps. -/
theorem run_wake_waits (T : PidNsTree ι) (h : ZapInv T n s S) (hz : s.zap = some z)
    (hpc : z.waiter.pc ≠ .done) (hcond : s.cond n z = true) :
    ∃ s' z', run (zapStep plainList T n) s [.wake, .wait, .wait, .wait] = .ok s' ∧
      s'.zap = some z' ∧ z'.waiter.pc = .done := by
  -- behind the wakeup the reaper is alert in any case
  obtain ⟨s₁, z₁, hwake, hz₁, hcond₁, halert⟩ : ∃ s₁ z₁, zapStep plainList T n s .wake = .ok s₁ ∧
      s₁.zap = some z₁ ∧ s₁.cond n z₁ = true ∧ z₁.waiter.Alert true := by
    cases hidle : s.waking with
    | true =>
        refine ⟨{ s with zap := some { z with waiter := z.waiter.wake }, waking := false },
          { z with waiter := z.waiter.wake }, ?_, rfl, hcond, alert_wake⟩
        simp only [zapStep, hidle, if_true, hz, Option.map_some]
    | false =>
        refine ⟨s, z, by simp only [zapStep, hidle, if_neg Bool.false_ne_true], hz, hcond, ?_⟩
        have halert := h.alert hidle z hz hpc
        rwa [hcond] at halert
  refine ⟨{ s₁ with zap := some { z₁ with waiter := ((z₁.waiter.step true).step true).step true } },
    _, ?_, rfl, halert.done⟩
  have hwait : ∀ w : Waiter, zapStep plainList T n
    { s₁ with zap := some { z₁ with waiter := w } } .wait =
      .ok { s₁ with zap := some { z₁ with waiter := w.step true } } := by
    intro w
    apply zapStep_wait (z := { z₁ with waiter := w })
    · rfl
    · exact hcond₁
  simp only [run, hwake, zapStep_wait hz₁ hcond₁, hwait, ok_bind]

/-- While fewer than `2 ^ 31` pids are live at once: in every state of every run, a reaper that is
blocked waits for a published pid that is not its own, or is about to be woken; and when no such pid
is left, the wakeup, if one is on its way, and three steps of the reaper lead it out of the loop. -/
theorem no_lost_wakeup (T : PidNsTree ι) (n : ι) (as : List (ZapAct ι))
    (hrule : Meets (zapStep plainList T n) (ZapRule n) (ZapSys.init init) as)
    (hfew : Throughout (zapStep plainList T n) (fun s => s.sys.live.length < 2 ^ 31)
      (ZapSys.init init) as) :
    ∃ s, run (zapStep plainList T n) (ZapSys.init init) as = .ok s ∧
      ∀ z, s.zap = some z → z.waiter.pc ≠ .done →
        (z.waiter.Blocked → s.waking = true ∨
          ∃ p ∈ s.sys.live, (∃ nr, s.sys.K.Owns p nr n) ∧ p ∉ z.own) ∧
        ((∀ p ∈ s.sys.live, (∃ nr, s.sys.K.Owns p nr n) → p ∈ z.own) →
          ∃ s' z', run (zapStep plainList T n) s [.wake, .wait, .wait, .wait] = .ok s' ∧
            s'.zap = some z' ∧
            z'.waiter.pc = .done) := by
  obtain ⟨s, S, hrun, h⟩ := zap_run T n as hrule hfew
  refine ⟨s, hrun, fun z hz hpc => ⟨fun hblocked => ?_, fun hall => ?_⟩⟩
  · cases hidle : s.waking with
    | true => exact Or.inl rfl
    | false =>
        have hcond : ¬ s.cond n z = true := by simp [h.alert hidle z hz hpc hblocked]
        rw [h.cond_iff_own hz hpc] at hcond
        push Not at hcond
        exact Or.inr hcond
  · exact run_wake_waits T h hz hpc ((h.cond_iff_own hz hpc).mpr hall)

theorem no_lost_wakeup_waitForChild :
    ∃ s, run (zapStep plainList soleNs ()) (ZapSys.init init) waitForChild = .ok s ∧
      ∀ z, s.zap = some z → z.waiter.pc ≠ .done →
        (z.waiter.Blocked → s.waking = true ∨
          ∃ p ∈ s.sys.live, (∃ nr, s.sys.K.Owns p nr ()) ∧ p ∉ z.own) ∧
        ((∀ p ∈ s.sys.live, (∃ nr, s.sys.K.Owns p nr ()) → p ∈ z.own) →
          ∃ s' z', run (zapStep plainList soleNs ()) s [.wake, .wait, .wait, .wait] = .ok s' ∧
            s'.zap = some z' ∧ z'.waiter.pc = .done) :=
  no_lost_wakeup soleNs () waitForChild (by decide) (by decide)

end KernelPid
