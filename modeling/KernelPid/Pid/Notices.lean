import KernelPid.Pid.Allocated

/-!
# What `free_pid` sets off

`free_pid` looks at each `pid_allocated` that it has decremented: at 2 and at 1 it wakes the
reaper of the namespace, which may be waiting for the last other process to go, and at 0 it has
the namespace's `proc` mount cleaned up. `freePidNotices` is `freePid` with these notices, and
`free_notices_iff` says in terms of the published pids when each of them is given.
-/

namespace KernelPid

open Runs PidSkiplist Ancestors

variable {σ ι : Type}

/-! ## The code -/

/-- What is done for a namespace whose `pid_allocated` was decremented. -/
inductive Notice
  /-- `wake_up_process(ns->child_reaper)` -/
  | wakeReaper
  /-- `schedule_work(&ns->proc_work)` -/
  | scheduleWork
deriving DecidableEq

/-- `switch (--ns->pid_allocated)` -/
def freeNotice (n : BitVec 32) : Option Notice :=
  if n - 1 = 2 ∨ n - 1 = 1 then some .wakeReaper
  else if n - 1 = pidnsAdding ∨ n - 1 = 0 then some .scheduleWork
  else none

/-- The loop of `free_pid` over the levels `is`, with the notices that it gives. -/
def freeLevels [DecidableEq ι] (B : PidList σ) (d : PidStruct ι) :
    List ℕ → Kernel σ ι → Except Fault (Kernel σ ι × List (ι × Notice))
  | [], K => .ok (K, [])
  | i :: is, K => do
    let u ← d.number i
    let notice := freeNotice (K.ns u.ns).pidAllocated
    let ns ← freeLevel B i u.nr (K.ns u.ns)
    let (K, notices) ← freeLevels B d is (K.setNs u.ns ns)
    .ok (K, (notice.map fun x => (u.ns, x)).toList ++ notices)

/-- `free_pid(pid)`, with its notices. -/
def freePidNotices [DecidableEq ι] (B : PidList σ) (K : Kernel σ ι) (p : PidAddr) :
    Except Fault (Kernel σ ι × List (ι × Notice)) := do
  let d ← K.derefPid p
  freeLevels B d (List.range (d.level + 1)) K

/-! ## One loop -/

section Loop

variable [DecidableEq ι] {B : PidList σ} {K K' : Kernel σ ι} {d : PidStruct ι} {n : ι} {x : Notice}

/-- The loop does what `free_pid` does, and its notices are those for the counters as they were,
when no two levels are in one namespace. -/
theorem freeLevels_of_eachLevel
    (hinj : ∀ {i j u v}, d.numbers i = some u → d.numbers j = some v → u.ns = v.ns → i = j)
    {is : List ℕ} (hnodup : is.Nodup) (hrun : eachLevel d (freeLevel B) is K = .ok K') :
    ∃ notices, freeLevels B d is K = .ok (K', notices) ∧ ∀ n x, (n, x) ∈ notices ↔
      (∃ i ∈ is, ∃ nr, d.numbers i = some ⟨nr, n⟩) ∧ freeNotice (K.ns n).pidAllocated = some x := by
  induction is generalizing K with
  | nil =>
      obtain rfl := Except.ok.inj hrun
      exact ⟨[], rfl, by simp⟩
  | cons i is ih =>
      obtain ⟨hi, hnodup⟩ := List.nodup_cons.mp hnodup
      cases hu : d.numbers i with
      | none => simp [eachLevel, PidStruct.number, hu] at hrun
      | some u =>
          simp only [eachLevel, PidStruct.number, hu, ok_bind] at hrun
          cases hlevel : freeLevel B i u.nr (K.ns u.ns) with
          | error e => simp [hlevel] at hrun
          | ok ns =>
              rw [hlevel, ok_bind] at hrun
              obtain ⟨notices, hrest, hmem⟩ := ih hnodup hrun
              refine ⟨((freeNotice (K.ns u.ns).pidAllocated).map fun x => (u.ns, x)).toList ++
                  notices,
                by simp only [freeLevels, PidStruct.number, hu, ok_bind, hlevel, hrest],
                fun n x => ?_⟩
              have hself :
                  (n, x) ∈ ((freeNotice (K.ns u.ns).pidAllocated).map fun x => (u.ns, x)).toList ↔
                    n = u.ns ∧ freeNotice (K.ns n).pidAllocated = some x := by
                simp only [Option.mem_toList, Option.map_eq_some_iff, Prod.mk.injEq]
                constructor
                · rintro ⟨y, hy, rfl, rfl⟩
                  exact ⟨rfl, hy⟩
                · rintro ⟨rfl, hx⟩
                  exact ⟨x, hx, rfl, rfl⟩
              rw [List.mem_append, hself, hmem, List.exists_mem_cons_iff]
              by_cases hn : n = u.ns
              · -- the other levels are in other namespaces
                subst hn
                have hrestNot : ¬ ∃ j ∈ is, ∃ nr, d.numbers j = some ⟨nr, u.ns⟩ := by
                  rintro ⟨j, hj, nr, hv⟩
                  exact hi (hinj hu hv rfl ▸ hj)
                have hhere : ∃ nr, d.numbers i = some ⟨nr, u.ns⟩ := ⟨u.nr, hu⟩
                simp only [hrestNot, hhere, true_and, false_and, or_false]
              · -- this round has not touched the namespace
                have hother : ((K.setNs u.ns ns).ns n) = K.ns n := Function.update_of_ne hn _ _
                have hnot : ¬ ∃ nr, d.numbers i = some ⟨nr, n⟩ := by
                  rintro ⟨nr, hv⟩
                  rw [hu, Option.some.injEq] at hv
                  exact hn (congrArg Upid.ns hv).symm
                simp only [hn, false_and, false_or, hother, hnot]

/-- `free_pid` with its notices, for a published pid. -/
theorem freePidNotices_of_freePid {T : PidNsTree ι} {p : PidAddr} {m : ι} (hd : K.pid p = some d)
    (hnum : d.NumbersFrom T m 0) (hrun : freePid B K p = .ok K') :
    ∃ notices, freePidNotices B K p = .ok (K', notices) ∧ ∀ n x, (n, x) ∈ notices ↔
      (∃ nr, K.Owns p nr n) ∧ freeNotice (K.ns n).pidAllocated = some x := by
  have hinj : ∀ {i j u v}, d.numbers i = some u → d.numbers j = some v → u.ns = v.ns → i = j := by
    intro i j u v hu hv heq
    rw [← hnum.level_ns hu, ← hnum.level_ns hv, heq]
  simp only [freePid, Kernel.derefPid, hd, ok_bind] at hrun
  obtain ⟨notices, hlevels, hmem⟩ := freeLevels_of_eachLevel hinj List.nodup_range hrun
  refine ⟨notices, by simp only [freePidNotices, Kernel.derefPid, hd, ok_bind, hlevels],
    fun n x => ?_⟩
  rw [hmem]
  refine and_congr_left fun _ => ?_
  constructor
  · rintro ⟨i, -, nr, hu⟩
    exact ⟨nr, d, hd, i, hu⟩
  · rintro ⟨nr, ho⟩
    obtain ⟨i, hu⟩ := (Kernel.owns_iff hd nr n).mp ho
    have hle := hnum.le_level hu
    rw [← hnum.level] at hle
    exact ⟨i, List.mem_range.mpr (Nat.lt_succ_of_le hle), nr, hu⟩

end Loop

/-! ## One counter -/

section Counter

variable {a : PidNamespace σ}

/-- The value of a decremented `pid_allocated`: the count, with bit 31 on top of it in a namespace
that takes new processes. -/
theorem PidNamespace.toNat_pred (h : 1 ≤ a.count) :
    (¬ a.Adding ∧ (a.pidAllocated - 1).toNat = a.count - 1) ∨
      (a.Adding ∧ (a.pidAllocated - 1).toNat = 2 ^ 31 + (a.count - 1)) := by
  obtain ⟨hcount, hset⟩ := FlagWord.sub_one (w := 31) h
  rcases FlagWord.toNat_cases (w := 31) (a.pidAllocated - 1) with ⟨hnot, hx⟩ | ⟨hadd, hx⟩
  · exact Or.inl ⟨fun hadd => hnot (hset.mpr hadd), hx.trans hcount⟩
  · exact Or.inr ⟨hset.mp hadd, by rw [hx, hcount]; rfl⟩

/-- What `free_pid` compares the decremented `pid_allocated` with, by its value. -/
theorem freeNotice_eq_toNat (n : BitVec 32) : freeNotice n =
    if (n - 1).toNat = 2 ∨ (n - 1).toNat = 1 then some .wakeReaper
    else if (n - 1).toNat = 2 ^ 31 ∨ (n - 1).toNat = 0 then some .scheduleWork
    else none := by
  have hflag : pidnsAdding.toNat = 2 ^ 31 := rfl
  have htwo : (2 : BitVec 32).toNat = 2 := rfl
  have hone : (1 : BitVec 32).toNat = 1 := rfl
  have hzero : (0 : BitVec 32).toNat = 0 := rfl
  have heq : ∀ v : BitVec 32, n - 1 = v ↔ (n - 1).toNat = v.toNat := fun v => BitVec.toNat_inj.symm
  simp only [freeNotice, heq, hflag, htwo, hone, hzero]

/-- The cleanup is scheduled for the last pid of a namespace. -/
theorem freeNotice_eq_scheduleWork_iff (h : 1 ≤ a.count) :
    freeNotice a.pidAllocated = some .scheduleWork ↔ a.count = 1 := by
  have hlt : a.count < 2 ^ 31 := FlagWord.count_lt (w := 31) a.pidAllocated
  rw [freeNotice_eq_toNat]
  rcases PidNamespace.toNat_pred h with ⟨-, hx⟩ | ⟨-, hx⟩ <;> rw [hx] <;> split_ifs <;>
    simp <;> omega

/-- The reaper is woken when one or two other pids are left in a namespace that takes no new
processes. -/
theorem freeNotice_eq_wakeReaper_iff (h : 1 ≤ a.count) :
    freeNotice a.pidAllocated = some .wakeReaper ↔ ¬ a.Adding ∧ (a.count = 2 ∨ a.count = 3) := by
  have hlt : a.count < 2 ^ 31 := FlagWord.count_lt (w := 31) a.pidAllocated
  rw [freeNotice_eq_toNat]
  rcases PidNamespace.toNat_pred h with ⟨hadd, hx⟩ | ⟨hadd, hx⟩ <;> rw [hx] <;> split_ifs <;>
    simp [hadd] <;> omega

end Counter

/-! ## When the notices are given -/

variable [DecidableEq ι] {T : PidNsTree ι} {s : Sys (PidSkiplist PidAddr) ι} {S : MapSys ι}
  {p : PidAddr}

/-- The notices of a `free_pid`, by the published pids that are left. -/
theorem SysShape.freePidNotices (hS : SysShape T S) (hs : SysSim Represents s S)
    (hcount : S.CountsLive) (hp : p ∈ s.live) :
    ∃ s' S' notices, sysStep plainList T s (.free p) = .ok s' ∧ SysSim Represents s' S' ∧
      SysStep T S (.free p) S' ∧
      KernelPid.freePidNotices plainList s.K p = .ok (s'.K, notices) ∧ ∀ n,
        ((¬ ∃ nr, s.K.Owns p nr n) → S'.livePids n = S.livePids n) ∧
        ((n, .scheduleWork) ∈ notices ↔ (∃ nr, s.K.Owns p nr n) ∧ S'.livePids n = 0) ∧
        ((n, .wakeReaper) ∈ notices ↔ (∃ nr, s.K.Owns p nr n) ∧ ¬ (s.K.ns n).Adding ∧
          (S'.livePids n = 1 ∨ S'.livePids n = 2)) := by
  have hp' : p ∈ S.live := hs.live ▸ hp
  obtain ⟨-, -, d, m, hd, hnum⟩ := hS.live hp'
  obtain ⟨K', N, hrun, hK', hN⟩ := plainList_simulates.freePid hs.K hd hnum
  obtain ⟨notices, hnotices, hmem⟩ :=
    freePidNotices_of_freePid ((congrFun hs.K.pid p).trans hd) hnum hrun
  refine ⟨{ s with K := K', live := s.live.erase p },
    { S with K := { S.K with ns := N }, live := S.live.erase p }, notices, ?_,
    ⟨hK', hs.calls, congrArg (List.erase · p) hs.live⟩, SysStep.free hp' hd hN, hnotices,
    fun n => ?_⟩
  · simp only [sysStep, if_pos hp, hrun, ok_bind]
  · rw [hmem, hmem]
    -- in each namespace of the pid one published pid less is counted
    rcases hS.livePids_free hp' N n with ⟨⟨nr, ho⟩, hlive⟩ | ⟨ho, hlive⟩
    · have hpos : 1 ≤ (s.K.ns n).count := by
        rw [hs.count_eq, hcount n]
        exact hS.livePids_pos hp' ho
      rw [← hcount n, ← hs.count_eq] at hlive
      have howns : ∃ nr, s.K.Owns p nr n := ⟨nr, (hs.owns_iff _ _ _).mpr ho⟩
      rw [freeNotice_eq_scheduleWork_iff hpos, freeNotice_eq_wakeReaper_iff hpos]
      refine ⟨fun hnot => absurd howns hnot, and_congr_right fun _ => by omega,
        and_congr_right fun _ => and_congr_right fun _ => by omega⟩
    · have hnot : ¬ ∃ nr, s.K.Owns p nr n := by
        rintro ⟨nr, h⟩
        exact ho nr ((hs.owns_iff _ _ _).mp h)
      simp only [hnot, false_and, and_self, and_true]
      exact fun _ => hlive

/-- While fewer than `2 ^ 31` pids are live at once, a run keeps the counts. -/
theorem plain_run_counts (T : PidNsTree ι) (as : List (Act ι))
    (hfew : Throughout (sysStep plainList T) (fun s => s.live.length < 2 ^ 31) (Sys.init init) as) :
    ∃ s S, run (sysStep plainList T) (Sys.init init) as = .ok s ∧ SysSim Represents s S ∧
      SysShape T S ∧
      S.CountsLive := by
  obtain ⟨s, hrun, S, hs, hS, hcount⟩ := run_invariant_of (C := fun _ _ => True)
    (I := fun s : Sys _ ι => ∃ S, SysSim Represents s S ∧ SysShape T S ∧ S.CountsLive)
    (fun s a ⟨S, hs, hS, hcount⟩ _ _ => by
      obtain ⟨s', S', hstep, hs', hS', -⟩ := sysStep_counts hs hS hcount a
      refine ⟨s', hstep, fun hfew => ⟨S', hs', hS'.shape hS, ?_⟩⟩
      exact (hS'.countsLive hS hcount (by rwa [← hs'.live])).1)
    ⟨_, sysSim_init represents_init, sysShape_init, countsLive_init⟩ hfew (meets_true _ _)
  exact ⟨s, S, hrun, hs, hS, hcount⟩

/-- While fewer than `2 ^ 31` pids are live at once: `free_pid` of a published pid schedules
the cleanup of just those namespaces of the pid in which no published pid has a number any
more, and wakes the reapers of just those which take no new processes and have one or two
published pids left. -/
theorem free_notices_iff (T : PidNsTree ι) (as : List (Act ι))
    (hfew : Throughout (sysStep plainList T) (fun s => s.live.length < 2 ^ 31) (Sys.init init) as) :
    ∃ s, run (sysStep plainList T) (Sys.init init) as = .ok s ∧ ∀ p ∈ s.live, ∃ s' notices,
      sysStep plainList T s (.free p) = .ok s' ∧
      freePidNotices plainList s.K p = .ok (s'.K, notices) ∧
      ∀ n, ((n, .scheduleWork) ∈ notices ↔ (∃ nr, s.K.Owns p nr n) ∧ s'.livePids n = 0) ∧
        ((n, .wakeReaper) ∈ notices ↔ (∃ nr, s.K.Owns p nr n) ∧ ¬ (s.K.ns n).Adding ∧
          (s'.livePids n = 1 ∨ s'.livePids n = 2)) := by
  obtain ⟨s, S, hrun, hs, hS, hcount⟩ := plain_run_counts T as hfew
  refine ⟨s, hrun, fun p hp => ?_⟩
  obtain ⟨s', S', notices, hstep, hs', -, hnotices, hiff⟩ := hS.freePidNotices hs hcount hp
  have hlive : ∀ n, s'.livePids n = S'.livePids n := fun n => by
    unfold Sys.livePids
    rw [hs'.live, hs'.K.pid]
  exact ⟨s', notices, hstep, hnotices, fun n => by rw [hlive]; exact (hiff n).2⟩

/-- A namespace with three processes is shut. -/
theorem free_notices_iff_shut :
    ∃ s, run (sysStep plainList soleNs) (Sys.init init)
        [.start 0 () (grantAll 32768), .step 0, .step 0, .start 1 () (grantAll 32768),
          .step 1, .step 1, .start 2 () (grantAll 32768), .step 2, .step 2, .disable ()] = .ok s ∧
          ∀ p ∈ s.live, ∃ s' notices,
      sysStep plainList soleNs s (.free p) = .ok s' ∧
      freePidNotices plainList s.K p = .ok (s'.K, notices) ∧
      ∀ n, ((n, .scheduleWork) ∈ notices ↔ (∃ nr, s.K.Owns p nr n) ∧ s'.livePids n = 0) ∧
        ((n, .wakeReaper) ∈ notices ↔ (∃ nr, s.K.Owns p nr n) ∧ ¬ (s.K.ns n).Adding ∧
          (s'.livePids n = 1 ∨ s'.livePids n = 2)) :=
  free_notices_iff soleNs _ (by decide)

end KernelPid
