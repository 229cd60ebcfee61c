import KernelPid.Pid.Sequential
import KernelPid.Pid.System

/-!
# What `alloc_pid` returns

`retval` starts as `-ENOMEM`, but every successful insertion of the scans sets it to 0, and two
exits behind the level loop do not set it again: a call that fails there returns `ERR_PTR(0)`, which
is `NULL` (`reports_iff`). A scan that has no memory for a node goes on to the next number, so the
first process of a namespace may get another number than 1 (`first_pid_is_reaper_iff`).
-/

namespace KernelPid

open Runs PidSkiplist Ancestors

variable {ι : Type} {T : PidNsTree ι} {K : Kernel (PidSkiplist PidAddr) ι}
  {A : MapKernel ι} {ns : ι}
  {env : AllocEnv} {disabled : Bool}

/-! ## The maps of a kernel -/

/-- The kernel with its lists read as maps. -/
def Kernel.maps (K : Kernel (PidSkiplist PidAddr) ι) : MapKernel ι where
  ns n := { K.ns n with pidSl := (K.ns n).pidSl.bindings }
  pid := K.pid
  brk := K.brk

theorem kernelSim_maps (h : ∀ n, ∃ m, Represents (K.ns n).pidSl m) :
    KernelSim Represents K K.maps := by
  refine ⟨fun n => ⟨?_, rfl, rfl⟩, rfl, rfl⟩
  obtain ⟨m, hm⟩ := h n
  have heq := hm.eq_bindings
  subst heq
  exact hm

/-! ## `NULL` for a failure -/

/-- What the callers of `alloc_pid(ns)` rely on: a pid that is published in every namespace from
`ns` up, or an error that `IS_ERR` recognises. -/
def Reports (T : PidNsTree ι) (ns : ι) (K : Kernel (PidSkiplist PidAddr) ι) : AllocResult → Prop
  | .pid p => ∃ d, K.pid p = some d ∧ ∀ n, T.IsAncestor ns n →
      ∃ nr, d.Owns nr n ∧ findPidNs plainList K nr n = .ok (some p)
  | .err e => -4095 ≤ e ∧ e < 0

/-- The call gets a number at every level, and then either it is the first of its namespace and
`pid_ns_prepare_proc` fails, or the namespace takes no more processes. -/
def FailsLate (T : PidNsTree ι) (K : Kernel (PidSkiplist PidAddr) ι) (ns : ι) (env : AllocEnv)
    (disabled : Bool) : Prop :=
  (K.ns ns).pidSl.header ≠ none ∧ env.pidAlloc = true ∧
    (∀ n, T.IsAncestor ns n → ∃ nr, PicksIn T K.maps env n nr) ∧
    ((PicksIn T K.maps env ns 1 ∧ env.prepareProc = false) ∨ Shut K.maps ns disabled)

theorem PicksNone.not_picks {m : Bindings PidAddr} {renv : ReserveEnv} {lastPid nr : ℤ}
    (h : PicksNone m renv) : ¬ Picks m lastPid renv nr :=
  fun hpick => h nr hpick.pos hpick.lt_max hpick.takes

/-- A `struct pid` with all its numbers has one in each namespace of the chain. -/
theorem PidStruct.NumbersFrom.exists_owns {d : PidStruct ι} (hd : d.NumbersFrom T ns 0) {n : ι}
    (hanc : T.IsAncestor ns n) : ∃ j u, d.numbers j = some u ∧ u.ns = n := by
  obtain ⟨u, hu⟩ := hd.assigned (T.level n) (Nat.zero_le _) (hanc.level_le T.level_parent)
  exact ⟨_, u, hu, (hd.ancestor hu).eq_of_level_eq T.level_parent hanc (hd.level_ns hu)⟩

/-- The numbers that a call reserved are those that its scans pick. -/
theorem exists_picksIn {d : PidStruct ι} (hd : d.NumbersFrom T ns 0)
    (hpicks : ∀ {j u}, d.numbers j = some u → PicksIn T A env u.ns u.nr) {n : ι}
    (hanc : T.IsAncestor ns n) : ∃ nr, d.Owns nr n ∧ PicksIn T A env n nr := by
  obtain ⟨j, u, hu, rfl⟩ := hd.exists_owns hanc
  exact ⟨u.nr, ⟨j, hu⟩, hpicks hu⟩

/-- The first number of a namespace is the one that its scan picks. -/
theorem owns_one_iff {d : PidStruct ι} (hd : d.NumbersFrom T ns 0)
    (hpicks : ∀ {j u}, d.numbers j = some u → PicksIn T A env u.ns u.nr) :
    d.Owns 1 ns ↔ PicksIn T A env ns 1 := by
  obtain ⟨nr, hown, hpick⟩ := exists_picksIn hd hpicks (IsAncestor.refl ns)
  constructor
  · intro hone
    rwa [hd.nr_unique hone hown]
  · intro hone
    rwa [Picks.unique hone hpick]

variable [DecidableEq ι]

/-- Without a list there is no call. -/
theorem allocPid_einval (T : PidNsTree ι) (env : AllocEnv) (disabled : Bool)
    (hheader : (K.ns ns).pidSl.header = none) :
    ∃ K', allocPid plainList T K ns env disabled = .ok (K', .err (-EINVAL)) := by
  refine ⟨if disabled then disablePidAllocation K ns else K, ?_⟩
  simp only [allocPid, allocBegin, plainList, hheader, Option.isSome_none, if_true, reserveLevels,
    ok_bind, allocStep]

/-- `alloc_pid` returns a published pid or an error that `IS_ERR` recognises, if and only if it does
not fail behind its level loop. -/
theorem reports_iff (T : PidNsTree ι) (K : Kernel (PidSkiplist PidAddr) ι) (ns : ι) (env : AllocEnv)
    (disabled : Bool)
    (hlists : (K.ns ns).pidSl.header = none ∨ ∀ n, ∃ m, Represents (K.ns n).pidSl m) :
    ∃ K' r, allocPid plainList T K ns env disabled = .ok (K', r) ∧
      (Reports T ns K' r ↔ ¬ FailsLate T K ns env disabled) := by
  rcases hlists with hheader | hlists
  · obtain ⟨K', hrun⟩ := allocPid_einval T env disabled hheader
    exact ⟨K', _, hrun, iff_of_true ⟨by decide, by decide⟩ fun hlate => hlate.1 hheader⟩
  · obtain ⟨K', r, A', hrun, hK', hout, -⟩ := plainList_simulates.allocPid (T := T)
      (kernelSim_maps hlists) ns env disabled (allocAdmissible_true T _ ns env)
    refine ⟨K', r, hrun, ?_⟩
    cases hout with
    | noMemory halloc =>
        refine iff_of_true ⟨by decide, by decide⟩ fun hlate => ?_
        rw [hlate.2.1] at halloc
        simp at halloc
    | full _ hanc hnone =>
        refine iff_of_true ⟨by decide, by decide⟩ fun hlate => ?_
        obtain ⟨nr, hpick⟩ := hlate.2.2.1 _ hanc
        exact hnone.not_picks hpick
    | @refused d halloc hd hrefused hres =>
        refine iff_of_false (fun hneg => absurd hneg.2 (lt_irrefl 0)) fun hnot => hnot ?_
        have hheader : (K.ns ns).pidSl.header ≠ none := by
          have := plainList_simulates.hasHeader ((kernelSim_maps hlists).ns ns).pidSl
          simpa [plainList, Option.isSome_iff_ne_none] using this
        refine ⟨hheader, halloc, fun n hanc => ?_, ?_⟩
        · obtain ⟨nr, -, hpick⟩ := exists_picksIn hd hres.picks hanc
          exact ⟨nr, hpick⟩
        · rwa [owns_one_iff hd hres.picks] at hrefused
    | @published d halloc hok hpub =>
        refine iff_of_true ⟨d, ?_, fun n hanc => ?_⟩ fun hlate => hok ?_
        · rw [hK'.pid]
          exact hpub.self
        · obtain ⟨nr, hown, -⟩ := exists_picksIn hpub.numbers hpub.picks hanc
          refine ⟨nr, hown, ?_⟩
          have hlookup := plainList_simulates.lookupRcu (hK'.ns n).pidSl nr
          rw [hpub.rebound.own hown] at hlookup
          exact hlookup
        · rw [owns_one_iff hpub.numbers hpub.picks]
          exact hlate.2.2.2

/-- There are two processes, and a call that has the number 3 reserved. -/
def threeNumbers : List (Act Unit) :=
  [.start 0 () (grantMixed 32768), .step 0, .step 0, .start 1 () (grantMixed 32768),
    .step 1, .step 1, .start 2 () (grantMixed 32768), .step 2]

/-- The next call. -/
theorem reports_iff_fourth : ∃ s K' r,
    run (sysStep plainList soleNs) (Sys.init init) threeNumbers = .ok s ∧
      allocPid plainList soleNs s.K () (grantMixed 32768) false = .ok (K', r) ∧
        (Reports soleNs () K' r ↔ ¬ FailsLate soleNs s.K () (grantMixed 32768) false) := by
  obtain ⟨s, S, hrun, hs, -⟩ := plain_run_shape soleNs threeNumbers
  obtain ⟨K', r, halloc⟩ := reports_iff soleNs s.K () (grantMixed 32768) false
    (Or.inr fun n => ⟨_, (hs.K.ns n).pidSl⟩)
  exact ⟨s, K', r, hrun, halloc⟩

/-- `pid_ns_prepare_proc` fails for the first process: `alloc_pid` returns `NULL`. -/
theorem prepare_proc_failure_returns_null : ∃ K',
    allocPid plainList soleNs (Kernel.init init) ()
      { grantAll 32768 with prepareProc := false } false =
        .ok (K', .err 0) ∧ ¬ Reports soleNs () K' (.err 0) := by
  have hrun : (allocPid plainList soleNs (Kernel.init init) ()
    { grantAll 32768 with prepareProc := false }
      false).map Prod.snd = .ok (.err 0) := rfl
  obtain ⟨⟨K', r⟩, hK', rfl⟩ := exists_of_map_eq_ok hrun
  exact ⟨K', hK', fun hneg => absurd hneg.2 (lt_irrefl 0)⟩

/-! ## The first process of a namespace -/

/-- Calls of `alloc_pid(ns)` one after another, until one succeeds: the kernel behind it, its pid,
and what it met with. -/
def firstPid (T : PidNsTree ι) (ns : ι) : List AllocEnv → Kernel (PidSkiplist PidAddr) ι →
    Except Fault (Option (Kernel (PidSkiplist PidAddr) ι × PidAddr × AllocEnv))
  | [], _ => .ok none
  | env :: envs, K => do
    match ← allocPid plainList T K ns env false with
    | (K, .pid p) => .ok (some (K, p, env))
    | (K, .err _) => firstPid T ns envs K

/-- The namespace is as `create_pid_namespace` made it. -/
structure Fresh (a : PidNamespace (Bindings PidAddr)) : Prop where
  empty : ∀ nr, a.pidSl nr = none
  lastPid : a.lastPid = 0
  pidAllocated : a.pidAllocated = pidnsAdding

/-- In a fresh namespace the scan begins at 1, and takes it if it has memory for the node. -/
theorem Fresh.picks_one_iff {a : PidNamespace (Bindings PidAddr)} (ha : Fresh a) {renv : ReserveEnv}
    (hmax : 1 < renv.pidMax) {nr : ℤ} (hnr : Picks a.pidSl a.lastPid renv nr) :
    nr = 1 ↔ (renv.node 1).ok = true := by
  have htakes : ∀ c, Takes a.pidSl renv.node c ↔ (renv.node c).ok = true := by
    intro c
    simp [Takes, ha.empty]
  constructor
  · rintro rfl
    exact (htakes 1).mp hnr.takes
  · intro hok
    have hstart : startPid a.lastPid renv.pidMax = 1 := by
      rw [ha.lastPid]
      unfold startPid
      split
      · rfl
      · rfl
    have hone : Picks a.pidSl a.lastPid renv 1 := by
      refine ⟨le_refl _, hmax, (htakes 1).mpr hok, fun c' h₁ _ hbefore => ?_⟩
      rw [hstart, Before, if_pos (le_refl _)] at hbefore
      omega
    exact hnr.unique hone

omit [DecidableEq ι] in
/-- A failed call leaves a fresh namespace fresh. -/
theorem Restored.fresh {d : PidStruct ι} {A' : MapKernel ι} (h : Restored T A ns env false d A')
    (ha : Fresh (A.ns ns)) : Fresh (A'.ns ns) where
  empty nr := by
    by_cases ho : d.Owns nr ns
    · exact h.rebound.own ho
    · rw [h.rebound.other ho]
      exact ha.empty nr
  lastPid := h.cursor rfl ha.pidAllocated ha.lastPid
  pidAllocated := (h.allocated rfl ns).trans ha.pidAllocated

/-- Whatever fails before, the first pid of a fresh namespace is its reaper if and only if the call
that makes it gets the memory for a node for the number 1. -/
theorem first_pid_is_reaper_iff (T : PidNsTree ι) (K : Kernel (PidSkiplist PidAddr) ι) (ns : ι)
    (envs : List AllocEnv) (hlists : ∀ n, ∃ m, Represents (K.ns n).pidSl m)
    (hfresh : Fresh (K.maps.ns ns))
    (hmax : ∀ env ∈ envs, 1 < (env.reserve (T.level ns)).pidMax) :
    ∃ o, firstPid T ns envs K = .ok o ∧ ∀ K' p env, o = some (K', p, env) →
      (isChildReaper K' p = .ok true ↔ ((env.reserve (T.level ns)).node 1).ok = true) := by
  suffices h : ∀ (K : Kernel (PidSkiplist PidAddr) ι) (A : MapKernel ι), KernelSim Represents K A →
      Fresh (A.ns ns) → ∃ o, firstPid T ns envs K = .ok o ∧ ∀ K' p env, o = some (K', p, env) →
        (isChildReaper K' p = .ok true ↔ ((env.reserve (T.level ns)).node 1).ok = true) from
    h K K.maps (kernelSim_maps hlists) hfresh
  clear hlists hfresh K
  induction envs with
  | nil => exact fun K A _ _ => ⟨none, rfl, fun _ _ _ h => by simp at h⟩
  | cons env envs ih =>
      intro K A hK hfresh
      obtain ⟨K', r, A', hrun, hK', hout, -⟩ :=
        plainList_simulates.allocPid (T := T) hK ns env false
        (allocAdmissible_true T A ns env)
      have hrest := ih (fun env' henv' => hmax env' (List.mem_cons_of_mem _ henv')) K' A' hK'
      cases hout with
      | noMemory _ hres | full _ _ _ hres | refused _ _ _ hres =>
          -- a failed call leaves the namespace fresh, its cursor included
          obtain ⟨o, ho, hone⟩ := hrest (hres.fresh hfresh)
          exact ⟨o, by simp only [firstPid, hrun, ok_bind, ho], hone⟩
      | @published d _ _ hpub =>
          refine ⟨some (K', A.brk, env), by simp only [firstPid, hrun, ok_bind], ?_⟩
          rintro K₁ p env₁ heq
          obtain ⟨rfl, rfl, rfl⟩ : K' = K₁ ∧ A.brk = p ∧ env = env₁ := by simpa using heq
          obtain ⟨b, hb, hbone⟩ := isChildReaper_iff (K := K') (by rw [hK'.pid]; exact hpub.self)
            hpub.numbers
          obtain ⟨nr, hown, hpick⟩ := exists_picksIn hpub.numbers hpub.picks (IsAncestor.refl ns)
          have hnr := hfresh.picks_one_iff (hmax env (List.mem_cons_self ..)) hpick
          rw [hb, ← hnr]
          constructor
          · intro htrue
            exact hpub.numbers.nr_unique hown (hbone.mp (Except.ok.inj htrue))
          · intro hone
            rw [hone] at hown
            rw [hbone.mpr hown]

/-- After two failures, one for lack of a `struct pid` and one of `pid_ns_prepare_proc`. -/
theorem first_pid_is_reaper_third_time :
    ∃ o, firstPid soleNs () [{ grantAll 32768 with pidAlloc := false },
        { grantAll 32768 with prepareProc := false }, grantAll 32768] (Kernel.init init) = .ok o ∧
      ∀ K' p env, o = some (K', p, env) →
        (isChildReaper K' p = .ok true ↔ ((env.reserve (soleNs.level ())).node 1).ok = true) :=
  first_pid_is_reaper_iff soleNs (Kernel.init init) () _ (fun _ => ⟨_, represents_init⟩)
    ⟨fun _ => rfl, rfl, rfl⟩ (by decide)

/-- There is memory for a node, but not when the number 1 is tried. -/
def starvedAtOne : AllocEnv :=
  { grantAll 32768 with
    reserve := fun _ => { pidMax := 32768, node := fun nr => ⟨pidSlRandomLevel 1, nr ≠ 1, true⟩ } }

/-- The first process gets the number 2 then. -/
theorem first_pid_is_two :
    (firstPid soleNs () [starvedAtOne] (Kernel.init init)).map (Option.map fun (K', p, _) =>
        (isChildReaper K' p, findPidNs plainList K' 2 ())) =
      .ok (some (.ok false, .ok (some 0))) :=
  rfl

end KernelPid
