import Mathlib.Order.WellFounded
import KernelPid.Pid.Idr
import KernelPid.Pid.Results

/-!
# The reasons for which `alloc_pid` fails

A level has no number to give when its range is full, or when there is no memory for the number that
the scan comes to. The IDR branch turns the first into `-EAGAIN` and the second into `-ENOMEM`. The
skiplist branch leaves -1 in `nr` for a full range, which is not the `-ENOSPC` that the line behind
both branches asks for, and goes on to the next number where memory is short: no call that meets
with either cause names it (`names_cause_iff`).
-/

namespace KernelPid

open Runs PidSkiplist Ancestors

variable {ι τ : Type} {T : PidNsTree ι} {K : Kernel (PidSkiplist PidAddr) ι} {ns : ι}
  {env : AllocEnv}

/-- Every number of the range is taken. -/
def Full (m : Bindings PidAddr) (pidMax : ℤ) : Prop :=
  ∀ c, 1 ≤ c → c < pidMax → (m c).join ≠ none

/-- There is no memory for the first number that is not taken. -/
def Starved (m : Bindings PidAddr) (lastPid : ℤ) (env : ReserveEnv) : Prop :=
  ∃ c, 1 ≤ c ∧ c < env.pidMax ∧ m c = none ∧ (env.node c).ok = false ∧
    ∀ c', 1 ≤ c' → c' < env.pidMax → Before (startPid lastPid env.pidMax) c' c → (m c').join ≠ none

/-- The level of `n` is full when the call meets with `env`. -/
def FullAt (T : PidNsTree ι) (K : Kernel (PidSkiplist PidAddr) ι) (env : AllocEnv) (n : ι) : Prop :=
  Full (K.ns n).pidSl.bindings (env.reserve (T.level n)).pidMax

/-- Memory is short at the level of `n` when the call meets with `env`. -/
def StarvedAt (T : PidNsTree ι) (K : Kernel (PidSkiplist PidAddr) ι) (env : AllocEnv) (n : ι) :
    Prop :=
  Starved (K.ns n).pidSl.bindings (K.ns n).lastPid (env.reserve (T.level n))

/-- A call of `alloc_pid(ns)` comes to its level loop. -/
def EntersLoop (K : Kernel (PidSkiplist PidAddr) ι) (ns : ι) (env : AllocEnv) : Prop :=
  (K.ns ns).pidSl.header ≠ none ∧ env.pidAlloc = true

/-- The first level that has no number to give says what the call returns: `-EAGAIN` if it is full,
`-ENOMEM` if memory is short there. -/
def NamesCause (T : PidNsTree ι) (K : Kernel (PidSkiplist PidAddr) ι) (ns : ι) (env : AllocEnv)
    (r : AllocResult) : Prop :=
  EntersLoop K ns env → ∀ n, T.IsAncestor ns n →
    (∀ n', T.IsAncestor ns n' → T.level n < T.level n' →
      ¬ (FullAt T K env n' ∨ StarvedAt T K env n')) →
      (FullAt T K env n → r = .err (-EAGAIN)) ∧ (StarvedAt T K env n → r = .err (-ENOMEM))

/-- The IDR branch names its cause. -/
theorem idr_names_cause (I : KernelIdr τ) (i : τ) (pidMax : ℤ) :
    (∀ granted, idrPick I i pidMax = none → retvalOf (reserveIdr I granted pidMax i).2 = -EAGAIN) ∧
      ∀ id, idrPick I i pidMax = some id → retvalOf (reserveIdr I false pidMax i).2 = -ENOMEM := by
  constructor
  · intro granted hnone
    rw [reserveIdr_none granted hnone]
    rfl
  · intro id hid
    have hrefused : reserveIdr I false pidMax i = (i, -ENOMEM) := I.allocCyclic_refused _ _ i id hid
    rw [hrefused]
    rfl

/-- Of the levels with a cause the call comes to one first. -/
theorem exists_first_level (T : PidNsTree ι) {P : ι → Prop} (h : ∃ n, T.IsAncestor ns n ∧ P n) :
    ∃ n, T.IsAncestor ns n ∧ P n ∧ ∀ n', T.IsAncestor ns n' → T.level n < T.level n' → ¬ P n' := by
  obtain ⟨n, ⟨hanc, hn⟩, hmin⟩ :=
    (measure fun n => T.level ns - T.level n).wf.has_min {n | T.IsAncestor ns n ∧ P n} h
  refine ⟨n, hanc, hn, fun n' hanc' hlt hn' => hmin n' ⟨hanc', hn'⟩ ?_⟩
  have hle := hanc'.level_le T.level_parent
  show T.level ns - T.level n' < T.level ns - T.level n
  omega

theorem Full.picksNone {m : Bindings PidAddr} {renv : ReserveEnv} (h : Full m renv.pidMax) :
    PicksNone m renv :=
  fun c h₁ h₂ htakes => h c h₁ h₂ htakes.1

variable [DecidableEq ι]

/-- Whatever a call returns that comes to its level loop, it is neither of the two codes; it is -1
if some level is full. -/
theorem allocPid_returns (T : PidNsTree ι) (K : Kernel (PidSkiplist PidAddr) ι) (ns : ι)
    (env : AllocEnv) (disabled : Bool) (hlists : ∀ n, ∃ m, Represents (K.ns n).pidSl m)
    (halloc : env.pidAlloc = true) :
    ∃ K' r, allocPid plainList T K ns env disabled = .ok (K', r) ∧ r ≠ .err (-EAGAIN) ∧
      r ≠ .err (-ENOMEM) ∧ ∀ n, T.IsAncestor ns n → FullAt T K env n → r = .err (-1) := by
  obtain ⟨K', r, A', hrun, -, hout, -⟩ := plainList_simulates.allocPid (T := T)
    (kernelSim_maps hlists) ns env disabled (allocAdmissible_true T _ ns env)
  refine ⟨K', r, hrun, ?_⟩
  -- a level that is full gives no number
  have hnot : ∀ {n nr}, FullAt T K env n →
    ¬ PicksIn T K.maps env n nr := fun hfull => hfull.picksNone.not_picks
  cases hout with
  | noMemory hnone =>
      rw [halloc] at hnone
      exact Bool.noConfusion hnone
  | full => exact ⟨by decide, by decide, fun _ _ _ => rfl⟩
  | refused _ hd _ hres =>
      refine ⟨by decide, by decide, fun n hanc hfull => ?_⟩
      obtain ⟨nr, -, hpick⟩ := exists_picksIn hd hres.picks hanc
      exact absurd hpick (hnot hfull)
  | published _ _ hpub =>
      refine ⟨by simp, by simp, fun n hanc hfull => ?_⟩
      obtain ⟨nr, -, hpick⟩ := exists_picksIn hpub.numbers hpub.picks hanc
      exact absurd hpick (hnot hfull)

/-- `alloc_pid` names the cause of its failure only where there is none: if it comes to its level
loop, no level may be full or short of memory. The IDR branch does name it. -/
theorem names_cause_iff (T : PidNsTree ι) (K : Kernel (PidSkiplist PidAddr) ι) (ns : ι)
    (env : AllocEnv) (disabled : Bool)
    (hlists : (K.ns ns).pidSl.header = none ∨ ∀ n, ∃ m, Represents (K.ns n).pidSl m) :
    (∃ K' r, allocPid plainList T K ns env disabled = .ok (K', r) ∧
      (NamesCause T K ns env r ↔ ¬ (EntersLoop K ns env ∧
        ∃ n, T.IsAncestor ns n ∧ (FullAt T K env n ∨ StarvedAt T K env n)))) ∧
    ∀ (τ : Type) (I : KernelIdr τ) (i : τ) (pidMax : ℤ),
      (∀ granted, idrPick I i pidMax = none →
        retvalOf (reserveIdr I granted pidMax i).2 = -EAGAIN) ∧
        ∀ id, idrPick I i pidMax = some id →
          retvalOf (reserveIdr I false pidMax i).2 = -ENOMEM := by
  refine ⟨?_, fun τ I i pidMax => idr_names_cause I i pidMax⟩
  rcases hlists with hheader | hlists
  · obtain ⟨K', hrun⟩ := allocPid_einval T env disabled hheader
    exact ⟨K', _, hrun, iff_of_true (fun henter => absurd hheader henter.1) fun h => h.1.1 hheader⟩
  · by_cases henter : EntersLoop K ns env
    · obtain ⟨K', r, hrun, hagain, hnomem, -⟩ :=
        allocPid_returns T K ns env disabled hlists henter.2
      refine ⟨K', r, hrun, ?_⟩
      constructor
      · rintro hnames ⟨-, hcause⟩
        obtain ⟨n, hanc, hn, hfirst⟩ := exists_first_level T hcause
        obtain ⟨hfull, hstarved⟩ := hnames henter n hanc hfirst
        rcases hn with hn | hn
        · exact hagain (hfull hn)
        · exact hnomem (hstarved hn)
      · intro hnone _ n hanc _
        have hn : ¬ (FullAt T K env n ∨ StarvedAt T K env n) :=
          fun hn => hnone ⟨henter, n, hanc, hn⟩
        exact ⟨fun hfull => absurd (Or.inl hfull) hn, fun hstarved => absurd (Or.inr hstarved) hn⟩
    · obtain ⟨K', r, A', hrun, -, -⟩ := plainList_simulates.allocPid (T := T)
        (kernelSim_maps hlists) ns env disabled (allocAdmissible_true T _ ns env)
      exact ⟨K', r, hrun, iff_of_true (fun h => absurd h henter) fun h => henter h.1⟩

/-- A call beside two processes and a call that has the number 3 reserved. -/
theorem names_cause_iff_fourth : ∃ s,
    run (sysStep plainList soleNs) (Sys.init init) threeNumbers = .ok s ∧
    (∃ K' r, allocPid plainList soleNs s.K () (grantMixed 32768) false = .ok (K', r) ∧
      (NamesCause soleNs s.K () (grantMixed 32768) r ↔
        ¬ (EntersLoop s.K () (grantMixed 32768) ∧ ∃ n, soleNs.IsAncestor () n ∧
          (FullAt soleNs s.K (grantMixed 32768) n ∨ StarvedAt soleNs s.K (grantMixed 32768) n)))) ∧
    ∀ (τ : Type) (I : KernelIdr τ) (i : τ) (pidMax : ℤ),
      (∀ granted, idrPick I i pidMax = none →
        retvalOf (reserveIdr I granted pidMax i).2 = -EAGAIN) ∧
        ∀ id, idrPick I i pidMax = some id →
          retvalOf (reserveIdr I false pidMax i).2 = -ENOMEM := by
  obtain ⟨s, S, hrun, hs, -⟩ := plain_run_shape soleNs threeNumbers
  exact ⟨s, hrun, names_cause_iff soleNs s.K () (grantMixed 32768) false
    (Or.inr fun n => ⟨_, (hs.K.ns n).pidSl⟩)⟩

/-- There is no memory for a node for the number 1: `alloc_pid` succeeds with the number 2. -/
theorem starved_call_goes_on : ∃ K',
    allocPid plainList soleNs (Kernel.init init) () starvedAtOne false = .ok (K', .pid 0) ∧
    findPidNs plainList K' 2 () = .ok (some 0) ∧
    ¬ NamesCause soleNs (Kernel.init init) () starvedAtOne (.pid 0) := by
  have hrun : (allocPid plainList soleNs (Kernel.init init) () starvedAtOne false).map
      (fun x => (x.2, findPidNs plainList x.1 2 ())) = .ok (.pid 0, .ok (some 0)) := rfl
  obtain ⟨⟨K', r⟩, hK', heq⟩ := exists_of_map_eq_ok hrun
  obtain ⟨rfl, hfind⟩ := Prod.mk.inj heq
  refine ⟨K', hK', hfind, fun hnames => ?_⟩
  have hstarved := (hnames ⟨by simp [Kernel.init, init], rfl⟩ () (IsAncestor.refl ())
    fun n' _ hlt => absurd hlt (Nat.lt_irrefl 0)).2
  have hempty : ∀ c, (init : PidSkiplist PidAddr).bindings c = none := fun c =>
    (congrFun represents_init.eq_bindings c).symm
  refine AllocResult.noConfusion
    (hstarved ⟨1, by decide, by decide, hempty 1, rfl, fun c' h₁ _ hbefore => ?_⟩)
  -- the scan of a fresh namespace begins at 1
  have hstart : startPid 0 32768 = 1 := by decide
  change Before (startPid 0 32768) c' 1 at hbefore
  rw [hstart, Before, if_pos (le_refl _)] at hbefore
  omega

end KernelPid
