import KernelPid.Pid.Refinement

/-!
# One call of `alloc_pid`

What a call of `alloc_pid` that nothing interrupts returns and leaves behind, by the state it starts
from: `AllocOutcome`, and `Simulates.allocPid` that the code ends in one of these outcomes. The
level loop is `Progress`: the levels from `lo` on are reserved, with the numbers that the scans pick
in the state before the call, since no two levels are in one namespace.
-/

namespace KernelPid

open Runs PidSkiplist Ancestors

variable {σ ι : Type} {T : PidNsTree ι} {B : PidList σ} {Rep : σ → Bindings PidAddr → Prop}
  {adm : NodeEnv → Prop} {K : Kernel σ ι} {A₀ A A' : MapKernel ι} {c c' : AllocCall ι} {ns : ι}
  {env : AllocEnv} {d : PidStruct ι} {lo : ℕ} {disabled : Bool}

/-! ## Outcomes -/

/-- A call that meets with `env` takes the number `nr` in the namespace `n`. -/
def PicksIn (T : PidNsTree ι) (A : MapKernel ι) (env : AllocEnv) (n : ι) (nr : ℤ) : Prop :=
  Picks (A.ns n).pidSl (A.ns n).lastPid (env.reserve (T.level n)) nr

/-- The levels above that of `n`, seen from `ns`, all have a number to take. -/
def TakenBelow (T : PidNsTree ι) (A : MapKernel ι) (ns : ι) (env : AllocEnv) (n : ι) : Prop :=
  ∀ n', T.IsAncestor ns n' → T.level n < T.level n' → ∃ nr, PicksIn T A env n' nr

/-- The nodes that the call makes have levels the build can bear. -/
def AllocAdmissible (T : PidNsTree ι) (adm : NodeEnv → Prop) (A : MapKernel ι) (ns : ι)
    (env : AllocEnv) : Prop :=
  env.pidAlloc = true → ∀ n, T.IsAncestor ns n → TakenBelow T A ns env n →
    ∀ nr, PicksIn T A env n nr →
    Admits adm (A.ns n).pidSl nr ((env.reserve (T.level n)).node nr)

/-- A build that can bear any level has no conditions. -/
theorem allocAdmissible_true (T : PidNsTree ι) (A : MapKernel ι) (ns : ι) (env : AllocEnv) :
    AllocAdmissible T (fun _ => True) A ns env :=
  fun _ _ _ _ _ _ _ _ => trivial

/-- What a call in `ns` leaves behind that failed after it had reserved the numbers of `d`. -/
structure Restored (T : PidNsTree ι) (A : MapKernel ι) (ns : ι) (env : AllocEnv) (disabled : Bool)
    (d : PidStruct ι) (A' : MapKernel ι) : Prop where
  picks : ∀ {j u}, d.numbers j = some u → PicksIn T A env u.ns u.nr
  pid : ∀ {q}, q ≠ A.brk → A'.pid q = A.pid q
  brk : A.brk ≤ A'.brk
  rebound : Rebound d none A.ns A'.ns
  allocated : disabled = false → ∀ n, (A'.ns n).pidAllocated = (A.ns n).pidAllocated
  cursor : disabled = false → (A.ns ns).pidAllocated = pidnsAdding → (A.ns ns).lastPid = 0 →
    (A'.ns ns).lastPid = 0

/-- What a call in `ns` leaves behind that published `d`. -/
structure Published (T : PidNsTree ι) (A : MapKernel ι) (ns : ι) (env : AllocEnv) (d : PidStruct ι)
    (A' : MapKernel ι) : Prop where
  numbers : d.NumbersFrom T ns 0
  picks : ∀ {j u}, d.numbers j = some u → PicksIn T A env u.ns u.nr
  self : A'.pid A.brk = some d
  pid : ∀ {q}, q ≠ A.brk → A'.pid q = A.pid q
  brk : A'.brk = A.brk + 1
  rebound : Rebound d (some (some A.brk)) A.ns A'.ns

/-- The namespace takes no more processes when the call comes to publish. -/
def Shut (A : MapKernel ι) (ns : ι) (disabled : Bool) : Prop :=
  disabled = true ∨ (A.ns ns).pidAllocated &&& pidnsAdding = 0

/-- How a call ends: what it leaves behind, and what it returns. -/
inductive AllocOutcome (T : PidNsTree ι) (A : MapKernel ι) (ns : ι) (env : AllocEnv)
    (disabled : Bool) (A' : MapKernel ι) : AllocResult → Prop
  | noMemory {d : PidStruct ι} (halloc : env.pidAlloc = false)
      (h : Restored T A ns env disabled d A') : AllocOutcome T A ns env disabled A' (.err (-ENOMEM))
  | full {d : PidStruct ι} {n : ι} (halloc : env.pidAlloc = true) (hanc : T.IsAncestor ns n)
      (hnone : PicksNone (A.ns n).pidSl (env.reserve (T.level n)))
      (h : Restored T A ns env disabled d A') : AllocOutcome T A ns env disabled A' (.err (-1))
  | refused {d : PidStruct ι} (halloc : env.pidAlloc = true) (hd : d.NumbersFrom T ns 0)
      (hrefused : (d.Owns 1 ns ∧ env.prepareProc = false) ∨ Shut A ns disabled)
      (h : Restored T A ns env disabled d A') : AllocOutcome T A ns env disabled A' (.err 0)
  | published {d : PidStruct ι} (halloc : env.pidAlloc = true)
      (hok : ¬ ((d.Owns 1 ns ∧ env.prepareProc = false) ∨ Shut A ns disabled))
      (h : Published T A ns env d A') : AllocOutcome T A ns env disabled A' (.pid A.brk)

/-! ## The level loop -/

/-- The call has reserved the levels from `lo` on, since the state `A₀`. -/
structure Progress (T : PidNsTree ι) (A₀ : MapKernel ι) (ns : ι) (env : AllocEnv) (lo : ℕ)
    (A : MapKernel ι) (c : AllocCall ι) (d : PidStruct ι) : Prop where
  args : c.ns = ns ∧ c.pid = A₀.brk ∧ c.env = env
  self : A.pid A₀.brk = some d
  numbers : d.NumbersFrom T ns lo
  picks : ∀ {j u}, d.numbers j = some u → PicksIn T A₀ env u.ns u.nr
  applied : LevelsApplied d (fun _ => True) reserveNs A₀.ns A.ns
  pid : ∀ {q}, q ≠ A₀.brk → A.pid q = A₀.pid q
  brk : A.brk = A₀.brk + 1

/-- A namespace below the reserved levels is as it was. -/
theorem Progress.untouched (h : Progress T A₀ ns env lo A c d) {n : ι} (hn : T.level n < lo) :
    A.ns n = A₀.ns n := by
  refine h.applied.off fun j u _ hu heq => ?_
  have h₁ := h.numbers.lo_le hu
  have h₂ := h.numbers.level_ns hu
  rw [heq] at h₂
  omega

/-- The reserved levels had a number to take. -/
theorem Progress.taken (h : Progress T A₀ ns env lo A c d) {n : ι} (hanc : T.IsAncestor ns n)
    (hn : lo ≤ T.level n) : ∃ nr, d.Owns nr n ∧ PicksIn T A₀ env n nr := by
  obtain ⟨u, hu⟩ := h.numbers.assigned (T.level n) hn (hanc.level_le T.level_parent)
  have heq : u.ns = n := (h.numbers.ancestor hu).eq_of_level_eq T.level_parent hanc
    (h.numbers.level_ns hu)
  subst heq
  exact ⟨u.nr, ⟨_, hu⟩, h.picks hu⟩

/-- The first round starts from here. -/
theorem progress_begin (A₀ : MapKernel ι) (ns : ι) (env : AllocEnv) :
    Progress T A₀ ns env (T.level ns + 1) (A₀.newPidStruct (T.level ns)) (newCall T A₀.brk ns env)
      { level := T.level ns, numbers := fun _ => none } where
  args := ⟨rfl, rfl, rfl⟩
  self := Function.update_self _ _ _
  numbers := PidStruct.numbersFrom_new ns
  picks hu := by simp at hu
  applied := ⟨fun _ hu => by simp at hu, fun _ => rfl⟩
  pid hq := Function.update_of_ne hq _ _
  brk := rfl

/-- The process is the first one of its namespace when it has the number 1 there. -/
theorem isChildReaper_iff {p : PidAddr} (hd : K.pid p = some d) (hnum : d.NumbersFrom T ns 0) :
    ∃ b, isChildReaper K p = .ok b ∧ (b = true ↔ d.Owns 1 ns) := by
  obtain ⟨u, hu⟩ := hnum.assigned (T.level ns) (Nat.zero_le _) (le_refl _)
  have heq : u.ns = ns := (hnum.ancestor hu).eq_of_level_eq T.level_parent (IsAncestor.refl ns)
    (hnum.level_ns hu)
  refine ⟨decide (u.nr = 1), ?_, ?_⟩
  · simp only [isChildReaper, Kernel.derefPid, hd, ok_bind, PidStruct.number, hnum.level, hu]
  · rw [decide_eq_true_iff]
    have hown : d.Owns u.nr ns := ⟨_, by rw [hu, ← heq]⟩
    constructor
    · intro hone
      rwa [hone] at hown
    · exact fun hone => hnum.nr_unique hown hone

variable [DecidableEq ι]

/-- One more level, after the others. -/
theorem LevelsApplied.snoc {N N' : ι → PidNamespace (Bindings PidAddr)}
    {f : ℕ → ℤ → PidNamespace (Bindings PidAddr) → PidNamespace (Bindings PidAddr)}
    (hd : d.NumbersFrom T ns lo) (h : LevelsApplied d (fun _ => True) f N N') {i : ℕ} {u : Upid ι}
    (hi : i < lo) (hu : T.level u.ns = i) :
    LevelsApplied { d with numbers := Function.update d.numbers i (some u) } (fun _ => True) f N
      (Function.update N' u.ns (f i u.nr (N u.ns))) := by
  -- the namespace of the new level is none of the old ones
  have hne : ∀ {j u'}, d.numbers j = some u' → u'.ns ≠ u.ns := by
    intro j u' hu' heq
    have h₁ := hd.lo_le hu'
    have h₂ := hd.level_ns hu'
    rw [heq] at h₂
    omega
  refine ⟨fun {j u'} _ hu' => ?_, fun {n} hn => ?_⟩
  · by_cases hj : j = i
    · subst hj
      simp only [Function.update_self, Option.some.injEq] at hu'
      subst hu'
      exact Function.update_self _ _ _
    · simp only [Function.update_of_ne hj] at hu'
      rw [Function.update_of_ne (hne hu')]
      exact h.on trivial hu'
  · have hnu : n ≠ u.ns := fun heq => hn i u trivial (Function.update_self _ _ _) heq.symm
    rw [Function.update_of_ne hnu]
    refine h.off fun j u' _ hu' => ?_
    have hj : j ≠ i := by
      have := hd.lo_le hu'
      omega
    exact hn j u' trivial (by simpa only [Function.update_of_ne hj] using hu')

/-- A reservation makes progress by one level. -/
theorem Progress.reserved {i : ℕ} {tmp : ι} {nr : ℤ} (h : Progress T A₀ ns env (i + 1) A c d)
    (hanc : T.IsAncestor ns tmp) (hlevel : T.level tmp = i) (hpick : PicksIn T A₀ env tmp nr)
    (hc : c'.ns = c.ns ∧ c'.pid = c.pid ∧ c'.env = c.env) :
    Progress T A₀ ns env i (reserved A c.pid i tmp nr) c'
      { d with numbers := Function.update d.numbers i (some ⟨nr, tmp⟩) } where
  args := by
    rw [hc.1, hc.2.1, hc.2.2]
    exact h.args
  self := by
    rw [h.args.2.1]
    exact setNumber_pid_self h.self i _
  numbers := h.numbers.setNumber hanc hlevel hpick.pos
  picks {j u} hu := by
    by_cases hj : j = i
    · subst hj
      simp only [Function.update_self, Option.some.injEq] at hu
      subst hu
      exact hpick
    · simp only [Function.update_of_ne hj] at hu
      exact h.picks hu
  applied := by
    have happ := h.applied.snoc h.numbers (u := ⟨nr, tmp⟩) (Nat.lt_succ_self i) hlevel
    rwa [← h.untouched (n := tmp) (by omega)] at happ
  pid hq := by
    rw [h.args.2.1]
    exact (setNumber_pid_of_ne hq _ _).trans (h.pid hq)
  brk := h.brk

/-- How the level loop ends: some level has no number to take, or all levels are reserved. -/
inductive LoopEnd (T : PidNsTree ι) (A₀ : MapKernel ι) (ns : ι) (env : AllocEnv) (A : MapKernel ι)
    (c : AllocCall ι) (d : PidStruct ι) : Prop
  | full {n : ι} (hanc : T.IsAncestor ns n)
      (hnone : PicksNone (A₀.ns n).pidSl (env.reserve (T.level n)))
      (h : Progress T A₀ ns env (T.level n + 1) A c d) (hpc : c.pc = .rollback (T.level n + 1))
      (hretval : c.retval = -1)
  | refused (h : Progress T A₀ ns env 0 A c d) (hprepare : d.Owns 1 ns ∧ env.prepareProc = false)
      (hpc : c.pc = .rollback 0) (hretval : c.retval = 0)
  | reserved (h : Progress T A₀ ns env 0 A c d)
      (hprepare : ¬ (d.Owns 1 ns ∧ env.prepareProc = false)) (hpc : c.pc = .publish)
      (hretval : c.retval = 0)

/-- One round: the loop ends, or the next level is on. -/
theorem Progress.round {i : ℕ} {tmp : ι} (h : Progress T A₀ ns env (i + 1) A c d)
    (hpc : c.pc = .reserve i tmp) (hanc : T.IsAncestor ns tmp) (hlevel : T.level tmp = i)
    (hstep : AllocStep T A c A' c') :
    (∃ d', LoopEnd T A₀ ns env A' c' d') ∨
    ∃ j tmp' d', i = j + 1 ∧ c'.pc = .reserve j tmp' ∧ T.IsAncestor ns tmp' ∧ T.level tmp' = j ∧
      Progress T A₀ ns env i A' c' d' := by
  have hargs := hstep.call_eq
  have hsame := h.untouched (n := tmp) (by omega)
  -- the scan looks at the namespace as it was before the call
  have hpicks : ∀ {nr}, PicksAt A c i tmp nr → PicksIn T A₀ env tmp nr := by
    intro nr hpick
    rw [PicksAt, hsame, h.args.2.2] at hpick
    rwa [PicksIn, hlevel]
  cases hstep with
  | @reserve j tmp₁ tmp' nr hpc' hparent hpick =>
      obtain ⟨rfl, rfl⟩ : i = j + 1 ∧ tmp = tmp₁ := by simpa [hpc] using hpc'
      have hl := T.level_parent _ _ hparent
      exact Or.inr ⟨j, tmp', _, rfl, rfl, hanc.step hparent, by omega,
        h.reserved hanc hlevel (hpicks hpick) hargs⟩
  | @reserveLast tmp₁ nr reaper hpc' hpick hreaper =>
      obtain ⟨rfl, rfl⟩ : i = 0 ∧ tmp = tmp₁ := by simpa [hpc] using hpc'
      have hprog := h.reserved hanc hlevel (hpicks hpick) hargs
      obtain ⟨b, hb, hone⟩ := isChildReaper_iff hprog.self hprog.numbers
      rw [← h.args.2.1, hreaper] at hb
      obtain rfl := Except.ok.inj hb
      have hiff : reaper = true ∧ c.env.prepareProc = false ↔
          PidStruct.Owns { d with numbers := Function.update d.numbers 0 (some ⟨nr, tmp⟩) } 1 ns ∧
            env.prepareProc = false := by
        rw [h.args.2.2, hone]
      by_cases hprep : reaper = true ∧ c.env.prepareProc = false
      · exact Or.inl ⟨_, LoopEnd.refused hprog (hiff.mp hprep) (if_pos hprep) rfl⟩
      · exact Or.inl ⟨_, LoopEnd.reserved hprog (fun hp => hprep (hiff.mpr hp)) (if_neg hprep) rfl⟩
  | @full i₁ tmp₁ hpc' hnone =>
      obtain ⟨rfl, rfl⟩ : i = i₁ ∧ tmp = tmp₁ := by simpa [hpc] using hpc'
      rw [hsame, h.args.2.2] at hnone
      refine Or.inl ⟨d, LoopEnd.full hanc ?_ ?_ ?_ rfl⟩
      · rwa [hlevel]
      · rw [hlevel]
        exact ⟨h.args, h.self, h.numbers, h.picks, h.applied, h.pid, h.brk⟩
      · rw [hlevel]
  | refuse hpc' => simp [hpc] at hpc'
  | publish hpc' => simp [hpc] at hpc'
  | rollback hpc' => simp [hpc] at hpc'
  | returned hpc' => simp [hpc] at hpc'

/-- The loop stays where it has ended. -/
theorem reserveLevels_stop {c : AllocCall ι} (hc : ∀ i tmp, c.pc ≠ .reserve i tmp) (n : ℕ)
    (K : Kernel σ ι) : KernelPid.reserveLevels B T n K c = .ok (K, c) := by
  cases n with
  | zero => rfl
  | succ n =>
      unfold KernelPid.reserveLevels
      split
      · rename_i i tmp hpc
        exact absurd hpc (hc i tmp)
      · rfl

omit [DecidableEq ι] in
theorem LoopEnd.stopped (h : LoopEnd T A₀ ns env A c d) (i : ℕ) (tmp : ι) :
    c.pc ≠ .reserve i tmp := by
  cases h with
  | full _ _ _ hpc | refused _ _ hpc | reserved _ _ hpc => simp [hpc]

omit [DecidableEq ι] in
/-- What the next round needs of the build's nodes. -/
theorem Progress.admissible {i : ℕ} {tmp : ι} (hadm : AllocAdmissible T adm A₀ ns env)
    (halloc : env.pidAlloc = true) (h : Progress T A₀ ns env (i + 1) A c d)
    (hpc : c.pc = .reserve i tmp) (hanc : T.IsAncestor ns tmp) (hlevel : T.level tmp = i) :
    c.Admissible adm A := by
  refine ⟨fun {i' tmp' nr} hpc' hpick => ?_, fun hpc' => by simp [hpc] at hpc'⟩
  obtain ⟨rfl, rfl⟩ : i = i' ∧ tmp = tmp' := by simpa [hpc] using hpc'
  have hsame := h.untouched (n := tmp) (by omega)
  rw [PicksAt, hsame, h.args.2.2] at hpick
  rw [hsame, h.args.2.2]
  have hbelow : TakenBelow T A₀ ns env tmp := fun n' hanc' hlt => by
    obtain ⟨nr', -, hnr'⟩ := h.taken hanc' (by omega)
    exact ⟨nr', hnr'⟩
  have := hadm halloc tmp hanc hbelow nr (by rwa [PicksIn, hlevel])
  rwa [hlevel] at this

/-- The whole loop. -/
theorem Simulates.reserveLevels (hB : Simulates B Rep adm) (hadm : AllocAdmissible T adm A₀ ns env)
    (halloc : env.pidAlloc = true) {i : ℕ} {tmp : ι} (hK : KernelSim Rep K A)
    (h : Progress T A₀ ns env (i + 1) A c d) (hpc : c.pc = .reserve i tmp)
    (hanc : T.IsAncestor ns tmp) (hlevel : T.level tmp = i) :
    ∃ K' c' A' d', KernelPid.reserveLevels B T (i + 1) K c = .ok (K', c') ∧ KernelSim Rep K' A' ∧
      LoopEnd T A₀ ns env A' c' d' := by
  have hshape : ∀ {i tmp K A c d}, KernelSim Rep K A → Progress T A₀ ns env (i + 1) A c d →
      c.pc = .reserve i tmp → T.IsAncestor ns tmp → T.level tmp = i →
      ∃ K' c' A', KernelPid.allocStep B T K c = .ok (K', c') ∧ KernelSim Rep K' A' ∧
        AllocStep T A c A' c' := by
    intro i tmp K A c d hK h hpc hanc hlevel
    refine hB.allocStep hK ?_ (h.admissible hadm halloc hpc hanc hlevel)
    simp only [AllocCall.Shape, hpc, h.args.1, h.args.2.1]
    exact ⟨hanc, hlevel, d, h.self, h.numbers⟩
  induction i generalizing K A c d tmp with
  | zero =>
      obtain ⟨K₁, c₁, A₁, hrun, hK₁, hstep⟩ := hshape hK h hpc hanc hlevel
      rcases h.round hpc hanc hlevel hstep with ⟨d', hend⟩ | ⟨j, -, -, hj, -⟩
      · refine ⟨K₁, c₁, A₁, d', ?_, hK₁, hend⟩
        simp only [KernelPid.reserveLevels, hpc, hrun, ok_bind]
      · omega
  | succ i ih =>
      obtain ⟨K₁, c₁, A₁, hrun, hK₁, hstep⟩ := hshape hK h hpc hanc hlevel
      rcases h.round hpc hanc hlevel hstep with
        ⟨d', hend⟩ | ⟨j, tmp', d', hj, hpc', hanc', hlevel', h'⟩
      · refine ⟨K₁, c₁, A₁, d', ?_, hK₁, hend⟩
        rw [KernelPid.reserveLevels, hpc]
        simp only [hrun, ok_bind]
        exact reserveLevels_stop hend.stopped _ _
      · obtain rfl : i = j := by omega
        obtain ⟨K', c', A', d'', hrest, hK', hend⟩ := ih hK₁ h' hpc' hanc' hlevel'
        refine ⟨K', c', A', d'', ?_, hK', hend⟩
        rw [KernelPid.reserveLevels, hpc]
        simp only [hrun, ok_bind]
        exact hrest

/-! ## Behind the level loop -/

/-- What `disable_pid_allocation(ns)`, if it comes in between, leaves as it was. -/
structure Between (ns : ι) (disabled : Bool) (A A₁ : MapKernel ι) : Prop where
  pid : A₁.pid = A.pid
  brk : A₁.brk = A.brk
  pidSl : ∀ n, (A₁.ns n).pidSl = (A.ns n).pidSl
  same : disabled = false → A₁ = A
  shut : disabled = true → (A₁.ns ns).pidAllocated &&& pidnsAdding = 0

theorem between (A : MapKernel ι) (ns : ι) (disabled : Bool) :
    Between ns disabled A (if disabled then disablePidAllocation A ns else A) := by
  cases disabled with
  | false => exact ⟨rfl, rfl, fun _ => rfl, fun _ => rfl, fun hf => by simp at hf⟩
  | true =>
      refine ⟨rfl, rfl, fun n => disablePidAllocation_pidSl A ns n, fun hf => by simp at hf,
        fun _ => ?_⟩
      simp [disablePidAllocation, Kernel.setNs, BitVec.and_assoc]

section Ends

variable {A₁ A₂ : MapKernel ι}

omit [DecidableEq ι] in
/-- The reserved numbers are bound to `NULL`. -/
theorem Progress.rebound (h : Progress T A₀ ns env lo A c d) (hb : Between ns disabled A A₁) :
    Rebound d (some none) A₀.ns A₁.ns :=
  h.applied.rebound_reserve.congr hb.pidSl

omit [DecidableEq ι] in
/-- Behind the loop, the call has the `struct pid` with the reserved numbers. -/
theorem Progress.shape_behind (h : Progress T A₀ ns env lo A c d) (hb : Between ns disabled A A₁)
    (hpc : c.pc = .publish ∧ lo = 0 ∨ c.pc = .rollback lo) : c.Shape T A₁.pid := by
  rw [AllocCall.shape_behind_iff hpc, h.args.1, h.args.2.1, hb.pid]
  exact ⟨d, h.self, h.numbers⟩

omit [DecidableEq ι] in
/-- What follows the loop makes no nodes. -/
theorem Progress.admissible_end (h : Progress T A₀ ns env lo A c d)
    (hb : Between ns disabled A A₁) (hpc : ∀ i tmp, c.pc ≠ .reserve i tmp) :
    c.Admissible adm A₁ := by
  refine ⟨fun hpc' => absurd hpc' (hpc _ _), fun {d'} _ hd j u hu => ?_⟩
  rw [hb.pid, h.args.2.1, h.self] at hd
  obtain rfl := Option.some.inj hd
  intro hnone
  have ho : d.Owns u.nr u.ns := ⟨j, hu⟩
  have hown := (h.rebound hb).own ho
  rw [hnone] at hown
  simp at hown

/-- A rollback removes what was reserved. -/
theorem Progress.rollback (h : Progress T A₀ ns env lo A c d) (hb : Between ns disabled A A₁)
    (hpc : c.pc = .rollback lo) (hstep : AllocStep T A₁ c A₂ c') :
    c'.pc = .returned (.err c.retval) ∧ Restored T A₀ ns env disabled d A₂ := by
  cases hstep with
  | reserve hpc' => simp [hpc] at hpc'
  | reserveLast hpc' => simp [hpc] at hpc'
  | full hpc' => simp [hpc] at hpc'
  | refuse hpc' => simp [hpc] at hpc'
  | publish hpc' => simp [hpc] at hpc'
  | returned hpc' => simp [hpc] at hpc'
  | @rollback lo' d' N hpc' hd hN =>
      rw [hb.pid, h.args.2.1, h.self] at hd
      obtain rfl := Option.some.inj hd
      refine ⟨rfl, h.picks, fun {q} hq => ?_, ?_, ?_, fun hdis n => ?_, fun hdis halloc _ => ?_⟩
      · show Function.update (resetCursor _ _).pid c.pid none q = _
        rw [h.args.2.1, Function.update_of_ne hq, resetCursor_pid]
        exact (congrFun hb.pid q).trans (h.pid hq)
      · show _ ≤ (resetCursor _ _).brk
        rw [resetCursor_brk]
        show _ ≤ A₁.brk
        rw [hb.brk, h.brk]
        exact Nat.le_succ _
      · exact ((h.rebound hb).trans hN.rebound_rollback).congr fun n => resetCursor_pidSl _ _ n
      · obtain rfl := hb.same hdis
        show ((resetCursor _ _).ns n).pidAllocated = _
        rw [resetCursor_pidAllocated]
        exact (hN.keeps PidNamespace.pidAllocated (fun _ _ _ => rfl) n).trans
          (h.applied.keeps PidNamespace.pidAllocated (fun _ _ _ => rfl) n)
      · obtain rfl := hb.same hdis
        have hadding : (N ns).pidAllocated = pidnsAdding :=
          ((hN.keeps PidNamespace.pidAllocated (fun _ _ _ => rfl) ns).trans
            (h.applied.keeps PidNamespace.pidAllocated (fun _ _ _ => rfl) ns)).trans halloc
        show ((resetCursor _ _).ns ns).lastPid = 0
        rw [h.args.1, resetCursor, if_pos hadding]
        simp [Kernel.setNs]

omit [DecidableEq ι] in
/-- Whether the namespace is shut shows in the state behind the loop. -/
theorem Progress.shut_iff (h : Progress T A₀ ns env lo A c d) (hb : Between ns disabled A A₁) :
    Shut A₀ ns disabled ↔ (A₁.ns ns).pidAllocated &&& pidnsAdding = 0 := by
  cases disabled with
  | true => exact iff_of_true (Or.inl rfl) (hb.shut rfl)
  | false =>
      obtain rfl := hb.same rfl
      rw [h.applied.keeps PidNamespace.pidAllocated (fun _ _ _ => rfl) ns]
      simp [Shut]

omit [DecidableEq ι] in
/-- Publication leaves the `last_pid`s at the numbers that were reserved. -/
theorem Progress.lastNumbers (h : Progress T A₀ ns env 0 A c d)
    {N : ι → PidNamespace (Bindings PidAddr)} {p : PidAddr} {node : ℕ → NodeEnv}
    (hN : LevelsApplied d (fun _ => True) (publishNs p node) A.ns N) {nr : ℤ} {n : ι}
    (ho : d.Owns nr n) : (N n).lastPid = nr := by
  obtain ⟨j, hj⟩ := ho
  rw [hN.keeps PidNamespace.lastPid (fun _ _ _ => rfl) n, h.applied.on trivial hj]
  rfl

/-- Publication binds the reserved numbers to the pid, or is refused. -/
theorem Progress.publish (h : Progress T A₀ ns env 0 A c d) (hb : Between ns disabled A A₁)
    (hpc : c.pc = .publish) (hstep : AllocStep T A₁ c A₂ c') :
    (Shut A₀ ns disabled ∧ A₂ = A₁ ∧ c' = { c with pc := .rollback 0 }) ∨
    (¬ Shut A₀ ns disabled ∧ c'.pc = .returned (.pid A₀.brk) ∧ Published T A₀ ns env d A₂ ∧
      ∀ {nr n}, d.Owns nr n → (A₂.ns n).lastPid = nr) := by
  cases hstep with
  | reserve hpc' => simp [hpc] at hpc'
  | reserveLast hpc' => simp [hpc] at hpc'
  | full hpc' => simp [hpc] at hpc'
  | rollback hpc' => simp [hpc] at hpc'
  | returned hpc' => simp [hpc] at hpc'
  | refuse hpc' hadding =>
      rw [h.args.1] at hadding
      exact Or.inl ⟨(h.shut_iff hb).mpr hadding, rfl, rfl⟩
  | @publish d' N hpc' hadding hd hN =>
      rw [hb.pid, h.args.2.1, h.self] at hd
      obtain rfl := Option.some.inj hd
      rw [h.args.1] at hadding
      rw [h.args.2.1] at hN
      refine Or.inr ⟨fun hshut => hadding ((h.shut_iff hb).mp hshut), ?_, ⟨h.numbers, h.picks, ?_,
        fun {q} hq => ?_, ?_, ?_⟩, fun {nr n} ho => ?_⟩
      · rw [h.args.2.1]
      · exact (congrFun hb.pid _).trans h.self
      · exact (congrFun hb.pid q).trans (h.pid hq)
      · exact hb.brk.trans h.brk
      · have hre := h.rebound hb
        exact hre.trans (hN.rebound_publish fun ho => by rw [hre.own ho]; simp)
      · -- the namespace was not shut meanwhile
        obtain rfl : A₁ = A := by
          cases hdis : disabled with
          | false => exact hb.same hdis
          | true => exact absurd (hb.shut hdis) hadding
        exact h.lastNumbers hN ho

/-! ## The whole call -/

theorem kernelSim_between (hK : KernelSim Rep K A) (ns : ι) (disabled : Bool) :
    KernelSim Rep (if disabled then disablePidAllocation K ns else K)
      (if disabled then disablePidAllocation A ns else A) := by
  cases disabled with
  | false => exact hK
  | true => exact hK.disablePidAllocation ns

omit [DecidableEq ι] in
/-- A call that gets no `struct pid` leaves what it found. -/
theorem Between.restored (hb : Between ns disabled A₀ A₁) :
    Restored T A₀ ns env disabled { level := 0, numbers := fun _ => none } A₁ where
  picks hu := by simp at hu
  pid {q} _ := congrFun hb.pid q
  brk := hb.brk.ge
  rebound := by
    refine ⟨fun {n nr} ho => ?_, fun {n nr} _ => congrFun (hb.pidSl n) nr⟩
    obtain ⟨j, hj⟩ := ho
    simp at hj
  allocated hdis n := by rw [hb.same hdis]
  cursor hdis _ hcursor := by
    rw [hb.same hdis]
    exact hcursor

/-- The steps that remain do nothing once the call has returned. -/
theorem allocStep_returned {r : AllocResult} (hr : c.pc = .returned r) :
    KernelPid.allocStep B T K c = .ok (K, c) := by
  simp only [KernelPid.allocStep, hr]

/-- The rollback, over a build's list as over maps. -/
theorem Simulates.rollback (hB : Simulates B Rep adm) (hK : KernelSim Rep K A₁)
    (h : Progress T A₀ ns env lo A c d) (hb : Between ns disabled A A₁)
    (hpc : c.pc = .rollback lo) :
    ∃ K' c' A', KernelPid.allocStep B T K c = .ok (K', c') ∧ KernelSim Rep K' A' ∧
      c'.pc = .returned (.err c.retval) ∧ Restored T A₀ ns env disabled d A' := by
  obtain ⟨K', c', A', hrun, hK', hstep⟩ :=
    hB.allocStep hK (h.shape_behind hb (Or.inr hpc))
      (h.admissible_end hb fun i tmp => by simp [hpc])
  exact ⟨K', c', A', hrun, hK', h.rollback hb hpc hstep⟩

/-- The section that publishes, over a build's list as over maps. -/
theorem Simulates.publish (hB : Simulates B Rep adm) (hK : KernelSim Rep K A₁)
    (h : Progress T A₀ ns env 0 A c d) (hb : Between ns disabled A A₁) (hpc : c.pc = .publish) :
    ∃ K' c' A', KernelPid.allocStep B T K c = .ok (K', c') ∧ KernelSim Rep K' A' ∧
      ((Shut A₀ ns disabled ∧ A' = A₁ ∧ c' = { c with pc := .rollback 0 }) ∨
        (¬ Shut A₀ ns disabled ∧ c'.pc = .returned (.pid A₀.brk) ∧ Published T A₀ ns env d A' ∧
          ∀ {nr n}, d.Owns nr n → (A'.ns n).lastPid = nr)) := by
  obtain ⟨K', c', A', hrun, hK', hstep⟩ :=
    hB.allocStep hK (h.shape_behind hb (Or.inl ⟨hpc, rfl⟩))
      (h.admissible_end hb fun i tmp => by simp [hpc])
  exact ⟨K', c', A', hrun, hK', h.publish hb hpc hstep⟩

/-- If a call returned a pid, the `last_pid` of each of its namespaces is its number there. -/
def LastGiven (A : MapKernel ι) (r : AllocResult) : Prop :=
  ∀ p nr n, r = .pid p → A.Owns p nr n → (A.ns n).lastPid = nr

omit [DecidableEq ι] in
theorem lastGiven_err (A : MapKernel ι) (e : ℤ) : LastGiven A (.err e) :=
  fun p _ _ hp => by simp at hp

/-- The two sections behind the loop end the call. -/
theorem Simulates.behindLoop (hB : Simulates B Rep adm) (hK : KernelSim Rep K A₁)
    (hb : Between ns disabled A A₁) (halloc : env.pidAlloc = true)
    (hend : LoopEnd T A₀ ns env A c d) :
    ∃ K₁ c₁ K₂ c₂ A₂ r, KernelPid.allocStep B T K c = .ok (K₁, c₁) ∧
      KernelPid.allocStep B T K₁ c₁ = .ok (K₂, c₂) ∧ c₂.pc = .returned r ∧ KernelSim Rep K₂ A₂ ∧
      AllocOutcome T A₀ ns env disabled A₂ r ∧ LastGiven A₂ r := by
  cases hend with
  | full hanc hnone hprog hpc hretval =>
      obtain ⟨K₁, c₁, A₂, hrun, hK₁, hpc₁, hres⟩ := hB.rollback hK hprog hb hpc
      rw [hretval] at hpc₁
      exact ⟨K₁, c₁, K₁, c₁, A₂, _, hrun, allocStep_returned hpc₁, hpc₁, hK₁,
        AllocOutcome.full halloc hanc hnone hres, lastGiven_err A₂ _⟩
  | refused hprog hprepare hpc hretval =>
      obtain ⟨K₁, c₁, A₂, hrun, hK₁, hpc₁, hres⟩ := hB.rollback hK hprog hb hpc
      rw [hretval] at hpc₁
      exact ⟨K₁, c₁, K₁, c₁, A₂, _, hrun, allocStep_returned hpc₁, hpc₁, hK₁,
        AllocOutcome.refused halloc hprog.numbers (Or.inl hprepare) hres, lastGiven_err A₂ _⟩
  | reserved hprog hprepare hpc hretval =>
      obtain ⟨K₁, c₁, A₂, hrun, hK₁, hends⟩ := hB.publish hK hprog hb hpc
      rcases hends with ⟨hshut, rfl, rfl⟩ | ⟨hopen, hpc₁, hpub, hlast⟩
      · -- the namespace is shut: the next section rolls back
        have hprog' : Progress T A₀ ns env 0 A { c with pc := .rollback 0 } d :=
          ⟨hprog.args, hprog.self, hprog.numbers, hprog.picks, hprog.applied, hprog.pid, hprog.brk⟩
        obtain ⟨K₂, c₂, A₃, hrun₂, hK₂, hpc₂, hres⟩ := hB.rollback hK₁ hprog' hb rfl
        have hpc₂' : c₂.pc = .returned (.err 0) := by rw [hpc₂, hretval]
        exact ⟨K₁, _, K₂, c₂, A₃, _, hrun, hrun₂, hpc₂', hK₂,
          AllocOutcome.refused halloc hprog.numbers (Or.inr hshut) hres, lastGiven_err A₃ _⟩
      · refine ⟨K₁, c₁, K₁, c₁, A₂, _, hrun, allocStep_returned hpc₁, hpc₁, hK₁,
          AllocOutcome.published halloc (not_or.mpr ⟨hprepare, hopen⟩) hpub, fun p nr n hp ho => ?_⟩
        obtain rfl : A₀.brk = p := by simpa using hp
        exact hlast ((Kernel.owns_iff hpub.self nr n).mp ho)

end Ends

/-- A call that nothing interrupts ends in one of the outcomes, over a build's list as over maps,
and a pid that it returns has the last number given out in each of its namespaces. -/
theorem Simulates.allocPid (hB : Simulates B Rep adm) (hK : KernelSim Rep K A₀) (ns : ι)
    (env : AllocEnv) (disabled : Bool) (hadm : AllocAdmissible T adm A₀ ns env) :
    ∃ K' r A', KernelPid.allocPid B T K ns env disabled = .ok (K', r) ∧ KernelSim Rep K' A' ∧
      AllocOutcome T A₀ ns env disabled A' r ∧ LastGiven A' r := by
  rcases hB.allocBegin (T := T) hK ns env with ⟨halloc, hbegin⟩ | ⟨halloc, hbegin⟩
  · refine ⟨_, _, _, ?_, kernelSim_between hK ns disabled,
      AllocOutcome.noMemory halloc (between A₀ ns disabled).restored, lastGiven_err _ _⟩
    simp only [KernelPid.allocPid, hbegin, newCall, KernelPid.reserveLevels, ok_bind,
      KernelPid.allocStep]
  · obtain ⟨K₁, c₁, A₁, d, hloop, hK₁, hend⟩ := hB.reserveLevels hadm halloc
      (hK.newPidStruct (T.level ns)) (progress_begin A₀ ns env) rfl (IsAncestor.refl ns) rfl
    obtain ⟨K₂, c₂, K₃, c₃, A₃, r, hrun₂, hrun₃, hr, hK₃, hout, hlast⟩ :=
      hB.behindLoop (kernelSim_between hK₁ ns disabled) (between A₁ ns disabled) halloc hend
    refine ⟨K₃, r, A₃, ?_, hK₃, hout, hlast⟩
    simp only [KernelPid.allocPid, hbegin, hloop, ok_bind, hrun₂, hrun₃, hr]

end KernelPid
