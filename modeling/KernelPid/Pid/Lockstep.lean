import KernelPid.Pid.LiveTable

/-!
# The two builds in lockstep

The kernel over maps leaves no choice to a section under `pidmap_lock` (`AllocStep.unique`), so two
builds whose lists follow their maps stay together, however the calls overlap (`sysStep_lockstep`).
The RB build follows its maps as long as it makes no node of the top level. Until then it is in the
same place as the plain build: its calls have the same variables and results, and its readers find
the same (`builds_agree`).
-/

namespace KernelPid

open Runs PidSkiplist

variable {σ τ ι : Type} {T : PidNsTree ι}

/-! ## Sections over maps are determined -/

theorem LevelsApplied.unique {d : PidStruct ι} {f : ℕ → ℤ → PidNamespace τ → PidNamespace τ}
    {N N₁ N₂ : ι → PidNamespace τ} (h₁ : LevelsApplied d (fun _ => True) f N N₁)
    (h₂ : LevelsApplied d (fun _ => True) f N N₂) : N₁ = N₂ := by
  funext n
  rcases h₁.ns_cases n with ⟨j, nr, hj, hn⟩ | ⟨ho, hn⟩
  · exact hn.trans (h₂.on trivial hj).symm
  · rcases h₂.ns_cases n with ⟨j, nr, hj, -⟩ | ⟨-, hn'⟩
    · exact absurd ⟨j, hj⟩ (ho nr)
    · exact hn.trans hn'.symm

variable [DecidableEq ι]

omit [DecidableEq ι] in
/-- A scan that picks a number is not one that picks none. -/
theorem PicksAt.not_picksNone {A : MapKernel ι} {c : AllocCall ι} {i : ℕ} {tmp : ι} {nr : ℤ}
    (h : PicksAt A c i tmp nr) : ¬ PicksNone (A.ns tmp).pidSl (c.env.reserve i) :=
  fun hnone => hnone nr h.pos h.lt_max h.takes

/-- What a section does is determined by the maps and the call. -/
theorem AllocStep.unique {A A₁ A₂ : MapKernel ι} {c c₁ c₂ : AllocCall ι}
    (h₁ : AllocStep T A c A₁ c₁) (h₂ : AllocStep T A c A₂ c₂) : A₁ = A₂ ∧ c₁ = c₂ := by
  cases h₁ with
  | reserve hpc hparent hpick =>
      cases h₂ with
      | reserve hpc₂ hparent₂ hpick₂ =>
          obtain ⟨hi, rfl⟩ := AllocPc.reserve.inj (hpc.symm.trans hpc₂)
          obtain rfl := Nat.succ.inj hi
          obtain rfl := hpick.unique hpick₂
          obtain rfl := Option.some.inj (hparent.symm.trans hparent₂)
          exact ⟨rfl, rfl⟩
      | full hpc₂ hnone =>
          obtain ⟨rfl, rfl⟩ := AllocPc.reserve.inj (hpc.symm.trans hpc₂)
          exact absurd hnone hpick.not_picksNone
      | reserveLast hpc₂ | refuse hpc₂ | publish hpc₂ | rollback hpc₂
      | returned hpc₂ => simp [hpc] at hpc₂
  | reserveLast hpc hpick hreaper =>
      cases h₂ with
      | reserveLast hpc₂ hpick₂ hreaper₂ =>
          obtain ⟨-, rfl⟩ := AllocPc.reserve.inj (hpc.symm.trans hpc₂)
          obtain rfl := hpick.unique hpick₂
          obtain rfl := Except.ok.inj (hreaper.symm.trans hreaper₂)
          exact ⟨rfl, rfl⟩
      | full hpc₂ hnone =>
          obtain ⟨rfl, rfl⟩ := AllocPc.reserve.inj (hpc.symm.trans hpc₂)
          exact absurd hnone hpick.not_picksNone
      | reserve hpc₂ | refuse hpc₂ | publish hpc₂ | rollback hpc₂
      | returned hpc₂ => simp [hpc] at hpc₂
  | full hpc hnone =>
      cases h₂ with
      | full hpc₂ _ =>
          obtain ⟨rfl, rfl⟩ := AllocPc.reserve.inj (hpc.symm.trans hpc₂)
          exact ⟨rfl, rfl⟩
      | reserve hpc₂ _ hpick | reserveLast hpc₂ hpick _ =>
          obtain ⟨rfl, rfl⟩ := AllocPc.reserve.inj (hpc.symm.trans hpc₂)
          exact absurd hnone hpick.not_picksNone
      | refuse hpc₂ | publish hpc₂ | rollback hpc₂ | returned hpc₂ => simp [hpc] at hpc₂
  | refuse hpc hadding =>
      cases h₂ with
      | refuse => exact ⟨rfl, rfl⟩
      | publish _ hadding₂ => exact absurd hadding hadding₂
      | reserve hpc₂ | reserveLast hpc₂ | full hpc₂ | rollback hpc₂
      | returned hpc₂ => simp [hpc] at hpc₂
  | publish hpc hadding hd hN =>
      cases h₂ with
      | publish _ _ hd₂ hN₂ =>
          obtain rfl := Option.some.inj (hd.symm.trans hd₂)
          obtain rfl := hN.unique hN₂
          exact ⟨rfl, rfl⟩
      | refuse _ hadding₂ => exact absurd hadding₂ hadding
      | reserve hpc₂ | reserveLast hpc₂ | full hpc₂ | rollback hpc₂
      | returned hpc₂ => simp [hpc] at hpc₂
  | rollback hpc hd hN =>
      cases h₂ with
      | rollback _ hd₂ hN₂ =>
          obtain rfl := Option.some.inj (hd.symm.trans hd₂)
          obtain rfl := hN.unique hN₂
          exact ⟨rfl, rfl⟩
      | reserve hpc₂ | reserveLast hpc₂ | full hpc₂ | refuse hpc₂ | publish hpc₂ | returned hpc₂ =>
          simp [hpc] at hpc₂
  | returned hpc =>
      cases h₂ with
      | returned => exact ⟨rfl, rfl⟩
      | reserve hpc₂ | reserveLast hpc₂ | full hpc₂ | refuse hpc₂ | publish hpc₂ | rollback hpc₂ =>
          simp [hpc] at hpc₂

/-! ## Two builds -/

section Builds

variable {B₁ : PidList σ} {B₂ : PidList τ} {Rep₁ : σ → Bindings PidAddr → Prop}
  {Rep₂ : τ → Bindings PidAddr → Prop} {adm₁ adm₂ : NodeEnv → Prop} {s₁ : Sys σ ι} {s₂ : Sys τ ι}
  {S : MapSys ι}

/-- Two builds over the same maps take every step together. -/
theorem sysStep_lockstep (hB₁ : Simulates B₁ Rep₁ adm₁) (hB₂ : Simulates B₂ Rep₂ adm₂)
    (hs₁ : SysSim Rep₁ s₁ S) (hs₂ : SysSim Rep₂ s₂ S) (hS : SysShape T S) (a : Act ι)
    (hadm₁ : ∀ t c, a = .step t → S.calls t = some c → c.Admissible adm₁ S.K)
    (hadm₂ : ∀ t c, a = .step t → S.calls t = some c → c.Admissible adm₂ S.K) :
    ∃ s₁' s₂' S', sysStep B₁ T s₁ a = .ok s₁' ∧ sysStep B₂ T s₂ a = .ok s₂' ∧ SysSim Rep₁ s₁' S' ∧
      SysSim Rep₂ s₂' S' ∧ SysShape T S' := by
  cases a with
  | start t ns env =>
      cases ht : S.calls t with
      | some c =>
          refine ⟨s₁, s₂, S, ?_, ?_, hs₁, hs₂, hS⟩
          · simp only [sysStep, hs₁.calls, ht]
          · simp only [sysStep, hs₂.calls, ht]
      | none =>
          rcases hB₁.allocBegin (T := T) hs₁.K ns env with ⟨halloc, hbegin₁⟩ | ⟨halloc, hbegin₁⟩ <;>
            rcases hB₂.allocBegin (T := T) hs₂.K ns env with ⟨halloc₂, hbegin₂⟩ | ⟨halloc₂, hbegin₂⟩
          · refine ⟨_, _, _, ?_, ?_, hs₁.started t _ hs₁.K, hs₂.started t _ hs₂.K,
              (SysStep.startFailed ns env ht).shape hS⟩
            · simp only [sysStep, hs₁.calls, ht, hbegin₁]
            · simp only [sysStep, hs₂.calls, ht, hbegin₂]
          · simp [halloc] at halloc₂
          · simp [halloc] at halloc₂
          · refine ⟨_, _, _, ?_, ?_, hs₁.started t _ (hs₁.K.newPidStruct _),
              hs₂.started t _ (hs₂.K.newPidStruct _), hS.start t ns env⟩
            · simp only [sysStep, hs₁.calls, ht, hbegin₁]
            · simp only [sysStep, hs₂.calls, ht, hbegin₂]
  | step t =>
      cases ht : S.calls t with
      | none =>
          refine ⟨s₁, s₂, S, ?_, ?_, hs₁, hs₂, hS⟩
          · simp only [sysStep, hs₁.calls, ht]
          · simp only [sysStep, hs₂.calls, ht]
      | some c =>
          obtain ⟨K₁, c₁, A₁, hrun₁, hs₁', hstep₁⟩ := sysStep_call hB₁ hs₁ hS ht (hadm₁ t c rfl ht)
          obtain ⟨K₂, c₂, A₂, hrun₂, hs₂', hstep₂⟩ := sysStep_call hB₂ hs₂ hS ht (hadm₂ t c rfl ht)
          obtain ⟨rfl, rfl⟩ := hstep₁.unique hstep₂
          exact ⟨_, _, _, hrun₁, hrun₂, hs₁', hs₂', (SysStep.step ht hstep₁).shape hS⟩
  | free p =>
      by_cases hp : p ∈ S.live
      · obtain ⟨-, -, d, ns, hd, hnum⟩ := hS.live hp
        obtain ⟨K₁, N₁, hrun₁, hK₁, hN₁⟩ := hB₁.freePid hs₁.K hd hnum
        obtain ⟨K₂, N₂, hrun₂, hK₂, hN₂⟩ := hB₂.freePid hs₂.K hd hnum
        obtain rfl := hN₁.unique hN₂
        refine ⟨{ s₁ with K := K₁, live := s₁.live.erase p },
          { s₂ with K := K₂, live := s₂.live.erase p }, _, ?_, ?_, ?_, ?_,
          (SysStep.free hp hd hN₁).shape hS⟩
        · simp only [sysStep, hs₁.live, if_pos hp, hrun₁, ok_bind]
        · simp only [sysStep, hs₂.live, if_pos hp, hrun₂, ok_bind]
        · exact ⟨hK₁, hs₁.calls, congrArg (List.erase · p) hs₁.live⟩
        · exact ⟨hK₂, hs₂.calls, congrArg (List.erase · p) hs₂.live⟩
      · refine ⟨s₁, s₂, S, ?_, ?_, hs₁, hs₂, hS⟩
        · simp only [sysStep, hs₁.live, if_neg hp]
        · simp only [sysStep, hs₂.live, if_neg hp]
  | disable ns =>
      refine ⟨_, _, _, rfl, rfl, ?_, ?_, (SysStep.disable ns).shape hS⟩
      · exact ⟨hs₁.K.disablePidAllocation ns, hs₁.calls, hs₁.live⟩
      · exact ⟨hs₂.K.disablePidAllocation ns, hs₂.calls, hs₂.live⟩
  | writeLastPid ns v =>
      have hns₁ := hs₁.K.ns ns
      have hns₂ := hs₂.K.ns ns
      refine ⟨_, _, _, rfl, rfl, ?_, ?_, (SysStep.writeLastPid ns v).shape hS⟩
      · exact ⟨hs₁.K.setNs ns ⟨hns₁.pidSl, rfl, hns₁.pidAllocated⟩, hs₁.calls, hs₁.live⟩
      · exact ⟨hs₂.K.setNs ns ⟨hns₂.pidSl, rfl, hns₂.pidAllocated⟩, hs₂.calls, hs₂.live⟩

end Builds

/-! ## The RB build beside the plain one -/

/-- The next section makes no node of the top level. -/
def LowSection (s : Sys (PidRbSkiplist PidAddr) ι) : Act ι → Prop
  | .step t => ∀ c ∈ s.calls t, c.Admissible LowDraw s.K.rbMaps
  | _ => True

/-- The RB build `s'` is where the plain build `s` is, and its readers find the same. -/
structure Sys.Matches (rb : KernelRbtree) (s' : Sys (PidRbSkiplist PidAddr) ι)
    (s : Sys (PidSkiplist PidAddr) ι) :
    Prop where
  calls : s'.calls = s.calls
  live : s'.live = s.live
  pid : s'.K.pid = s.K.pid
  lastPid : ∀ n, (s'.K.ns n).lastPid = (s.K.ns n).lastPid
  pidAllocated : ∀ n, (s'.K.ns n).pidAllocated = (s.K.ns n).pidAllocated
  bindings : ∀ n, (s'.K.ns n).pidSl.toPidSkiplist.bindings = (s.K.ns n).pidSl.bindings
  findPidNs : ∀ nr n, findPidNs (rbList rb) s'.K nr n = findPidNs plainList s.K nr n
  findGePid : ∀ nr n, findGePid (rbList rb) s'.K nr n = findGePid plainList s.K nr n

section Builds

variable {B₁ : PidList σ} {B₂ : PidList τ} {Rep₁ : σ → Bindings PidAddr → Prop}
  {Rep₂ : τ → Bindings PidAddr → Prop} {adm₁ adm₂ : NodeEnv → Prop} {m : Bindings PidAddr}
  {sl₁ : σ} {sl₂ : τ}

omit [DecidableEq ι] in
/-- Two lists over one map have the same first node from `k` on. -/
theorem Simulates.findGeRcu_eq (hB₁ : Simulates B₁ Rep₁ adm₁) (hB₂ : Simulates B₂ Rep₂ adm₂)
    (h₁ : Rep₁ sl₁ m) (h₂ : Rep₂ sl₂ m) (k : ℤ) : B₁.findGeRcu sl₁ k = B₂.findGeRcu sl₂ k := by
  rcases hB₁.findGeRcu h₁ k with ⟨k₁, v₁, hleast₁, hv₁, hret₁⟩ | ⟨hnone₁, hret₁⟩ <;>
    rcases hB₂.findGeRcu h₂ k with ⟨k₂, v₂, hleast₂, hv₂, hret₂⟩ | ⟨hnone₂, hret₂⟩
  · obtain rfl := hleast₁.unique hleast₂
    obtain rfl := Option.some.inj (hv₁.symm.trans hv₂)
    exact hret₁.trans hret₂.symm
  · exact absurd (hnone₂ k₁ hleast₁.1.1) hleast₁.1.2
  · exact absurd (hnone₁ k₂ hleast₂.1.1) hleast₂.1.2
  · exact hret₁.trans hret₂.symm

end Builds

omit [DecidableEq ι] in
/-- Builds over the same maps match. -/
theorem SysSim.matches (rb : KernelRbtree) {s' : Sys (PidRbSkiplist PidAddr) ι}
    {s : Sys (PidSkiplist PidAddr) ι} {S : MapSys ι} (hs' : SysSim RbRepresents s' S)
    (hs : SysSim Represents s S) : s'.Matches rb s where
  calls := hs'.calls.trans hs.calls.symm
  live := hs'.live.trans hs.live.symm
  pid := hs'.K.pid.trans hs.K.pid.symm
  lastPid n := (hs'.K.ns n).lastPid.trans (hs.K.ns n).lastPid.symm
  pidAllocated n := (hs'.K.ns n).pidAllocated.trans (hs.K.ns n).pidAllocated.symm
  bindings n := (hs'.K.ns n).pidSl.2.1.eq_bindings.symm.trans (hs.K.ns n).pidSl.eq_bindings
  findPidNs nr n :=
    ((rbList_simulates rb).lookupRcu (hs'.K.ns n).pidSl nr).trans
      (plainList_simulates.lookupRcu (hs.K.ns n).pidSl nr).symm
  findGePid nr n := by
    have hheader' := (rbList_simulates rb).hasHeader (hs'.K.ns n).pidSl
    have hheader := plainList_simulates.hasHeader (hs.K.ns n).pidSl
    rw [KernelPid.findGePid, KernelPid.findGePid, hheader', hheader]
    exact (rbList_simulates rb).findGeRcu_eq plainList_simulates (hs'.K.ns n).pidSl
      (hs.K.ns n).pidSl nr

/-- As long as no section of the RB build makes a node of the top level, the build is where the
plain build is after the same steps, however they interleave, if both meet with the same answers. -/
theorem builds_agree (rb : KernelRbtree) (T : PidNsTree ι) (as : List (Act ι))
    (hlow : Meets (sysStep (rbList rb) T) LowSection (Sys.init PidRbSkiplist.init) as) :
    ∃ s s', run (sysStep plainList T) (Sys.init init) as = .ok s ∧
      run (sysStep (rbList rb) T) (Sys.init PidRbSkiplist.init) as = .ok s' ∧ s'.Matches rb s := by
  obtain ⟨s, s', hrun, hrun', S, hs, hs', -⟩ := run_lockstep
    (R := fun (s : Sys _ ι) (s' : Sys _ ι) =>
      ∃ S, SysSim Represents s S ∧ SysSim RbRepresents s' S ∧ SysShape T S)
    (fun s s' a hR ha => by
      obtain ⟨S, hs, hs', hS⟩ := hR
      have hlow : ∀ t c, a = .step t → S.calls t = some c → c.Admissible LowDraw S.K := by
        rintro t c rfl ht
        rw [← kernelSim_rbMaps hs'.K]
        exact ha c ((congrFun hs'.calls t).trans ht)
      obtain ⟨s₁, s₁', S₁, hstep, hstep', hsim⟩ :=
        sysStep_lockstep plainList_simulates (rbList_simulates rb) hs hs'
        hS a (fun _ c _ _ => AllocCall.admissible_true _ c) hlow
      exact ⟨s₁, s₁', hstep, hstep', S₁, hsim⟩)
    ⟨_, sysSim_init represents_init, sysSim_init rbRepresents_init, sysShape_init⟩ hlow
  exact ⟨s, s', hrun, hrun', hs'.matches rb hs⟩

/-! ## Calls that draw low levels -/

/-- No node that the call could make gets the top level. -/
structure AllocEnv.Low (env : AllocEnv) : Prop where
  reserve : ∀ i k, LowDraw ((env.reserve i).node k)
  publish : ∀ i, LowDraw (env.publish i)

omit [DecidableEq ι] in
theorem AllocEnv.Low.admissible {c : AllocCall ι} (h : c.env.Low) (A : MapKernel ι) :
    c.Admissible LowDraw A where
  reserve _ _ _ _ := h.reserve _ _
  publish _ _ _ _ _ _ _ := h.publish _

/-- The calls of a system meet with what they were started with. -/
theorem SysStep.low {S S' : MapSys ι} {a : Act ι} (h : SysStep T S a S')
    (hS : ∀ t c, S.calls t = some c → c.env.Low) (ha : ∀ t n env, a = .start t n env → env.Low) :
    ∀ t c, S'.calls t = some c → c.env.Low := by
  intro t' c' ht'
  cases h with
  | skip | free | disable | writeLastPid => exact hS t' c' ht'
  | start ns env _ | startFailed ns env _ =>
      rcases Sys.started_calls ht' with ⟨-, rfl⟩ | ht'
      · exact ha _ ns env rfl
      · exact hS t' c' ht'
  | step ht hstep =>
      rcases Sys.after_calls ht' with ⟨-, rfl⟩ | ⟨-, ht'⟩
      · rw [hstep.call_eq.2.2]
        exact hS _ _ ht
      · exact hS t' c' ht'

/-- Runs whose calls draw low levels make no node of the top level. -/
theorem meets_lowSection (rb : KernelRbtree) (T : PidNsTree ι) (as : List (Act ι))
    (has : ∀ t n env, Act.start t n env ∈ as → env.Low) :
    Meets (sysStep (rbList rb) T) LowSection (Sys.init PidRbSkiplist.init) as := by
  have hstarts : Meets (sysStep (rbList rb) T) (fun _ a => ∀ t n env, a = .start t n env → env.Low)
      (Sys.init PidRbSkiplist.init) as := by
    refine meets_of_forall (fun a ha s t n env heq => ?_) _
    exact has t n env (heq ▸ ha)
  refine hstarts.imp_of_invariant (I := fun s => ∃ S, SysSim RbRepresents s S ∧ SysShape T S ∧
    ∀ t c, S.calls t = some c → c.env.Low) (fun s a hI ha => ?_) ?_
  · obtain ⟨S, hs, hS, henv⟩ := hI
    constructor
    · cases a with
      | step t => exact fun c hc => (henv t c ((congrFun hs.calls t).symm.trans hc)).admissible _
      | start | free | disable | writeLastPid => trivial
    · intro s' hrun
      obtain ⟨s'', S', hrun', hs', hstep⟩ :=
        sysStep_refines (rbList_simulates rb) hs hS (fun ht => (henv _ _ ht).admissible _) a
      obtain rfl := Except.ok.inj (hrun.symm.trans hrun')
      exact ⟨S', hs', hstep.shape hS, hstep.low henv ha⟩
  · exact ⟨_, sysSim_init rbRepresents_init, sysShape_init, fun t c ht => by simp [Sys.init] at ht⟩

theorem grantAll_low (pidMax : ℤ) : (grantAll pidMax).Low := by
  have hlow : LowDraw ⟨pidSlRandomLevel 1, true, true⟩ := by
    show (pidSlRandomLevel 1).val < pidSlMaxLevel
    decide
  exact ⟨fun _ _ => hlow, fun _ => hlow⟩

/-- Two calls that overlap. -/
theorem builds_agree_overlap :
    ∃ s s', run (sysStep plainList soleNs) (Sys.init init)
        [.start 0 () (grantAll 32768), .start 1 () (grantAll 32768), .step 0, .step 1, .step 1,
          .step 0] = .ok s ∧
      run (sysStep (rbList .flat) soleNs) (Sys.init PidRbSkiplist.init)
        [.start 0 () (grantAll 32768), .start 1 () (grantAll 32768), .step 0, .step 1, .step 1,
          .step 0] = .ok s' ∧
      s'.Matches .flat s := by
  refine builds_agree .flat soleNs _ (meets_lowSection .flat soleNs _ fun t n env hstart => ?_)
  simp only [List.mem_cons, Act.start.injEq, reduceCtorEq, List.not_mem_nil, or_false] at hstart
  rcases hstart with ⟨-, -, rfl⟩ | ⟨-, -, rfl⟩
  · exact grantAll_low 32768
  · exact grantAll_low 32768

end KernelPid
