import KernelPid.Pid.Levels
import KernelPid.Pid.Reserve

/-!
# The steps of `alloc_pid` over maps

`AllocStep` is what one section of an `alloc_pid` call does to a kernel over maps, with the number
that the scan finds said by `Picks`. The theorems here say that the code of a build, run on its own
list, does just that (`Simulates.allocStep`), and that a call is always in good shape
(`AllocStep.shape`), so it never reads a number it has not written and never runs out of parents.
-/

namespace KernelPid

open Runs PidSkiplist Ancestors

variable {σ ι : Type} {T : PidNsTree ι} {B : PidList σ}
  {Rep : σ → Bindings PidAddr → Prop} {adm : NodeEnv → Prop} {K : Kernel σ ι}
  {A A' : MapKernel ι} {c c' : AllocCall ι}

/-! ## The shape of a call -/

/-- The scan of the level `i` of the call `c`, in the namespace `tmp`, takes the number `nr`. -/
def PicksAt (A : MapKernel ι) (c : AllocCall ι) (i : ℕ) (tmp : ι) (nr : ℤ) : Prop :=
  Picks (A.ns tmp).pidSl (A.ns tmp).lastPid (c.env.reserve i) nr

/-- What the call `c` has written of its `struct pid`, by where it stands. -/
def AllocCall.Shape (T : PidNsTree ι) (pid : PidAddr → Option (PidStruct ι)) (c : AllocCall ι) :
    Prop :=
  match c.pc with
  | .reserve i tmp => T.IsAncestor c.ns tmp ∧ T.level tmp = i ∧
      ∃ d, pid c.pid = some d ∧ d.NumbersFrom T c.ns (i + 1)
  | .publish => ∃ d, pid c.pid = some d ∧ d.NumbersFrom T c.ns 0
  | .rollback lo => ∃ d, pid c.pid = some d ∧ d.NumbersFrom T c.ns lo
  | .returned _ => True

/-- Behind the level loop, the levels from `lo` up have their numbers. -/
theorem AllocCall.shape_behind_iff {c : AllocCall ι} {pid : PidAddr → Option (PidStruct ι)} {lo : ℕ}
    (hpc : c.pc = .publish ∧ lo = 0 ∨ c.pc = .rollback lo) :
    c.Shape T pid ↔ ∃ d, pid c.pid = some d ∧ d.NumbersFrom T c.ns lo := by
  rcases hpc with ⟨hpc, rfl⟩ | hpc
  · simp only [AllocCall.Shape, hpc]
  · simp only [AllocCall.Shape, hpc]

/-- The nodes that the next section of the call `c` makes have levels the build can bear. -/
structure AllocCall.Admissible (adm : NodeEnv → Prop) (A : MapKernel ι) (c : AllocCall ι) :
    Prop where
  reserve : ∀ {i tmp nr}, c.pc = .reserve i tmp → PicksAt A c i tmp nr →
    Admits adm (A.ns tmp).pidSl nr ((c.env.reserve i).node nr)
  publish : ∀ {d}, c.pc = .publish → A.pid c.pid = some d → ∀ j u, d.numbers j = some u →
    Admits adm (A.ns u.ns).pidSl u.nr (c.env.publish j)

/-- A build that can bear any level has no conditions. -/
theorem AllocCall.admissible_true (A : MapKernel ι) (c : AllocCall ι) :
    c.Admissible (fun _ => True) A :=
  ⟨fun _ _ _ _ => trivial, fun _ _ _ _ _ _ _ => trivial⟩

theorem setNumber_pid_self {K : Kernel σ ι} {p : PidAddr} {d : PidStruct ι} (hd : K.pid p = some d)
    (i : ℕ) (u : Upid ι) : (K.setNumber p i u).pid p =
      some { d with numbers := Function.update d.numbers i (some u) } := by
  simp [Kernel.setNumber, hd]

theorem setNumber_pid_of_ne {K : Kernel σ ι} {p q : PidAddr} (hq : q ≠ p) (i : ℕ) (u : Upid ι) :
    (K.setNumber p i u).pid q = K.pid q := by
  simp [Kernel.setNumber, hq]

/-! ## Beginning a call -/

theorem KernelSim.newPidStruct (hK : KernelSim Rep K A) (level : ℕ) :
    KernelSim Rep (K.newPidStruct level) (A.newPidStruct level) :=
  ⟨hK.ns, by simp only [Kernel.newPidStruct, hK.pid, hK.brk],
    by simp only [Kernel.newPidStruct, hK.brk]⟩

/-- The call that `allocBegin` makes, with its `struct pid` at `p`. -/
def newCall (T : PidNsTree ι) (p : PidAddr) (ns : ι) (env : AllocEnv) : AllocCall ι :=
  { ns, pid := p, env, retval := -ENOMEM, pc := .reserve (T.level ns) ns }

/-- A call begins with a new `struct pid`, or fails for lack of one. -/
theorem Simulates.allocBegin (hB : Simulates B Rep adm) (hK : KernelSim Rep K A) (ns : ι)
    (env : AllocEnv) :
    (env.pidAlloc = false ∧ KernelPid.allocBegin B T K ns env =
      (K, { newCall T A.brk ns env with pc := .returned (.err (-ENOMEM)) })) ∨
    (env.pidAlloc = true ∧ KernelPid.allocBegin B T K ns env =
      (K.newPidStruct (T.level ns), newCall T A.brk ns env)) := by
  have hheader := hB.hasHeader (hK.ns ns).pidSl
  cases halloc : env.pidAlloc with
  | false => exact Or.inl ⟨rfl, by simp [KernelPid.allocBegin, hheader, halloc, newCall, hK.brk]⟩
  | true => exact Or.inr ⟨rfl, by simp [KernelPid.allocBegin, hheader, halloc, newCall, hK.brk]⟩

/-- A call that begins is in shape. -/
theorem newCall_shape (A : MapKernel ι) (ns : ι) (env : AllocEnv) :
    (newCall T A.brk ns env).Shape T (A.newPidStruct (T.level ns)).pid :=
  ⟨IsAncestor.refl ns, rfl, _, Function.update_self _ _ _, PidStruct.numbersFrom_new ns⟩

/-! ## Abstract steps -/

variable [DecidableEq ι]

/-- The kernel after `nr` was reserved in `tmp`, at level `i`, for the `struct pid` `p`. -/
def reserved (A : MapKernel ι) (p : PidAddr) (i : ℕ) (tmp : ι) (nr : ℤ) : MapKernel ι :=
  (A.setNs tmp (reserveNs i nr (A.ns tmp))).setNumber p i { nr, ns := tmp }

/-- One section of an `alloc_pid` call, on a kernel over maps. -/
inductive AllocStep (T : PidNsTree ι) (A : MapKernel ι) (c : AllocCall ι) :
    MapKernel ι → AllocCall ι → Prop
  | reserve {i : ℕ} {tmp tmp' : ι} {nr : ℤ} (hpc : c.pc = .reserve (i + 1) tmp)
      (hparent : T.parent tmp = some tmp') (hpick : PicksAt A c (i + 1) tmp nr) :
      AllocStep T A c (reserved A c.pid (i + 1) tmp nr)
        { c with retval := 0, pc := .reserve i tmp' }
  | reserveLast {tmp : ι} {nr : ℤ} {reaper : Bool} (hpc : c.pc = .reserve 0 tmp)
      (hpick : PicksAt A c 0 tmp nr)
      (hreaper : isChildReaper (reserved A c.pid 0 tmp nr) c.pid = .ok reaper) :
      AllocStep T A c (reserved A c.pid 0 tmp nr)
        { c with
          retval := 0
          pc := if reaper = true ∧ c.env.prepareProc = false then .rollback 0 else .publish }
  | full {i : ℕ} {tmp : ι} (hpc : c.pc = .reserve i tmp)
      (hnone : PicksNone (A.ns tmp).pidSl (c.env.reserve i)) :
      AllocStep T A c A { c with retval := -1, pc := .rollback (i + 1) }
  | refuse (hpc : c.pc = .publish) (hadding : (A.ns c.ns).pidAllocated &&& pidnsAdding = 0) :
      AllocStep T A c A { c with pc := .rollback 0 }
  | publish {d : PidStruct ι} {N : ι → PidNamespace (Bindings PidAddr)} (hpc : c.pc = .publish)
      (hadding : (A.ns c.ns).pidAllocated &&& pidnsAdding ≠ 0) (hd : A.pid c.pid = some d)
      (hN : LevelsApplied d (fun _ => True) (publishNs c.pid c.env.publish) A.ns N) :
      AllocStep T A c { A with ns := N } { c with pc := .returned (.pid c.pid) }
  | rollback {lo : ℕ} {d : PidStruct ι} {N : ι → PidNamespace (Bindings PidAddr)}
      (hpc : c.pc = .rollback lo) (hd : A.pid c.pid = some d)
      (hN : LevelsApplied d (fun _ => True) rollbackNs A.ns N) :
      AllocStep T A c ((resetCursor { A with ns := N } c.ns).freePidStruct c.pid)
        { c with pc := .returned (.err c.retval) }
  | returned {r : AllocResult} (hpc : c.pc = .returned r) : AllocStep T A c A c

/-! ## What a step keeps -/

theorem reserved_pidSl (A : MapKernel ι) (p : PidAddr) (i : ℕ) (tmp n : ι) (nr k : ℤ) :
    ((reserved A p i tmp nr).ns n).pidSl k =
      if n = tmp ∧ k = nr then some none else (A.ns n).pidSl k := by
  by_cases hn : n = tmp
  · subst hn
    by_cases hk : k = nr
    · simp [reserved, reserveNs, Kernel.setNumber, Kernel.setNs, hk]
    · simp [reserved, reserveNs, Kernel.setNumber, Kernel.setNs, hk]
  · simp [reserved, Kernel.setNumber, Kernel.setNs, hn]

theorem resetCursor_pidSl (K : Kernel σ ι) (ns n : ι) :
    ((resetCursor K ns).ns n).pidSl = (K.ns n).pidSl := by
  unfold resetCursor
  split
  · by_cases hn : n = ns
    · subst hn
      simp [Kernel.setNs]
    · simp [Kernel.setNs, hn]
  · rfl

theorem resetCursor_pidAllocated (K : Kernel σ ι) (ns n : ι) :
    ((resetCursor K ns).ns n).pidAllocated = (K.ns n).pidAllocated := by
  unfold resetCursor
  split
  · by_cases hn : n = ns
    · subst hn
      simp [Kernel.setNs]
    · simp [Kernel.setNs, hn]
  · rfl

theorem resetCursor_pid (K : Kernel σ ι) (ns : ι) : (resetCursor K ns).pid = K.pid := by
  unfold resetCursor
  split <;> rfl

theorem resetCursor_brk (K : Kernel σ ι) (ns : ι) : (resetCursor K ns).brk = K.brk := by
  unfold resetCursor
  split <;> rfl

/-- The numbers of the call's `struct pid` after a reservation. -/
theorem reserved_numbersFrom {i : ℕ} {tmp : ι} {nr : ℤ} (hpc : c.pc = .reserve i tmp)
    (hc : c.Shape T A.pid) (hpick : PicksAt A c i tmp nr) :
    ∃ d, (reserved A c.pid i tmp nr).pid c.pid = some d ∧ d.NumbersFrom T c.ns i := by
  simp only [AllocCall.Shape, hpc] at hc
  obtain ⟨hanc, hlevel, d, hd, hnum⟩ := hc
  exact ⟨_, setNumber_pid_self hd i _, hnum.setNumber hanc hlevel hpick.pos⟩

/-- A call stays in shape. -/
theorem AllocStep.shape (h : AllocStep T A c A' c') (hc : c.Shape T A.pid) : c'.Shape T A'.pid := by
  cases h with
  | @reserve i tmp tmp' nr hpc hparent hpick =>
      have hnum := reserved_numbersFrom hpc hc hpick
      simp only [AllocCall.Shape, hpc] at hc
      have hlevel := T.level_parent _ _ hparent
      exact ⟨hc.1.step hparent, by omega, hnum⟩
  | @reserveLast tmp nr reaper hpc hpick _ =>
      have hnum := reserved_numbersFrom hpc hc hpick
      by_cases hprep : reaper = true ∧ c.env.prepareProc = false
      · simpa only [AllocCall.Shape, if_pos hprep] using hnum
      · simpa only [AllocCall.Shape, if_neg hprep] using hnum
  | full hpc _ =>
      simp only [AllocCall.Shape, hpc] at hc
      exact hc.2.2
  | refuse hpc _ =>
      simp only [AllocCall.Shape, hpc] at hc
      exact hc
  | publish => trivial
  | rollback => trivial
  | returned => exact hc

/-- A call touches no `struct pid` but its own. -/
theorem AllocStep.pid_of_ne (h : AllocStep T A c A' c') {q : PidAddr} (hq : q ≠ c.pid) :
    A'.pid q = A.pid q := by
  cases h with
  | reserve => exact setNumber_pid_of_ne hq _ _
  | reserveLast => exact setNumber_pid_of_ne hq _ _
  | rollback _ _ _ =>
      show Function.update (resetCursor _ _).pid c.pid none q = A.pid q
      rw [Function.update_of_ne hq, resetCursor_pid]
  | _ => rfl

theorem AllocStep.brk_eq (h : AllocStep T A c A' c') : A'.brk = A.brk := by
  cases h with
  | rollback => exact resetCursor_brk _ _
  | _ => rfl

/-- A call keeps its arguments, its `struct pid` and what it will meet with. -/
theorem AllocStep.call_eq (h : AllocStep T A c A' c') :
    c'.ns = c.ns ∧ c'.pid = c.pid ∧ c'.env = c.env := by
  cases h <;> exact ⟨rfl, rfl, rfl⟩

@[simp] theorem disablePidAllocation_pidSl (K : Kernel σ ι) (ns n : ι) :
    ((disablePidAllocation K ns).ns n).pidSl = (K.ns n).pidSl := by
  by_cases hn : n = ns
  · subst hn
    simp [disablePidAllocation, Kernel.setNs]
  · simp [disablePidAllocation, Kernel.setNs, hn]

/-! ## The code does the abstract steps -/

theorem KernelSim.resetCursor (hK : KernelSim Rep K A) (n : ι) :
    KernelSim Rep (resetCursor K n) (resetCursor A n) := by
  have hn := hK.ns n
  unfold KernelPid.resetCursor
  rw [hn.pidAllocated]
  split
  · exact hK.setNs n ⟨hn.pidSl, rfl, hn.pidAllocated⟩
  · exact hK

theorem KernelSim.disablePidAllocation (hK : KernelSim Rep K A) (n : ι) :
    KernelSim Rep (disablePidAllocation K n) (disablePidAllocation A n) :=
  hK.setNs n ⟨(hK.ns n).pidSl, (hK.ns n).lastPid, by rw [(hK.ns n).pidAllocated]⟩

/-- A call that is in shape has its next section done, over a build's list as over maps. -/
theorem Simulates.allocStep (hB : Simulates B Rep adm) (hK : KernelSim Rep K A)
    (hc : c.Shape T A.pid) (hadm : c.Admissible adm A) :
    ∃ K' c' A', KernelPid.allocStep B T K c = .ok (K', c') ∧ KernelSim Rep K' A' ∧
      AllocStep T A c A' c' := by
  cases hpc : c.pc with
  | reserve i tmp =>
      have hshape := hc
      simp only [AllocCall.Shape, hpc] at hshape
      obtain ⟨hanc, hlevel, -⟩ := hshape
      rcases hB.reserve (hK.ns tmp) (c.env.reserve i) c.retval fun nr => hadm.reserve hpc with
        ⟨nr, d', hpick, hres, hd'⟩ | ⟨hnone, d', retval', hres, hd'⟩
      · have hnr : ¬ nr < 0 := by
          have := hpick.pos
          omega
        have hK' : KernelSim Rep ((K.setNs tmp d').setNumber c.pid i { nr, ns := tmp })
            (reserved A c.pid i tmp nr) := (hK.setNs tmp hd').setNumber _ _ _
        cases i with
        | succ i =>
            obtain ⟨tmp', hparent⟩ := T.exists_parent tmp (by omega)
            refine ⟨_, _, _, ?_, hK', AllocStep.reserve hpc hparent hpick⟩
            simp only [KernelPid.allocStep, hpc, hres, ok_bind, if_neg hnr, hparent]
        | zero =>
            -- all the numbers are there, the top one too
            obtain ⟨d, hd, hnum⟩ := reserved_numbersFrom hpc hc hpick
            obtain ⟨u, hu⟩ := hnum.assigned (T.level c.ns) (Nat.zero_le _) (le_refl _)
            have hreaper : isChildReaper (reserved A c.pid 0 tmp nr) c.pid =
                .ok (decide (u.nr = 1)) := by
              simp only [isChildReaper, Kernel.derefPid, hd, ok_bind, PidStruct.number,
                hnum.level, hu]
            refine ⟨_, _, _, ?_, hK', AllocStep.reserveLast hpc hpick hreaper⟩
            simp only [KernelPid.allocStep, hpc, hres, ok_bind, if_neg hnr, prepare,
              hK'.isChildReaper, hreaper]
      · refine ⟨K.setNs tmp d', _, A, ?_, ?_, AllocStep.full hpc hnone⟩
        · simp [KernelPid.allocStep, hpc, hres, retvalOf, ENOSPC]
        · have hsame : A.setNs tmp (A.ns tmp) = A := by simp [Kernel.setNs]
          have := hK.setNs tmp hd'
          rwa [hsame] at this
  | publish =>
      obtain ⟨d, hd, hnum⟩ := (AllocCall.shape_behind_iff (Or.inl ⟨hpc, rfl⟩)).mp hc
      have hderef := hK.derefPid_eq hd
      by_cases hadding : (A.ns c.ns).pidAllocated &&& pidnsAdding = 0
      · refine ⟨K, _, A, ?_, hK, AllocStep.refuse hpc hadding⟩
        simp only [KernelPid.allocStep, hpc, hderef, ok_bind, (hK.ns c.ns).pidAllocated,
          if_pos hadding]
      · obtain ⟨K', N, hrun, hK', hN⟩ := hB.publishLevels hK hnum (hadm.publish hpc hd)
        refine ⟨K', _, _, ?_, hK', AllocStep.publish hpc hadding hd hN⟩
        simp only [KernelPid.allocStep, hpc, hderef, ok_bind, (hK.ns c.ns).pidAllocated,
          if_neg hadding, hrun]
  | rollback lo =>
      obtain ⟨d, hd, hnum⟩ := (AllocCall.shape_behind_iff (Or.inr hpc)).mp hc
      have hderef := hK.derefPid_eq hd
      obtain ⟨K', N, hrun, hK', hN⟩ := hB.rollbackLevels hK hnum
      refine ⟨_, _, _, ?_, (hK'.resetCursor c.ns).freePidStruct c.pid, AllocStep.rollback hpc hd hN⟩
      simp only [KernelPid.allocStep, hpc, hderef, ok_bind, hrun]
  | returned r =>
      refine ⟨K, c, A, ?_, hK, AllocStep.returned hpc⟩
      simp only [KernelPid.allocStep, hpc]

/-- `free_pid` of a `struct pid` that has all its numbers removes each of them. -/
theorem Simulates.freePid (hB : Simulates B Rep adm) (hK : KernelSim Rep K A) {p : PidAddr}
    {d : PidStruct ι} (hd : A.pid p = some d) {ns : ι} (hnum : d.NumbersFrom T ns 0) :
    ∃ K' N, KernelPid.freePid B K p = .ok K' ∧ KernelSim Rep K' { A with ns := N } ∧
      LevelsApplied d (fun _ => True) freeNs A.ns N := by
  obtain ⟨K', N, hrun, hK', hN⟩ := hB.freeLevels hK hnum
  refine ⟨K', N, ?_, hK', hN⟩
  simp only [KernelPid.freePid, hK.derefPid_eq hd, ok_bind, hrun]

end KernelPid
