import KernelPid.Lib.FlagWord
import KernelPid.Pid.System

/-!
# The count of a namespace

`pid_allocated` holds the flag `PIDNS_ADDING` and, in the bits below it, a count. The count is that
of the published pids with a number in the namespace (`Sys.CountsLive`), as long as there are fewer
than `2 ^ 31` of them: then it never wraps around, and a flag that was cleared stays clear
(`allocated_counts_live`).
-/

namespace KernelPid

open Runs PidSkiplist

variable {σ ι : Type}

/-- `pid_allocated` without its `PIDNS_ADDING` bit. -/
def PidNamespace.count (a : PidNamespace σ) : ℕ := (a.pidAllocated &&& ~~~pidnsAdding).toNat

/-- `PIDNS_ADDING` is set. -/
def PidNamespace.Adding (a : PidNamespace σ) : Prop := a.pidAllocated &&& pidnsAdding ≠ 0

section Count

variable [DecidableEq ι]

/-- `d` has a number in `n`. -/
def PidStruct.hasNumberIn (d : PidStruct ι) (n : ι) : Bool :=
  (List.range (d.level + 1)).any fun i => (d.numbers i).any fun u => u.ns = n

/-- How many published pids have a number in `n`. -/
def Sys.livePids (s : Sys σ ι) (n : ι) : ℕ :=
  s.live.countP fun p => (s.K.pid p).any fun d => d.hasNumberIn n

/-- In each namespace `pid_allocated` counts the published pids. -/
def Sys.CountsLive (s : Sys σ ι) : Prop := ∀ n, (s.K.ns n).count = s.livePids n

end Count

/-- Each count that the step decrements is above 0, and each one that it increments stays
below bit 31. -/
def Sys.Fits (s : Sys σ ι) : Act ι → Prop
  | .free p => p ∈ s.live → ∀ nr n, s.K.Owns p nr n → 1 ≤ (s.K.ns n).count
  | .step t => ∀ c, s.calls t = some c → c.pc = .publish → (s.K.ns c.ns).Adding →
      ∀ nr n, s.K.Owns c.pid nr n → (s.K.ns n).count + 1 < 2 ^ 31
  | _ => True

/-- `n` is shut in `s'`, and no call of `alloc_pid(n)` has succeeded since `s`. -/
structure Sys.ShutSince (s s' : Sys σ ι) (n : ι) : Prop where
  shut : ¬ (s'.K.ns n).Adding
  calls : ∀ t c p, s'.calls t = some c → c.ns = n → c.pc = .returned (.pid p) → s.calls t = some c

/-! ## One word -/

section Word

variable {a b : PidNamespace σ}

theorem PidNamespace.count_eq (a : PidNamespace σ) : a.count = FlagWord.count a.pidAllocated := rfl

theorem PidNamespace.adding_iff (a : PidNamespace σ) : a.Adding ↔ FlagWord.IsSet a.pidAllocated :=
  Iff.rfl

/-- `pid_allocated++` -/
theorem PidNamespace.count_succ (hb : b.pidAllocated = a.pidAllocated + 1)
    (h : a.count + 1 < 2 ^ 31) : b.count = a.count + 1 ∧ (b.Adding ↔ a.Adding) := by
  rw [count_eq, count_eq, adding_iff, adding_iff, hb]
  exact FlagWord.add_one h

/-- `--pid_allocated`, which also clears the flag if it leaves nothing but the flag. -/
theorem PidNamespace.count_pred (hb : b.pidAllocated = decAllocated a.pidAllocated)
    (h : 1 ≤ a.count) : b.count = a.count - 1 ∧ (b.Adding → a.Adding) := by
  obtain ⟨hcount, hadding⟩ := FlagWord.sub_one h
  rw [count_eq, count_eq, adding_iff, adding_iff, hb, decAllocated]
  split
  · -- the first process could not be forked: the word is set to 0, which is the count that is left
    rename_i hflag
    rw [hflag] at hcount
    exact ⟨FlagWord.count_zero.trans (FlagWord.count_flag.symm.trans hcount),
      fun hset => absurd hset FlagWord.not_isSet_zero⟩
  · exact ⟨hcount, hadding.mp⟩

/-- `pid_allocated &= ~PIDNS_ADDING` -/
theorem PidNamespace.count_clear (hb : b.pidAllocated = a.pidAllocated &&& ~~~pidnsAdding) :
    b.count = a.count ∧ ¬ b.Adding := by
  rw [count_eq, count_eq, adding_iff, hb]
  exact FlagWord.clear a.pidAllocated

end Word

/-! ## What a step does to the words -/

variable {T : PidNsTree ι} {S S' : MapSys ι} {s : Sys (PidSkiplist PidAddr) ι} {a : Act ι} {n : ι}

section Call

variable {A A' : MapKernel ι} {c c' : AllocCall ι}

/-- The step publishes the pid of the call, which is at `d`. -/
structure Publishes (A : MapKernel ι) (c : AllocCall ι) (A' : MapKernel ι) (c' : AllocCall ι)
    (d : PidStruct ι) : Prop where
  pc : c.pc = .publish
  adding : (A.ns c.ns).Adding
  pid : A.pid c.pid = some d
  pid_eq : A'.pid = A.pid
  live : ∀ live, liveAfter c c' live = c.pid :: live
  counted : ∀ {nr n}, d.Owns nr n → (A'.ns n).pidAllocated = (A.ns n).pidAllocated + 1
  other : ∀ {n}, (∀ nr, ¬ d.Owns nr n) → (A'.ns n).pidAllocated = (A.ns n).pidAllocated

/-- The step publishes nothing. -/
structure PublishesNone (A : MapKernel ι) (c : AllocCall ι) (A' : MapKernel ι) (c' : AllocCall ι) :
    Prop where
  shut : c.pc = .publish → ¬ (A.ns c.ns).Adding
  live : ∀ live, liveAfter c c' live = live
  returned : ∀ {p}, c'.pc = .returned (.pid p) → c' = c
  pidAllocated : ∀ n, (A'.ns n).pidAllocated = (A.ns n).pidAllocated

/-- A step of a call that was not about to publish. -/
theorem PublishesNone.of_ne_publish (hpc : c.pc ≠ .publish)
    (hreturned : ∀ {p}, c'.pc = .returned (.pid p) → c' = c)
    (hword : ∀ n, (A'.ns n).pidAllocated = (A.ns n).pidAllocated) : PublishesNone A c A' c' where
  shut h := absurd h hpc
  live live := by
    unfold liveAfter
    split
    · rename_i h _
      exact absurd h hpc
    · rfl
  returned := hreturned
  pidAllocated := hword

theorem Publishes.numbers {d : PidStruct ι} (h : Publishes A c A' c' d) (hc : c.Shape T A.pid) :
    d.NumbersFrom T c.ns 0 := by
  simp only [AllocCall.Shape, h.pc] at hc
  obtain ⟨d', hd', hnum⟩ := hc
  obtain rfl := Option.some.inj (h.pid.symm.trans hd')
  exact hnum

end Call

theorem SysSim.count_eq (hs : SysSim Represents s S) (n : ι) :
    (s.K.ns n).count = (S.K.ns n).count :=
  congrArg FlagWord.count (hs.K.ns n).pidAllocated

theorem SysSim.adding_iff (hs : SysSim Represents s S) (n : ι) :
    (s.K.ns n).Adding ↔ (S.K.ns n).Adding := by
  rw [PidNamespace.adding_iff, (hs.K.ns n).pidAllocated]
  rfl

/-! ## The live pids -/

variable [DecidableEq ι]

theorem PidStruct.NumbersFrom.hasNumberIn_iff {d : PidStruct ι} {ns : ι} {lo : ℕ}
    (hd : d.NumbersFrom T ns lo) (n : ι) : d.hasNumberIn n = true ↔ ∃ nr, d.Owns nr n := by
  simp only [PidStruct.hasNumberIn, List.any_eq_true, List.mem_range, Option.any_eq_true,
    decide_eq_true_eq]
  constructor
  · rintro ⟨j, -, u, hu, rfl⟩
    exact ⟨u.nr, j, hu⟩
  · rintro ⟨nr, j, hj⟩
    refine ⟨j, ?_, _, hj, rfl⟩
    rw [hd.level]
    exact Nat.lt_succ_of_le (hd.le_level hj)

/-- The count looks at the live pids only. -/
theorem Sys.livePids_congr (hlive : S'.live = S.live) (hpid : ∀ p ∈ S.live, S'.K.pid p = S.K.pid p)
    (n : ι) : S'.livePids n = S.livePids n := by
  unfold Sys.livePids
  rw [hlive]
  apply List.countP_congr
  intro p hp
  rw [hpid p hp]

theorem Sys.livePids_le (S : MapSys ι) (n : ι) : S.livePids n ≤ S.live.length :=
  List.countP_le_length

/-- A live pid is counted in each of its namespaces. -/
theorem SysShape.hasNumberIn_iff (hS : SysShape T S) {p : PidAddr} (hp : p ∈ S.live) (n : ι) :
    (S.K.pid p).any (fun d => d.hasNumberIn n) = true ↔ ∃ nr, S.K.Owns p nr n := by
  obtain ⟨-, -, d, ns, hd, hnum⟩ := hS.live hp
  rw [hd, Option.any_some, hnum.hasNumberIn_iff]
  exact exists_congr fun nr => (Kernel.owns_iff hd nr n).symm

theorem SysShape.livePids_pos (hS : SysShape T S) {p : PidAddr} {nr : ℤ} (hp : p ∈ S.live)
    (ho : S.K.Owns p nr n) : 1 ≤ S.livePids n :=
  List.countP_pos_iff.mpr ⟨p, hp, (hS.hasNumberIn_iff hp n).mpr ⟨nr, ho⟩⟩

/-! ## Calls -/

section Call

variable {A A' : MapKernel ι} {c c' : AllocCall ι}

theorem reserved_pidAllocated (A : MapKernel ι) (p : PidAddr) (i : ℕ) (tmp n : ι) (nr : ℤ) :
    ((reserved A p i tmp nr).ns n).pidAllocated = (A.ns n).pidAllocated := by
  by_cases hn : n = tmp
  · subst hn
    simp [reserved, reserveNs, Kernel.setNumber, Kernel.setNs]
  · simp [reserved, Kernel.setNumber, Kernel.setNs, hn]

theorem AllocStep.publishes_or (h : AllocStep T A c A' c') :
    (∃ d, Publishes A c A' c' d) ∨ PublishesNone A c A' c' := by
  cases h with
  | reserve hpc =>
      right
      apply PublishesNone.of_ne_publish
      · simp [hpc]
      · simp
      · exact fun n => reserved_pidAllocated ..
  | @reserveLast tmp nr reaper hpc =>
      right
      apply PublishesNone.of_ne_publish
      · simp [hpc]
      · intro p hp
        simp only at hp
        split at hp <;> simp at hp
      · exact fun n => reserved_pidAllocated ..
  | full hpc =>
      right
      apply PublishesNone.of_ne_publish
      · simp [hpc]
      · simp
      · exact fun n => rfl
  | refuse hpc hshut =>
      right
      refine ⟨fun _ hadding => hadding hshut, fun live => ?_, fun hp => ?_, fun n => rfl⟩
      · simp only [liveAfter, hpc]
      · simp at hp
  | @publish d N hpc hadding hd hN =>
      left
      refine ⟨d, hpc, hadding, hd, rfl, fun live => ?_, fun {nr n} ho => ?_, fun {n} ho => ?_⟩
      · simp only [liveAfter, hpc]
      · obtain ⟨j, hj⟩ := ho
        exact congrArg PidNamespace.pidAllocated (hN.on trivial hj)
      · apply congrArg PidNamespace.pidAllocated
        apply hN.off
        rintro j u - hu rfl
        exact ho u.nr ⟨j, hu⟩
  | @rollback lo d N hpc hd hN =>
      right
      apply PublishesNone.of_ne_publish
      · simp [hpc]
      · simp
      · intro n
        show ((resetCursor _ _).ns n).pidAllocated = _
        rw [resetCursor_pidAllocated]
        exact hN.keeps PidNamespace.pidAllocated (fun _ _ _ => rfl) n
  | returned hpc =>
      right
      apply PublishesNone.of_ne_publish
      · simp [hpc]
      · exact fun _ => rfl
      · exact fun n => rfl

/-- A call writes to no `struct pid` that is live. -/
theorem AllocStep.pid_of_live (h : AllocStep T S.K c A' c') (hS : SysShape T S) {t : ℕ}
    (ht : S.calls t = some c) {p : PidAddr} (hp : p ∈ S.live) : A'.pid p = S.K.pid p := by
  rcases h.inFlight_or with hfl | ⟨rfl, rfl⟩
  · apply h.pid_of_ne
    rintro rfl
    exact hS.not_mem_live ht hfl hp
  · rfl

/-- A step that publishes nothing keeps the counts. -/
theorem PublishesNone.countsLive (h : PublishesNone S.K c A' c') (hcount : S.CountsLive) {t : ℕ}
    (hpid : ∀ p ∈ S.live, A'.pid p = S.K.pid p) : (S.after t c c' A').CountsLive := by
  intro n
  have hsame : (S.after t c c' A').livePids n = S.livePids n :=
    Sys.livePids_congr (h.live S.live) hpid n
  rw [hsame, ← hcount n, PidNamespace.count_eq, PidNamespace.count_eq]
  exact congrArg FlagWord.count (h.pidAllocated n)

/-- A published pid adds 1 to the number of live pids in its namespaces. -/
theorem Publishes.livePids {d : PidStruct ι} (h : Publishes S.K c A' c' d) {ns : ι}
    (hnum : d.NumbersFrom T ns 0) (t : ℕ) (n : ι) :
    ((∃ nr, d.Owns nr n) ∧ (S.after t c c' A').livePids n = S.livePids n + 1) ∨
    ((∀ nr, ¬ d.Owns nr n) ∧ (S.after t c c' A').livePids n = S.livePids n) := by
  have hcons : (S.after t c c' A').livePids n =
      S.livePids n + if d.hasNumberIn n = true then 1 else 0 := by
    unfold Sys.livePids
    show (liveAfter c c' S.live).countP (fun p => (A'.pid p).any fun d => d.hasNumberIn n) = _
    rw [h.live, h.pid_eq, List.countP_cons, h.pid]
    rfl
  have hiff := hnum.hasNumberIn_iff n
  rw [hcons]
  by_cases ho : ∃ nr, d.Owns nr n
  · exact Or.inl ⟨ho, by rw [if_pos (hiff.mpr ho)]⟩
  · exact Or.inr ⟨not_exists.mp ho, by rw [if_neg fun hhas => ho (hiff.mp hhas)]; rfl⟩

/-- Publication keeps the counts, and carries into no flag. -/
theorem Publishes.countsLive {d : PidStruct ι} (h : Publishes S.K c A' c' d) {ns : ι}
    (hnum : d.NumbersFrom T ns 0) (hcount : S.CountsLive) {t : ℕ}
    (hfew : (S.after t c c' A').live.length < 2 ^ 31) (n : ι) :
    ((∃ nr, d.Owns nr n) → (S.K.ns n).count + 1 < 2 ^ 31) ∧
      (A'.ns n).count = (S.after t c c' A').livePids n ∧
      ((A'.ns n).Adding ↔ (S.K.ns n).Adding) := by
  have hle := (S.after t c c' A').livePids_le n
  rcases h.livePids hnum t n with ⟨ho, hlive⟩ | ⟨ho, hlive⟩
  · obtain ⟨nr, ho⟩ := ho
    -- the new pid is live and counted, so the bound on the live pids is one on the counter
    have hlt : (S.K.ns n).count + 1 < 2 ^ 31 := by
      rw [hcount n]
      omega
    obtain ⟨hsucc, hadding⟩ := PidNamespace.count_succ (h.counted ho) hlt
    exact ⟨fun _ => hlt, by rw [hsucc, hlive, hcount n], hadding⟩
  · refine ⟨fun ⟨nr, hnr⟩ => absurd hnr (ho nr), ?_, ?_⟩
    · rw [hlive, ← hcount n, PidNamespace.count_eq, h.other ho]
      rfl
    · rw [PidNamespace.adding_iff, h.other ho]
      rfl

end Call

/-! ## Steps -/

theorem disablePidAllocation_count (K : Kernel σ ι) (ns n : ι) :
    ((disablePidAllocation K ns).ns n).count = (K.ns n).count ∧
      (((disablePidAllocation K ns).ns n).Adding → (K.ns n).Adding) := by
  by_cases hn : n = ns
  · subst hn
    obtain ⟨hcount, hshut⟩ := PidNamespace.count_clear (a := K.ns n)
      (b := (disablePidAllocation K n).ns n) (by simp [disablePidAllocation, Kernel.setNs])
    exact ⟨hcount, fun hadding => absurd hadding hshut⟩
  · have hsame : (disablePidAllocation K ns).ns n = K.ns n := Function.update_of_ne hn _ _
    rw [hsame]
    exact ⟨rfl, id⟩

theorem writeLastPid_pidAllocated (K : Kernel σ ι) (ns n : ι) (v : ℤ) :
    ((writeLastPid K ns v).ns n).pidAllocated = (K.ns n).pidAllocated := by
  by_cases hn : n = ns
  · subst hn
    simp [writeLastPid, Kernel.setNs]
  · simp [writeLastPid, Kernel.setNs, hn]

theorem countsLive_init : Sys.CountsLive (Sys.init fun _ => none : MapSys ι) := by
  intro n
  rw [PidNamespace.count_eq]
  exact FlagWord.count_flag

/-- A freed pid takes 1 from the number of live pids in its namespaces. -/
theorem SysShape.livePids_free (hS : SysShape T S) {p : PidAddr} (hp : p ∈ S.live)
    (N : ι → PidNamespace (Bindings PidAddr)) (n : ι) :
    ((∃ nr, S.K.Owns p nr n) ∧
      Sys.livePids { S with K := { S.K with ns := N }, live := S.live.erase p } n + 1 =
        S.livePids n) ∨
    ((∀ nr, ¬ S.K.Owns p nr n) ∧
      Sys.livePids { S with K := { S.K with ns := N }, live := S.live.erase p } n =
        S.livePids n) := by
  -- the live pids are `p` and those that are left
  have hperm := (List.perm_cons_erase hp).countP_eq
    fun q => (S.K.pid q).any fun d => d.hasNumberIn n
  have hiff := hS.hasNumberIn_iff hp n
  rw [List.countP_cons] at hperm
  by_cases ho : ∃ nr, S.K.Owns p nr n
  · rw [if_pos (hiff.mpr ho)] at hperm
    exact Or.inl ⟨ho, hperm.symm⟩
  · rw [if_neg fun hhas => ho (hiff.mp hhas)] at hperm
    exact Or.inr ⟨not_exists.mp ho, hperm.symm⟩

/-- `free_pid` keeps the counts, and sets no flag. -/
theorem SysShape.countsLive_free (hS : SysShape T S) (hcount : S.CountsLive) {p : PidAddr}
    (hp : p ∈ S.live) {d : PidStruct ι} (hd : S.K.pid p = some d)
    {N : ι → PidNamespace (Bindings PidAddr)}
    (hN : LevelsApplied d (fun _ => True) freeNs S.K.ns N) (n : ι) :
    (N n).count = Sys.livePids { S with K := { S.K with ns := N }, live := S.live.erase p } n ∧
      ((N n).Adding → (S.K.ns n).Adding) := by
  have howns : ∀ nr, S.K.Owns p nr n ↔ d.Owns nr n := fun nr => Kernel.owns_iff hd nr n
  rcases hS.livePids_free hp N n with ⟨⟨nr, ho⟩, hlive⟩ | ⟨ho, hlive⟩
  · -- the pid itself is counted, so the count is above 0
    have hpos := hS.livePids_pos hp ho
    obtain ⟨j, hj⟩ := (howns nr).mp ho
    rw [← hcount n] at hpos hlive
    have hword : (N n).pidAllocated = decAllocated (S.K.ns n).pidAllocated :=
      congrArg PidNamespace.pidAllocated (hN.on trivial hj)
    obtain ⟨hpred, hadding⟩ := PidNamespace.count_pred hword hpos
    exact ⟨by omega, hadding⟩
  · have hsame : N n = S.K.ns n := by
      apply hN.off
      rintro j u - hu rfl
      exact ho u.nr ((howns u.nr).mpr ⟨j, hu⟩)
    rw [hsame, hlive]
    exact ⟨hcount n, id⟩

/-- A new call adds no live pid. -/
theorem SysShape.livePids_start (hS : SysShape T S) (t : ℕ) (ns : ι) (env : AllocEnv) (n : ι) :
    (S.started t (newCall T S.K.brk ns env) (S.K.newPidStruct (T.level ns))).livePids n =
      S.livePids n := by
  refine Sys.livePids_congr ?_ (fun p hp => ?_) n
  · rfl
  · exact Function.update_of_ne (Nat.ne_of_lt (hS.live hp).lt_brk) _ _

/-- A step keeps the counts, and sets no flag, as long as there are few enough live pids. -/
theorem SysStep.countsLive (h : SysStep T S a S') (hS : SysShape T S) (hcount : S.CountsLive)
    (hfew : S'.live.length < 2 ^ 31) :
    S'.CountsLive ∧ ∀ n, (S'.K.ns n).Adding → (S.K.ns n).Adding := by
  cases h with
  | skip => exact ⟨hcount, fun n => id⟩
  | start ns env =>
      refine ⟨fun n => ?_, fun n => id⟩
      rw [hS.livePids_start]
      exact hcount n
  | startFailed => exact ⟨hcount, fun n => id⟩
  | @step t c c' A ht hstep =>
      rcases hstep.publishes_or with ⟨d, hpub⟩ | hnone
      · have hall := fun n => hpub.countsLive (hpub.numbers (hS.shape ht)) hcount hfew n
        exact ⟨fun n => (hall n).2.1, fun n => (hall n).2.2.mp⟩
      · refine ⟨hnone.countsLive hcount fun p hp => hstep.pid_of_live hS ht hp, fun n hadding => ?_⟩
        rw [PidNamespace.adding_iff, ← hnone.pidAllocated n]
        exact hadding
  | free hp hd hN =>
      have hall := hS.countsLive_free hcount hp hd hN
      exact ⟨fun n => (hall n).1, fun n => (hall n).2⟩
  | disable ns =>
      exact ⟨fun n => (disablePidAllocation_count S.K ns n).1.trans (hcount n),
        fun n => (disablePidAllocation_count S.K ns n).2⟩
  | writeLastPid ns v =>
      have hword := fun n => writeLastPid_pidAllocated S.K ns n v
      refine ⟨fun n => (congrArg FlagWord.count (hword n)).trans (hcount n), fun n hadding => ?_⟩
      rw [PidNamespace.adding_iff, ← hword n]
      exact hadding

/-- A call that returns a pid in a step had returned it, or its namespace takes new processes. -/
theorem SysStep.returned (h : SysStep T S a S') {t : ℕ} {c : AllocCall ι} {p : PidAddr}
    (ht : S'.calls t = some c) (hpc : c.pc = .returned (.pid p)) :
    S.calls t = some c ∨ (S.K.ns c.ns).Adding := by
  cases h with
  | start =>
      rcases Sys.started_calls ht with ⟨-, rfl⟩ | ht
      · simp [newCall] at hpc
      · exact Or.inl ht
  | startFailed =>
      rcases Sys.started_calls ht with ⟨-, rfl⟩ | ht
      · simp at hpc
      · exact Or.inl ht
  | step ht₀ hstep =>
      rcases Sys.after_calls ht with ⟨rfl, rfl⟩ | ⟨-, ht⟩
      · rcases hstep.publishes_or with ⟨d, hpub⟩ | hnone
        · rw [hstep.call_eq.1]
          exact Or.inr hpub.adding
        · rw [hnone.returned hpc]
          exact Or.inl ht₀
      · exact Or.inl ht
  | skip | free | disable | writeLastPid => exact Or.inl ht

/-! ## Runs -/

theorem SysSim.countsLive_iff (hs : SysSim Represents s S) : s.CountsLive ↔ S.CountsLive := by
  unfold Sys.CountsLive Sys.livePids
  rw [hs.live, hs.K.pid]
  exact forall_congr' fun n => by rw [hs.count_eq]

/-- A step leaves a shut namespace shut, and no call for it succeeds. -/
theorem Sys.ShutSince.step {s₀ s' : Sys (PidSkiplist PidAddr) ι} (h : s₀.ShutSince s n)
    (hs : SysSim Represents s S) (hs' : SysSim Represents s' S') (hstep : SysStep T S a S')
    (hadding : (S'.K.ns n).Adding → (S.K.ns n).Adding) : s₀.ShutSince s' n := by
  have hshut : ¬ (S.K.ns n).Adding := by
    rw [← hs.adding_iff]
    exact h.shut
  refine ⟨?_, fun t c p ht hn hpc => ?_⟩
  · rw [hs'.adding_iff]
    exact fun hset => hshut (hadding hset)
  · rw [hs'.calls] at ht
    rcases hstep.returned ht hpc with ht | hset
    · rw [← hs.calls] at ht
      exact h.calls t c p ht hn hpc
    · rw [hn] at hset
      exact absurd hset hshut

/-- What the invariant needs of one step of the code. -/
theorem sysStep_counts (hs : SysSim Represents s S) (hS : SysShape T S) (hcount : S.CountsLive)
    (a : Act ι) : ∃ s' S', sysStep plainList T s a = .ok s' ∧ SysSim Represents s' S' ∧
      SysStep T S a S' ∧ (s'.live.length < 2 ^ 31 → s.Fits a) := by
  have hrefines := sysStep_refines plainList_simulates hs hS
    (fun _ => AllocCall.admissible_true _ _) a
  cases a with
  | step t =>
      cases ht : S.calls t with
      | none =>
          obtain ⟨s', S', hstep, hs', hS'⟩ := hrefines
          refine ⟨s', S', hstep, hs', hS', fun _ c hc => ?_⟩
          rw [hs.calls, ht] at hc
          simp at hc
      | some c =>
          obtain ⟨K', c', A', hstep, hs', hcall⟩ :=
            sysStep_call plainList_simulates hs hS ht (AllocCall.admissible_true _ _)
          refine ⟨_, _, hstep, hs', SysStep.step ht hcall,
            fun hfew c₁ hc₁ hpc hadding nr n ho => ?_⟩
          obtain rfl : c = c₁ := by
            rw [hs.calls, ht] at hc₁
            exact Option.some.inj hc₁
          rw [hs.adding_iff] at hadding
          rw [hs.owns_iff] at ho
          rw [hs'.live] at hfew
          rw [hs.count_eq]
          rcases hcall.publishes_or with ⟨d, hpub⟩ | hnone
          · obtain ⟨d', hd', ho⟩ := ho
            obtain rfl := Option.some.inj (hpub.pid.symm.trans hd')
            exact (hpub.countsLive (hpub.numbers (hS.shape ht)) hcount hfew n).1 ⟨nr, ho⟩
          · exact absurd hadding (hnone.shut hpc)
  | free p =>
      obtain ⟨s', S', hstep, hs', hS'⟩ := hrefines
      refine ⟨s', S', hstep, hs', hS', fun _ hp nr n ho => ?_⟩
      rw [hs.live] at hp
      rw [hs.owns_iff] at ho
      rw [hs.count_eq, hcount n]
      exact hS.livePids_pos hp ho
  | start | disable | writeLastPid =>
      obtain ⟨s', S', hstep, hs', hS'⟩ := hrefines
      exact ⟨s', S', hstep, hs', hS', fun _ => trivial⟩

/-- While fewer than `2 ^ 31` pids are live at once: in every state of every run `pid_allocated`,
without `PIDNS_ADDING`, is the number of the published pids with a number in the namespace; no step
on the way took it below 0 or into bit 31; and once `PIDNS_ADDING` is clear it stays clear, so that
no later `alloc_pid` of the namespace succeeds. -/
theorem allocated_counts_live (T : PidNsTree ι) (as bs : List (Act ι))
    (hfew : Throughout (sysStep plainList T) (fun s => s.live.length < 2 ^ 31) (Sys.init init)
      (as ++ bs)) :
    ∃ s s', run (sysStep plainList T) (Sys.init init) as = .ok s ∧
      run (sysStep plainList T) s bs = .ok s' ∧ s.CountsLive ∧
      Meets (sysStep plainList T) Sys.Fits (Sys.init init) as ∧
      ∀ n, ¬ (s.K.ns n).Adding → s.ShutSince s' n := by
  -- one step, for the part of the run before `s` and the part behind it
  have hstep : ∀ s a, (∃ S, SysSim Represents s S ∧ SysShape T S ∧ S.CountsLive) →
      ∃ s' S', sysStep plainList T s a = .ok s' ∧ SysSim Represents s' S' ∧
        (s'.live.length < 2 ^ 31 →
        SysShape T S' ∧ S'.CountsLive ∧ s.Fits a ∧
          ∀ s₀ n, Sys.ShutSince s₀ s n → Sys.ShutSince s₀ s' n) := by
    rintro s a ⟨S, hs, hS, hcount⟩
    obtain ⟨s', S', hrun, hs', hS', hfits⟩ := sysStep_counts hs hS hcount a
    refine ⟨s', S', hrun, hs', fun hfew => ?_⟩
    obtain ⟨hcount', hadding⟩ := hS'.countsLive hS hcount (by rwa [← hs'.live])
    exact ⟨hS'.shape hS, hcount', hfits hfew, fun s₀ n h => h.step hs hs' hS' (hadding n)⟩
  obtain ⟨s, hrun, hI, hfits⟩ := run_invariant_meets (C := Sys.Fits)
    (I := fun s => ∃ S, SysSim Represents s S ∧ SysShape T S ∧ S.CountsLive)
    (fun s a hI _ => by
      obtain ⟨s', S', hrun, hs', hrest⟩ := hstep s a hI
      refine ⟨s', hrun, fun hfew => ?_⟩
      obtain ⟨hS', hcount', hfits, -⟩ := hrest hfew
      exact ⟨⟨S', hs', hS', hcount'⟩, hfits⟩)
    ⟨_, sysSim_init represents_init, sysShape_init, countsLive_init⟩ hfew.left
  -- from there on, with what the namespaces and the calls were then
  obtain ⟨s', hrun', ⟨-, hshut⟩, -⟩ := run_invariant_meets (C := Sys.Fits)
    (I := fun s' => (∃ S, SysSim Represents s' S ∧ SysShape T S ∧ S.CountsLive) ∧
      ∀ n, ¬ (s.K.ns n).Adding → s.ShutSince s' n)
    (fun s₁ a hI _ => by
      obtain ⟨s', S', hrun, hs', hrest⟩ := hstep s₁ a hI.1
      refine ⟨s', hrun, fun hfew => ?_⟩
      obtain ⟨hS', hcount', hfits, hshut⟩ := hrest hfew
      exact ⟨⟨⟨S', hs', hS', hcount'⟩, fun n hn => hshut s n (hI.2 n hn)⟩, hfits⟩)
    ⟨hI, fun n hn => ⟨hn, fun t c p ht _ _ => ht⟩⟩ (hfew.split hrun)
  obtain ⟨S, hs, -, hcount⟩ := hI
  exact ⟨s, s', hrun, hrun', hs.countsLive_iff.mpr hcount, hfits, hshut⟩

/-- The first process is made and freed, which clears the flag: a second call then fails. -/
theorem allocated_counts_live_reaper :
    ∃ s s', run (sysStep plainList soleNs) (Sys.init init)
        [.start 0 () (grantAll 32768), .step 0, .step 0, .free 0] = .ok s ∧
      run (sysStep plainList soleNs) s
        [.start 1 () (grantAll 32768), .step 1, .step 1, .step 1] = .ok s' ∧ s.CountsLive ∧
      Meets (sysStep plainList soleNs) Sys.Fits (Sys.init init)
        [.start 0 () (grantAll 32768), .step 0, .step 0, .free 0] ∧
      ∀ n, ¬ (s.K.ns n).Adding → s.ShutSince s' n :=
  allocated_counts_live soleNs _ _ (by decide)

end KernelPid
