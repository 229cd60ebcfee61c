import KernelPid.Lib.Runs
import KernelPid.Pid.Refinement

/-!
# Interleaved calls

Any number of `alloc_pid` calls are in progress at once, and published pids are freed, namespaces
are shut for allocation and `last_pid` is written at any time in between. One step is one section
under `pidmap_lock`. `SysStep` is what a step does over maps and `sysStep_refines` that the code
does it; `SysShape` is the invariant of every run, whatever the steps: no call reads or writes the
`struct pid` of another one, and what a list binds to a pid is a number of this pid.
-/

namespace KernelPid

open Runs PidSkiplist Ancestors

variable {σ ι : Type}

/-! ## Steps -/

/-- The kernel, the `alloc_pid` calls, by the thread they run in, and the published pids that are
not yet freed. -/
structure Sys (σ ι : Type) where
  K : Kernel σ ι
  calls : ℕ → Option (AllocCall ι)
  live : List PidAddr

/-- One section under `pidmap_lock`, or the start of an `alloc_pid` call. -/
inductive Act (ι : Type)
  | start (t : ℕ) (ns : ι) (env : AllocEnv)
  | step (t : ℕ)
  | free (p : PidAddr)
  | disable (ns : ι)
  | writeLastPid (ns : ι) (v : ℤ)

/-- The published pids after a call went from `c` to `c'`. -/
def liveAfter (c c' : AllocCall ι) (live : List PidAddr) : List PidAddr :=
  match c.pc, c'.pc with
  | .publish, .returned (.pid p) => p :: live
  | _, _ => live

/-- Thread `t` made the call `c`, and left the kernel `K`. -/
def Sys.started (s : Sys σ ι) (t : ℕ) (c : AllocCall ι) (K : Kernel σ ι) : Sys σ ι :=
  { s with K, calls := Function.update s.calls t (some c) }

/-- The call of thread `t` went from `c` to `c'`, and left the kernel `K`. -/
def Sys.after (s : Sys σ ι) (t : ℕ) (c c' : AllocCall ι) (K : Kernel σ ι) : Sys σ ι where
  K := K
  calls := Function.update s.calls t (some c')
  live := liveAfter c c' s.live

section Steps

variable [DecidableEq ι]

/-- `ns->last_pid = v` -/
def writeLastPid (K : Kernel σ ι) (ns : ι) (v : ℤ) : Kernel σ ι :=
  K.setNs ns { K.ns ns with lastPid := v }

/-- One step. A step of a thread without a call, and a `free_pid` of what is not a published pid,
are no steps. -/
def sysStep (B : PidList σ) (T : PidNsTree ι) (s : Sys σ ι) : Act ι → Except Fault (Sys σ ι)
  | .start t ns env =>
    match s.calls t with
    | some _ => .ok s
    | none =>
      let (K, c) := allocBegin B T s.K ns env
      .ok (s.started t c K)
  | .step t =>
    match s.calls t with
    | none => .ok s
    | some c => do
      let (K, c') ← allocStep B T s.K c
      .ok (s.after t c c' K)
  | .free p =>
    if p ∈ s.live then do
      let K ← freePid B s.K p
      .ok { s with K, live := s.live.erase p }
    else .ok s
  | .disable ns => .ok { s with K := disablePidAllocation s.K ns }
  | .writeLastPid ns v => .ok { s with K := writeLastPid s.K ns v }

/-- No call has run. -/
def Sys.init (sl : σ) : Sys σ ι where
  K := Kernel.init sl
  calls _ := none
  live := []

/-! ## Steps over maps -/

/-- The system over maps. -/
abbrev MapSys (ι : Type) := Sys (Bindings PidAddr) ι

/-- One step over maps. -/
inductive SysStep (T : PidNsTree ι) (S : MapSys ι) : Act ι → MapSys ι → Prop
  | skip (a : Act ι) : SysStep T S a S
  | start {t : ℕ} (ns : ι) (env : AllocEnv) (ht : S.calls t = none) :
      SysStep T S (.start t ns env)
        (S.started t (newCall T S.K.brk ns env) (S.K.newPidStruct (T.level ns)))
  | startFailed {t : ℕ} (ns : ι) (env : AllocEnv) (ht : S.calls t = none) :
      SysStep T S (.start t ns env)
        (S.started t { newCall T S.K.brk ns env with pc := .returned (.err (-ENOMEM)) } S.K)
  | step {t : ℕ} {c c' : AllocCall ι} {A : MapKernel ι} (ht : S.calls t = some c)
      (hstep : AllocStep T S.K c A c') :
      SysStep T S (.step t) (S.after t c c' A)
  | free {p : PidAddr} {d : PidStruct ι} {N : ι → PidNamespace (Bindings PidAddr)}
      (hp : p ∈ S.live) (hd : S.K.pid p = some d)
      (hN : LevelsApplied d (fun _ => True) freeNs S.K.ns N) :
      SysStep T S (.free p) { S with K := { S.K with ns := N }, live := S.live.erase p }
  | disable (ns : ι) : SysStep T S (.disable ns) { S with K := disablePidAllocation S.K ns }
  | writeLastPid (ns : ι) (v : ℤ) :
      SysStep T S (.writeLastPid ns v) { S with K := writeLastPid S.K ns v }

end Steps

/-! ## The shape of the system -/

variable {T : PidNsTree ι} {S S' : MapSys ι} {a : Act ι}

/-- The call has not returned. -/
def AllocCall.InFlight (c : AllocCall ι) : Prop := ∀ r, c.pc ≠ .returned r

/-- `p` was published: it has all its numbers, and no call will write to it. -/
structure Settled (T : PidNsTree ι) (S : MapSys ι) (p : PidAddr) : Prop where
  lt_brk : p < S.K.brk
  idle : ∀ {t c}, S.calls t = some c → c.InFlight → c.pid ≠ p
  numbers : ∃ d ns, S.K.pid p = some d ∧ d.NumbersFrom T ns 0

/-- The invariant of every run. -/
structure SysShape (T : PidNsTree ι) (S : MapSys ι) : Prop where
  shape : ∀ {t c}, S.calls t = some c → c.Shape T S.K.pid
  lt_brk : ∀ {t c}, S.calls t = some c → c.InFlight → c.pid < S.K.brk
  inj : ∀ {t t' c c'}, S.calls t = some c → S.calls t' = some c' → c.InFlight → c'.InFlight →
    c.pid = c'.pid → t = t'
  live : ∀ {p}, p ∈ S.live → Settled T S p
  nodup : S.live.Nodup
  bound : ∀ {n nr p}, (S.K.ns n).pidSl nr = some (some p) →
    Settled T S p ∧ ∃ d, S.K.pid p = some d ∧ d.Owns nr n

theorem sysShape_init : SysShape T (Sys.init fun _ => none) where
  shape ht := by simp [Sys.init] at ht
  lt_brk ht := by simp [Sys.init] at ht
  inj ht := by simp [Sys.init] at ht
  live hp := by simp [Sys.init] at hp
  nodup := List.nodup_nil
  bound hb := by simp [Sys.init, Kernel.init] at hb

/-- A call in shape stays in shape as long as its own `struct pid` does not change. -/
theorem AllocCall.Shape.congr {pid pid' : PidAddr → Option (PidStruct ι)} {c : AllocCall ι}
    (hc : c.Shape T pid) (hpid : c.InFlight → pid' c.pid = pid c.pid) : c.Shape T pid' := by
  cases hpc : c.pc with
  | returned r => simp [AllocCall.Shape, hpc]
  | _ =>
      have heq := hpid fun r => by simp [hpc]
      simp only [AllocCall.Shape, hpc, heq] at hc ⊢
      exact hc

theorem Sys.after_calls {t t' : ℕ} {c c' : AllocCall ι} {A : MapKernel ι} {c'' : AllocCall ι}
    (h : (S.after t c c' A).calls t' = some c'') :
    (t' = t ∧ c'' = c') ∨ (t' ≠ t ∧ S.calls t' = some c'') := by
  by_cases htt : t' = t
  · subst htt
    simp only [Sys.after, Function.update_self, Option.some.injEq] at h
    exact Or.inl ⟨rfl, h.symm⟩
  · simp only [Sys.after, Function.update_of_ne htt] at h
    exact Or.inr ⟨htt, h⟩

theorem Sys.after_self {t : ℕ} {c : AllocCall ι} (ht : S.calls t = some c) :
    S.after t c c S.K = S := by
  have hlive : liveAfter c c S.live = S.live := by
    unfold liveAfter
    split <;> simp_all
  have hcalls : Function.update S.calls t (some c) = S.calls := by
    rw [← ht, Function.update_eq_self]
  simp only [Sys.after, hlive, hcalls]

/-- A call in flight is not one of a live pid. -/
theorem SysShape.not_mem_live (hS : SysShape T S) {t : ℕ} {c : AllocCall ι}
    (ht : S.calls t = some c) (hfl : c.InFlight) : c.pid ∉ S.live :=
  fun hp => (hS.live hp).idle ht hfl rfl

theorem Sys.started_calls {t t' : ℕ} {c c' : AllocCall ι} {A : MapKernel ι}
    (h : (S.started t c A).calls t' = some c') : (t' = t ∧ c' = c) ∨ S.calls t' = some c' := by
  by_cases htt : t' = t
  · subst htt
    simp only [Sys.started, Function.update_self, Option.some.injEq] at h
    exact Or.inl ⟨rfl, h.symm⟩
  · simp only [Sys.started, Function.update_of_ne htt] at h
    exact Or.inr h

/-- A new call has a `struct pid` of its own. -/
theorem SysShape.start (hS : SysShape T S) (t : ℕ) (ns : ι) (env : AllocEnv) :
    SysShape T (S.started t (newCall T S.K.brk ns env) (S.K.newPidStruct (T.level ns))) := by
  set S' := S.started t (newCall T S.K.brk ns env) (S.K.newPidStruct (T.level ns)) with hS'
  have hcalls : ∀ {t' c}, S'.calls t' = some c →
      (t' = t ∧ c = newCall T S.K.brk ns env) ∨ S.calls t' = some c := Sys.started_calls
  -- the new pid is `brk`, which no call and no live pid has
  have hpid : ∀ {q}, q < S.K.brk → S'.K.pid q = S.K.pid q := fun {q} hq =>
    Function.update_of_ne (Nat.ne_of_lt hq) _ _
  have hset : ∀ {q}, Settled T S q → Settled T S' q := by
    intro q hq
    refine ⟨Nat.lt_succ_of_lt hq.lt_brk, fun {t' c} hc hfl => ?_, ?_⟩
    · rcases hcalls hc with ⟨-, rfl⟩ | hc
      · exact (Nat.ne_of_lt hq.lt_brk).symm
      · exact hq.idle hc hfl
    · rw [hpid hq.lt_brk]
      exact hq.numbers
  refine ⟨fun {t' c} hc => ?_, fun {t' c} hc hfl => ?_, fun {t₁ t₂ c₁ c₂} h₁ h₂ hfl₁ hfl₂ heq => ?_,
    fun hp => hset (hS.live hp), hS.nodup, fun {n nr p} hb => ?_⟩
  · rcases hcalls hc with ⟨-, rfl⟩ | hc
    · exact newCall_shape S.K ns env
    · exact (hS.shape hc).congr fun hfl => hpid (hS.lt_brk hc hfl)
  · rcases hcalls hc with ⟨-, rfl⟩ | hc
    · exact Nat.lt_succ_self _
    · exact Nat.lt_succ_of_lt (hS.lt_brk hc hfl)
  · rcases hcalls h₁ with ⟨h₁', rfl⟩ | hold₁ <;> rcases hcalls h₂ with ⟨h₂', rfl⟩ | hold₂
    · rw [h₁', h₂']
    · exact absurd heq.symm (Nat.ne_of_lt (hS.lt_brk hold₂ hfl₂))
    · exact absurd heq (Nat.ne_of_lt (hS.lt_brk hold₁ hfl₁))
    · exact hS.inj hold₁ hold₂ hfl₁ hfl₂ heq
  · obtain ⟨hq, d, hd, ho⟩ := hS.bound hb
    exact ⟨hset hq, d, by rw [hpid hq.lt_brk]; exact hd, ho⟩

/-- The shape looks at the calls in flight, at their `struct pid`s and those of the live pids, and
at what the lists bind to a pid. -/
theorem SysShape.congr (hS : SysShape T S)
    (hcalls : ∀ {t c}, S'.calls t = some c → c.InFlight → S.calls t = some c)
    (hpid : S'.K.pid = S.K.pid) (hbrk : S'.K.brk = S.K.brk)
    (hlive : ∀ {p}, p ∈ S'.live → p ∈ S.live) (hnodup : S'.live.Nodup)
    (hbound : ∀ {n nr p}, (S'.K.ns n).pidSl nr = some (some p) →
      (S.K.ns n).pidSl nr = some (some p)) :
    SysShape T S' := by
  have hset : ∀ {q}, Settled T S q → Settled T S' q := fun {q} hq =>
    ⟨hbrk ▸ hq.lt_brk, fun hc hfl => hq.idle (hcalls hc hfl) hfl, by rw [hpid]; exact hq.numbers⟩
  refine ⟨fun {t c} hc => ?_, fun hc hfl => hbrk ▸ hS.lt_brk (hcalls hc hfl) hfl,
    fun h₁ h₂ hfl₁ hfl₂ heq => hS.inj (hcalls h₁ hfl₁) (hcalls h₂ hfl₂) hfl₁ hfl₂ heq,
    fun hp => hset (hS.live (hlive hp)), hnodup, fun hb => ?_⟩
  · by_cases hfl : c.InFlight
    · rw [hpid]
      exact hS.shape (hcalls hc hfl)
    · unfold AllocCall.InFlight at hfl
      push Not at hfl
      obtain ⟨r, hr⟩ := hfl
      simp [AllocCall.Shape, hr]
  · obtain ⟨hq, d, hd, ho⟩ := hS.bound (hbound hb)
    exact ⟨hset hq, d, by rw [hpid]; exact hd, ho⟩

/-! ## The code's systems -/

variable {B : PidList σ} {Rep : σ → Bindings PidAddr → Prop} {adm : NodeEnv → Prop} {s : Sys σ ι}

/-- The system `s` is the system `S`, with the build's lists for the maps. -/
structure SysSim (Rep : σ → Bindings PidAddr → Prop) (s : Sys σ ι) (S : MapSys ι) : Prop where
  K : KernelSim Rep s.K S.K
  calls : s.calls = S.calls
  live : s.live = S.live

theorem sysSim_init {sl : σ} (hsl : Rep sl fun _ => none) :
    SysSim Rep (Sys.init sl : Sys σ ι) (Sys.init fun _ => none) :=
  ⟨⟨fun _ => ⟨hsl, rfl, rfl⟩, rfl, rfl⟩, rfl, rfl⟩

theorem SysSim.started (hs : SysSim Rep s S) (t : ℕ) (c : AllocCall ι) {K : Kernel σ ι}
    {A : MapKernel ι} (hK : KernelSim Rep K A) : SysSim Rep (s.started t c K) (S.started t c A) :=
  ⟨hK, by simp only [Sys.started, hs.calls], hs.live⟩

theorem SysSim.after (hs : SysSim Rep s S) (t : ℕ) (c c' : AllocCall ι) {K : Kernel σ ι}
    {A : MapKernel ι} (hK : KernelSim Rep K A) : SysSim Rep (s.after t c c' K) (S.after t c c' A) :=
  ⟨hK, by simp only [Sys.after, hs.calls], by simp only [Sys.after, hs.live]⟩

theorem SysSim.owns_iff (hs : SysSim Rep s S) (p : PidAddr) (nr : ℤ) (n : ι) :
    s.K.Owns p nr n ↔ S.K.Owns p nr n :=
  Kernel.owns_congr (congrFun hs.K.pid p) nr n

/-! ## Steps keep the shape -/

variable [DecidableEq ι]

/-- A step of a call that has returned does nothing. -/
theorem AllocStep.inFlight_or {A A' : MapKernel ι} {c c' : AllocCall ι}
    (h : AllocStep T A c A' c') : c.InFlight ∨ A' = A ∧ c' = c := by
  cases h with
  | returned => exact Or.inr ⟨rfl, rfl⟩
  | reserve hpc | reserveLast hpc | full hpc | refuse hpc | publish hpc | rollback hpc =>
      exact Or.inl fun r => by simp [hpc]

/-- A pid that a step binds to a number is the one that the call publishes. -/
theorem AllocStep.bound {A A' : MapKernel ι} {c c' : AllocCall ι} (h : AllocStep T A c A' c')
    {n : ι} {nr : ℤ} {q : PidAddr} (hb : (A'.ns n).pidSl nr = some (some q)) :
    (A.ns n).pidSl nr = some (some q) ∨
    (q = c.pid ∧ c.pc = .publish ∧ c'.pc = .returned (.pid q) ∧
      ∃ d, A.pid q = some d ∧ A'.pid q = some d ∧ d.Owns nr n) := by
  cases h with
  | reserve | reserveLast =>
      rw [reserved_pidSl] at hb
      split at hb
      · simp at hb
      · exact Or.inl hb
  | full | refuse | returned => exact Or.inl hb
  | @publish d N hpc _ hd hN =>
      by_cases ho : d.Owns nr n
      · -- the number is bound to the published pid, or is left alone for lack of memory
        obtain ⟨j, hj⟩ := ho
        change (N n).pidSl nr = _ at hb
        rw [hN.on trivial hj] at hb
        by_cases hbound : (A.ns n).pidSl nr ≠ none ∨ (c.env.publish j).ok = true
        · rw [publishNs_self hbound] at hb
          obtain rfl := Option.some.inj (Option.some.inj hb)
          exact Or.inr ⟨rfl, hpc, rfl, d, hd, hd, j, hj⟩
        · obtain ⟨hk, hok⟩ := not_or.mp hbound
          simp only [publishNs, insertMap_refused (not_not.mp hk) (by simpa using hok)] at hb
          exact Or.inl hb
      · exact Or.inl (by rw [← hb]; exact (hN.pidSl_of_not_owns ho fun _ _ _ hk =>
          publishNs_of_ne _ _ hk).symm)
  | @rollback lo d N _ _ hN =>
      change ((resetCursor { A with ns := N } c.ns).ns n).pidSl nr = _ at hb
      rw [resetCursor_pidSl] at hb
      by_cases ho : d.Owns nr n
      · rw [hN.rebound_rollback.own ho] at hb
        simp at hb
      · rw [hN.rebound_rollback.other ho] at hb
        exact Or.inl hb

/-- A call publishes its own pid, or nothing. -/
theorem AllocStep.liveAfter_cases {c c' : AllocCall ι} {A A' : MapKernel ι}
    (h : AllocStep T A c A' c') (live : List PidAddr) :
    liveAfter c c' live = live ∨ (liveAfter c c' live = c.pid :: live ∧ c.pc = .publish ∧
      c'.pc = .returned (.pid c.pid)) := by
  cases h with
  | publish hpc => exact Or.inr ⟨by simp only [liveAfter, hpc], hpc, rfl⟩
  | reserve hpc | reserveLast hpc | full hpc | refuse hpc | rollback hpc | returned hpc =>
      exact Or.inl (by simp only [liveAfter, hpc])

theorem AllocStep.pid_of_publish {A A' : MapKernel ι} {c c' : AllocCall ι}
    (h : AllocStep T A c A' c') (hpc : c.pc = .publish) : A'.pid = A.pid := by
  cases h with
  | refuse | publish | full | returned => rfl
  | reserve hpc' | reserveLast hpc' | rollback hpc' => simp [hpc] at hpc'

section After

variable {t : ℕ} {c c' : AllocCall ι} {A : MapKernel ι} {p : PidAddr}

/-- A step of a call in flight leaves settled pids alone. -/
theorem Settled.after (ht : S.calls t = some c) (hfl : c.InFlight) (h : AllocStep T S.K c A c')
    (hp : Settled T S p) : Settled T (S.after t c c' A) p := by
  have hne := hp.idle ht hfl
  refine ⟨?_, fun {t' c''} ht' hfl' => ?_, ?_⟩
  · show p < A.brk
    rw [h.brk_eq]
    exact hp.lt_brk
  · rcases Sys.after_calls ht' with ⟨-, rfl⟩ | ⟨-, ht'⟩
    · rw [h.call_eq.2.1]
      exact hne
    · exact hp.idle ht' hfl'
  · show ∃ d ns, A.pid p = some d ∧ _
    rw [h.pid_of_ne (Ne.symm hne)]
    exact hp.numbers

/-- The pid that a call publishes is settled. -/
theorem Settled.published (hS : SysShape T S) (ht : S.calls t = some c) (hpc : c.pc = .publish)
    (h : AllocStep T S.K c A c') {r : AllocResult} (hpc' : c'.pc = .returned r) :
    Settled T (S.after t c c' A) c.pid := by
  have hfl : c.InFlight := fun r => by simp [hpc]
  refine ⟨?_, fun {t' c''} ht' hfl' heq => ?_, ?_⟩
  · show c.pid < A.brk
    rw [h.brk_eq]
    exact hS.lt_brk ht hfl
  · rcases Sys.after_calls ht' with ⟨-, rfl⟩ | ⟨hne, ht'⟩
    · exact hfl' r hpc'
    · exact hne (hS.inj ht' ht hfl' hfl heq)
  · have hshape := hS.shape ht
    simp only [AllocCall.Shape, hpc] at hshape
    obtain ⟨d, hd, hnum⟩ := hshape
    exact ⟨d, c.ns, by rw [← hd]; exact congrFun (h.pid_of_publish hpc) _, hnum⟩

/-- The shape survives a step of a call. -/
theorem SysShape.after (hS : SysShape T S) (ht : S.calls t = some c) (h : AllocStep T S.K c A c') :
    SysShape T (S.after t c c' A) := by
  rcases h.inFlight_or with hfl | ⟨rfl, rfl⟩
  -- the step writes to the call's own `struct pid` only, and no other call has that pid
  · obtain ⟨hns, hpid, henv⟩ := h.call_eq
    refine ⟨fun {t' c''} ht' => ?_, fun {t' c''} ht' hfl' => ?_,
      fun {t₁ t₂ c₁ c₂} ht₁ ht₂ hfl₁ hfl₂ heq => ?_, fun {p} hp => ?_, ?_, fun {n nr p} hb => ?_⟩
    · rcases Sys.after_calls ht' with ⟨-, rfl⟩ | ⟨hne, ht'⟩
      · exact h.shape (hS.shape ht)
      · exact (hS.shape ht').congr fun hfl' =>
          h.pid_of_ne fun heq => hne (hS.inj ht' ht hfl' hfl heq)
    · show c''.pid < A.brk
      rw [h.brk_eq]
      rcases Sys.after_calls ht' with ⟨-, rfl⟩ | ⟨-, ht'⟩
      · rw [hpid]
        exact hS.lt_brk ht hfl
      · exact hS.lt_brk ht' hfl'
    · rcases Sys.after_calls ht₁ with ⟨h₁, rfl⟩ | ⟨hne₁, hold₁⟩ <;>
        rcases Sys.after_calls ht₂ with ⟨h₂, rfl⟩ | ⟨hne₂, hold₂⟩
      · rw [h₁, h₂]
      · exact absurd (hS.inj hold₂ ht hfl₂ hfl (heq.symm.trans hpid)) hne₂
      · exact absurd (hS.inj hold₁ ht hfl₁ hfl (heq.trans hpid)) hne₁
      · exact hS.inj hold₁ hold₂ hfl₁ hfl₂ heq
    · change p ∈ liveAfter c c' S.live at hp
      rcases h.liveAfter_cases S.live with heq | ⟨heq, hpc, hpc'⟩
      · rw [heq] at hp
        exact (hS.live hp).after ht hfl h
      · rw [heq, List.mem_cons] at hp
        rcases hp with rfl | hp
        · exact Settled.published hS ht hpc h hpc'
        · exact (hS.live hp).after ht hfl h
    · show (liveAfter c c' S.live).Nodup
      rcases h.liveAfter_cases S.live with heq | ⟨heq, -, -⟩
      · rw [heq]
        exact hS.nodup
      · rw [heq]
        exact List.nodup_cons.mpr ⟨hS.not_mem_live ht hfl, hS.nodup⟩
    · rcases h.bound hb with hb | ⟨rfl, hpc, hpc', d, -, hd, ho⟩
      · obtain ⟨hset, d, hd, ho⟩ := hS.bound hb
        refine ⟨hset.after ht hfl h, d, ?_, ho⟩
        rw [← hd]
        exact h.pid_of_ne (Ne.symm (hset.idle ht hfl))
      · exact ⟨Settled.published hS ht hpc h hpc', d, hd, ho⟩
  · rw [Sys.after_self ht]
    exact hS

end After

@[simp] theorem writeLastPid_pidSl (K : Kernel σ ι) (ns : ι) (v : ℤ) (n : ι) :
    ((writeLastPid K ns v).ns n).pidSl = (K.ns n).pidSl := by
  by_cases hn : n = ns
  · subst hn
    simp [writeLastPid, Kernel.setNs]
  · simp [writeLastPid, Kernel.setNs, hn]

/-- The shape survives every step. -/
theorem SysStep.shape (h : SysStep T S a S') (hS : SysShape T S) : SysShape T S' := by
  cases h with
  | skip => exact hS
  | start ns env _ => exact hS.start _ ns env
  | @startFailed t ns env ht =>
      refine hS.congr (fun {t' c} hc hfl => ?_) rfl rfl id hS.nodup id
      rcases Sys.started_calls hc with ⟨-, rfl⟩ | hc
      · exact absurd rfl (hfl (.err (-ENOMEM)))
      · exact hc
  | step ht hstep => exact hS.after ht hstep
  | @free p d N hp hd hN =>
      -- what is still bound to a pid was bound to it before
      refine hS.congr (fun hc _ => hc) rfl rfl List.mem_of_mem_erase (hS.nodup.erase p)
        fun {n nr q} hb => ?_
      by_cases ho : d.Owns nr n
      · simp [hN.rebound_free.own ho] at hb
      · rwa [← hN.rebound_free.other ho]
  | disable ns =>
      refine hS.congr (fun hc _ => hc) rfl rfl id hS.nodup fun {n nr q} hb => ?_
      rwa [← disablePidAllocation_pidSl S.K ns n]
  | writeLastPid ns v =>
      refine hS.congr (fun hc _ => hc) rfl rfl id hS.nodup fun {n nr q} hb => ?_
      rwa [← writeLastPid_pidSl S.K ns v n]

/-- What was published once is not published again, also after it was freed. -/
theorem SysStep.settled (h : SysStep T S a S') {p : PidAddr} (hp : Settled T S p) :
    Settled T S' p ∧ (p ∈ S'.live → p ∈ S.live) := by
  cases h with
  | skip => exact ⟨hp, id⟩
  | start ns env _ =>
      have hpid : (S.K.newPidStruct (T.level ns)).pid p = S.K.pid p :=
        Function.update_of_ne (Nat.ne_of_lt hp.lt_brk) _ _
      refine ⟨⟨Nat.lt_succ_of_lt hp.lt_brk, fun {t' c} hc hfl => ?_, ?_⟩, id⟩
      · rcases Sys.started_calls hc with ⟨-, rfl⟩ | hc
        · exact (Nat.ne_of_lt hp.lt_brk).symm
        · exact hp.idle hc hfl
      · show ∃ d ns', (S.K.newPidStruct (T.level ns)).pid p = some d ∧ _
        rw [hpid]
        exact hp.numbers
  | startFailed ns env ht =>
      refine ⟨⟨hp.lt_brk, fun {t' c} hc hfl => ?_, hp.numbers⟩, id⟩
      rcases Sys.started_calls hc with ⟨-, rfl⟩ | hc
      · exact absurd rfl (hfl (.err (-ENOMEM)))
      · exact hp.idle hc hfl
  | @step t c c' A ht hstep =>
      rcases hstep.inFlight_or with hfl | ⟨rfl, rfl⟩
      · refine ⟨hp.after ht hfl hstep, fun hmem => ?_⟩
        change p ∈ liveAfter c c' S.live at hmem
        rcases hstep.liveAfter_cases S.live with heq | ⟨heq, -, -⟩
        · rwa [heq] at hmem
        · rw [heq, List.mem_cons] at hmem
          exact hmem.resolve_left fun h => hp.idle ht hfl h.symm
      · rw [Sys.after_self ht]
        exact ⟨hp, id⟩
  | free hq hd hN => exact ⟨⟨hp.lt_brk, hp.idle, hp.numbers⟩, List.mem_of_mem_erase⟩
  | disable ns => exact ⟨⟨hp.lt_brk, hp.idle, hp.numbers⟩, id⟩
  | writeLastPid ns v => exact ⟨⟨hp.lt_brk, hp.idle, hp.numbers⟩, id⟩

/-- A pid stays published until it is freed. -/
theorem SysStep.mem_live (h : SysStep T S a S') {p : PidAddr} (hp : p ∈ S.live) (ha : a ≠ .free p) :
    p ∈ S'.live := by
  cases h with
  | @step t c c' A ht hstep =>
      show p ∈ liveAfter c c' S.live
      rcases hstep.liveAfter_cases S.live with heq | ⟨heq, -, -⟩
      · rwa [heq]
      · rw [heq]
        exact List.mem_cons_of_mem _ hp
  | @free q d N hq hd hN =>
      have hne : p ≠ q := by
        rintro rfl
        exact ha rfl
      exact (List.mem_erase_of_ne hne).mpr hp
  | skip | start | startFailed | disable | writeLastPid => exact hp

/-! ## The code takes the steps -/

/-- The section of a call that is under way. -/
theorem sysStep_call (hB : Simulates B Rep adm) (hs : SysSim Rep s S) (hS : SysShape T S) {t : ℕ}
    {c : AllocCall ι} (ht : S.calls t = some c) (hadm : c.Admissible adm S.K) :
    ∃ K' c' A', sysStep B T s (.step t) = .ok (s.after t c c' K') ∧
      SysSim Rep (s.after t c c' K') (S.after t c c' A') ∧ AllocStep T S.K c A' c' := by
  obtain ⟨K', c', A', hrun, hK', hstep⟩ := hB.allocStep hs.K (hS.shape ht) hadm
  refine ⟨K', c', A', ?_, hs.after t c c' hK', hstep⟩
  simp only [sysStep, hs.calls, ht, hrun, ok_bind]

/-- In the shape, the code takes every step without a fault, as the step over maps. -/
theorem sysStep_refines (hB : Simulates B Rep adm) (hs : SysSim Rep s S) (hS : SysShape T S)
    (hadm : ∀ {t c}, S.calls t = some c → c.Admissible adm S.K) (a : Act ι) :
    ∃ s' S', sysStep B T s a = .ok s' ∧ SysSim Rep s' S' ∧ SysStep T S a S' := by
  cases a with
  | start t ns env =>
      cases ht : S.calls t with
      | some c =>
          refine ⟨s, S, ?_, hs, SysStep.skip _⟩
          simp only [sysStep, hs.calls, ht]
      | none =>
          rcases hB.allocBegin (T := T) hs.K ns env with ⟨-, hbegin⟩ | ⟨-, hbegin⟩
          · refine ⟨_, _, ?_, hs.started t _ hs.K, SysStep.startFailed ns env ht⟩
            simp only [sysStep, hs.calls, ht, hbegin]
          · refine ⟨_, _, ?_, hs.started t _ (hs.K.newPidStruct _), SysStep.start ns env ht⟩
            simp only [sysStep, hs.calls, ht, hbegin]
  | step t =>
      cases ht : S.calls t with
      | none =>
          refine ⟨s, S, ?_, hs, SysStep.skip _⟩
          simp only [sysStep, hs.calls, ht]
      | some c =>
          obtain ⟨K', c', A', hrun, hs', hstep⟩ := sysStep_call hB hs hS ht (hadm ht)
          exact ⟨_, _, hrun, hs', SysStep.step ht hstep⟩
  | free p =>
      by_cases hp : p ∈ S.live
      · obtain ⟨-, -, d, ns, hd, hnum⟩ := hS.live hp
        obtain ⟨K', N, hrun, hK', hN⟩ := hB.freePid hs.K hd hnum
        refine ⟨{ s with K := K', live := s.live.erase p }, _, ?_, ?_, SysStep.free hp hd hN⟩
        · simp only [sysStep, hs.live, if_pos hp, hrun, ok_bind]
        · exact ⟨hK', hs.calls, by rw [hs.live]⟩
      · refine ⟨s, S, ?_, hs, SysStep.skip _⟩
        simp only [sysStep, hs.live, if_neg hp]
  | disable ns =>
      refine ⟨_, _, rfl, ?_, SysStep.disable ns⟩
      exact ⟨hs.K.disablePidAllocation ns, hs.calls, hs.live⟩
  | writeLastPid ns v =>
      have hns := hs.K.ns ns
      refine ⟨_, _, rfl, ?_, SysStep.writeLastPid ns v⟩
      exact ⟨hs.K.setNs ns ⟨hns.pidSl, rfl, hns.pidAllocated⟩, hs.calls, hs.live⟩

/-- Every run of the plain build goes through without a fault, as a run over maps in the shape. -/
theorem plain_run_shape (T : PidNsTree ι) (as : List (Act ι)) :
    ∃ s S, run (sysStep plainList T) (Sys.init init) as = .ok s ∧ SysSim Represents s S ∧
      SysShape T S := by
  obtain ⟨s, hrun, S, hs, hS⟩ := run_invariant_always
    (I := fun s : Sys _ ι => ∃ S, SysSim Represents s S ∧ SysShape T S)
    (fun s a hI => by
      obtain ⟨S, hs, hS⟩ := hI
      obtain ⟨s', S', hstep, hs', hS'⟩ :=
        sysStep_refines plainList_simulates hs hS (fun _ => AllocCall.admissible_true _ _) a
      exact ⟨s', hstep, S', hs', hS'.shape hS⟩)
    ⟨_, sysSim_init represents_init, sysShape_init⟩ as
  exact ⟨s, S, hrun, hs, hS⟩

end KernelPid
