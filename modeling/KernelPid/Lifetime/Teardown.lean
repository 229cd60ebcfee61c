import KernelPid.Lifetime.Counts

/-!
# Where a namespace is torn down

Any number of callers take and drop references, allocate and free pids, make namespaces, and
callbacks are executed in between, in any order. The counts are right in every state
(`World.Sound`), so no step faults: no object is used after it was freed, and no count gets below 0.

A namespace is destroyed where its last reference is dropped. When that is the reference of a pid
whose own last reference was the one that `free_pid` left to its callback, `put_pid_ns` runs in
the callback, and so does the `synchronize_rcu` of `pid_skiplist_destroy`.
`teardown_never_blocks_iff` says that this is the only way; `destroyed_in_callback` is the run of
the last process of a namespace.
-/

namespace KernelPid.Lifetime

open Runs Tally

variable {s : World} {maxPidNsLevel : ℕ}

/-- The invariant of every run. -/
structure World.Sound (s : World) : Prop where
  counted : Counted s.K s.nsRefs s.pidRefs s.live
  context : s.K.context = .process

theorem sound_init : World.init.Sound := by
  have hcases : ∀ {m e}, World.init.K.ns m = some e →
    m = initPidNs ∧ e.kref = 2 ∧ e.parent = none := by
    intro m e he
    by_cases hm : m = initPidNs
    · subst hm
      obtain rfl := Option.some.inj he
      exact ⟨rfl, rfl, rfl⟩
    · have hnone : World.init.K.ns m = none := by simp [World.init, hm]
      rw [hnone] at he
      simp at he
  refine ⟨⟨⟨⟨_, rfl, Nat.two_pos⟩, fun he => ?_, fun he => by simp [World.init] at he,
    fun he hm => ?_,
    fun he => by simp [World.init] at he⟩, fun {m} hm => ?_, fun _ => rfl, fun m => ?_⟩, rfl⟩
  · rw [(hcases he).1]
    exact Nat.one_pos
  · exact absurd (hcases he).1 hm
  · have hns : tally (nsWeight m) World.init.K.ns World.init.K.nsBrk = 0 := by
      refine tally_eq_zero fun i _ => ?_
      cases hi : World.init.K.ns i with
      | none => rfl
      | some e => simp [nsWeight, (hcases hi).2.2]
    have hnone : World.init.K.ns m = none := by simp [World.init, hm]
    rw [hns, hnone]
    rfl
  · show 0 = _
    cases hm : World.init.K.ns m with
    | none => rfl
    | some e => simp [deadOf, (hcases hm).2.1]

/-- The step does not execute a callback that drops the last reference to its pid and with it the
last one to a namespace other than `init_pid_ns`. -/
def KeepsNs (s : World) : Act → Prop
  | .callback (.delayedPutPid p) => RcuHead.delayedPutPid p ∈ s.K.rcu → ¬ s.K.LastPut p
  | _ => True

/-- What is done in process context does not block a callback. -/
theorem Blocks.process {K K' : Objects} {c : Prop} (h : Blocks K K' c) (hK : K.context = .process) :
    K'.context = .process ∧ (K'.Blocked ↔ K.Blocked) := by
  refine ⟨h.context.trans hK, h.iff.trans ?_⟩
  simp [hK]

theorem blocked_congr {K K' : Objects} (hsyncs : K'.syncs = K.syncs) : K'.Blocked ↔ K.Blocked := by
  unfold Objects.Blocked
  rw [hsyncs]

/-- Behind `createPidNamespace`, the caller has the first reference to the new namespace. -/
theorem Counted.createPidNamespace (maxPidNsLevel : ℕ) {K : Objects} {nsRefs pidRefs : ℕ → ℕ}
    {live : List PidAddr} {n : NsAddr} (h : Counted K nsRefs pidRefs live) (hn : K.IsUsed n)
    (hcontext : K.context = .process) (made : Bool) :
    ∃ K' o, K.createPidNamespace maxPidNsLevel n made = .ok (K', o) ∧
      Counted K' (o.elim nsRefs (addRef nsRefs)) pidRefs live ∧ K'.context = .process ∧
      (K'.Blocked ↔ K.Blocked) := by
  obtain ⟨K₁, hget, h₁, hbrk, hcontext₁, hsyncs₁⟩ := h.getPidNs hn
  obtain ⟨d, hd, -⟩ := hn
  have hderef := derefNs_eq hd
  by_cases hlevel : maxPidNsLevel < d.level + 1
  · refine ⟨K, none, ?_, h, hcontext, Iff.rfl⟩
    simp only [Objects.createPidNamespace, hderef, ok_bind, if_pos hlevel]
  · cases made with
    | false =>
        refine ⟨K.pidSkiplistDestroy, none, ?_, ?_, hcontext, ?_⟩
        · simp only [Objects.createPidNamespace, hderef, ok_bind, if_neg hlevel, if_true]
        · exact h.congr K.context (K.context :: K.syncs)
        · simp [Objects.Blocked, Objects.pidSkiplistDestroy, Objects.synchronizeRcu, hcontext]
    | true =>
        have hlt : n < K₁.nsBrk := by
          rw [hbrk]
          exact h.ns_lt hd
        refine ⟨K₁.newNs ⟨1, d.level + 1, some n⟩, some K₁.nsBrk, ?_, h₁.newNs hlt _,
          hcontext₁.trans hcontext, blocked_congr hsyncs₁⟩
        simp only [Objects.createPidNamespace, hderef, ok_bind, if_neg hlevel, Bool.true_eq_false,
          if_false, hget]

/-- Behind `allocPid`, a new pid has the reference that was taken, or it is dropped again. -/
theorem Counted.allocPid {K : Objects} {nsRefs pidRefs : ℕ → ℕ} {live : List PidAddr} {n : NsAddr}
    (h : Counted K nsRefs pidRefs live) (hn : K.IsUsed n) (hcontext : K.context = .process)
    (adding : Bool) :
    ∃ K' o, K.allocPid n adding = .ok (K', o) ∧
      Counted K' nsRefs pidRefs (o.elim live fun p => p :: live) ∧ K'.context = .process ∧
      (K'.Blocked ↔ K.Blocked) := by
  obtain ⟨K₁, hget, h₁, -, hcontext₁, hsyncs₁⟩ := h.getPidNs hn
  cases adding with
  | true =>
      refine ⟨K₁.newPid ⟨1, n⟩, some K₁.pidBrk, ?_, h₁.newPid, hcontext₁.trans hcontext,
        blocked_congr hsyncs₁⟩
      simp only [Objects.allocPid, hget, ok_bind, if_true]
  | false =>
      obtain ⟨K₂, hput, h₂, hblocks⟩ := h₁.putPidNs
      obtain ⟨hcontext₂, hblocked⟩ := hblocks.process (hcontext₁.trans hcontext)
      refine ⟨K₂, none, ?_, h₂, hcontext₂, hblocked.trans (blocked_congr hsyncs₁)⟩
      simp only [Objects.allocPid, hget, ok_bind, Bool.false_eq_true, if_false, hput]

/-- A callback blocks if and only if it is that of a pid whose last reference it drops, and with it
the last one to the namespace. -/
theorem Counted.rcuCallback {K : Objects} {nsRefs pidRefs : ℕ → ℕ} {live : List PidAddr}
    (h : Counted K nsRefs pidRefs live) {g : RcuHead} (hg : g ∈ K.rcu) :
    ∃ K', K.rcuCallback g = .ok K' ∧ Counted K' nsRefs pidRefs live ∧ K'.context = .process ∧
      (K'.Blocked ↔ K.Blocked ∨ ∃ p, g = .delayedPutPid p ∧ K.LastPut p) := by
  cases g with
  | delayedPutPid p =>
      obtain ⟨K', hput, h', hblocks⟩ := (h.startPutPid hg .rcuCallback).putPid
      refine ⟨{ K' with context := .process }, ?_, h'.congr .process K'.syncs, rfl, ?_⟩
      · simp only [Objects.rcuCallback, Objects.delayedPutPid, hput, ok_bind]
      · have hlast : (∃ q, RcuHead.delayedPutPid p = .delayedPutPid q ∧ K.LastPut q) ↔
          K.LastPut p := by
          simp
        rw [hlast]
        exact hblocks.iff.trans (or_congr_right (and_iff_right rfl))
  | delayedFreePidns n =>
      refine ⟨_, rfl, (h.delayedFreePidns hg .rcuCallback).congr .process K.syncs, rfl, ?_⟩
      have hnot : ¬ ∃ p, RcuHead.delayedFreePidns n = .delayedPutPid p ∧ K.LastPut p := by simp
      exact (or_iff_left hnot).symm

/-- The step `a` does not fault, and has a `synchronize_rcu` in a callback if and only if it does
not keep the namespace. -/
def World.StepsSoundly (maxPidNsLevel : ℕ) (s : World) (a : Act) : Prop :=
  ∃ s', Lifetime.step maxPidNsLevel s a = .ok s' ∧ s'.Sound ∧
    (¬ s'.K.Blocked ↔ ¬ s.K.Blocked ∧ KeepsNs s a)

/-- A call in process context blocks no callback. -/
theorem World.StepsSoundly.of_call {a : Act} (ha : KeepsNs s a) (s' : World)
    (hrun : Lifetime.step maxPidNsLevel s a = .ok s')
    (h' : Counted s'.K s'.nsRefs s'.pidRefs s'.live) (hcontext : s'.K.context = .process)
    (hblocked : s'.K.Blocked ↔ s.K.Blocked) : s.StepsSoundly maxPidNsLevel a := by
  refine ⟨s', hrun, ⟨h', hcontext⟩, ?_⟩
  rw [hblocked, and_iff_left ha]

/-- What is no step. -/
theorem World.StepsSoundly.of_skip {a : Act} (h : s.Sound) (ha : KeepsNs s a)
    (hrun : Lifetime.step maxPidNsLevel s a = .ok s) : s.StepsSoundly maxPidNsLevel a :=
  .of_call ha s hrun h.counted h.context Iff.rfl

/-- Each step from a sound state ends in one. -/
theorem World.Sound.step (h : s.Sound) (a : Act) : s.StepsSoundly maxPidNsLevel a := by
  cases a with
  | createPidNamespace n made =>
      by_cases hn : s.K.IsUsed n
      · obtain ⟨K', o, hrun, h', hcontext, hblocked⟩ :=
          h.counted.createPidNamespace maxPidNsLevel hn h.context made
        cases o with
        | none =>
            refine .of_call trivial { s with K := K' } ?_ h' hcontext hblocked
            simp only [Lifetime.step, if_pos hn, hrun, ok_bind]
        | some m =>
            refine .of_call trivial { s with K := K', nsRefs := addRef s.nsRefs m }
              ?_ h' hcontext hblocked
            simp only [Lifetime.step, if_pos hn, hrun, ok_bind]
      · exact .of_skip h trivial (if_neg hn)
  | getPidNs n =>
      by_cases hn : s.K.IsUsed n
      · obtain ⟨K', hrun, h', -, hcontext, hsyncs⟩ := h.counted.getPidNs hn
        refine .of_call trivial { s with K := K', nsRefs := addRef s.nsRefs n } ?_ h'
          (hcontext.trans h.context) (blocked_congr hsyncs)
        simp only [Lifetime.step, if_pos hn, hrun, ok_bind]
      · exact .of_skip h trivial (if_neg hn)
  | putPidNs n =>
      by_cases hn : 0 < s.nsRefs n
      · have hheld := h.counted
        rw [← addRef_dropRef hn] at hheld
        obtain ⟨K', hrun, h', hblocks⟩ := hheld.putPidNs
        obtain ⟨hcontext, hblocked⟩ := hblocks.process h.context
        refine .of_call trivial { s with K := K', nsRefs := dropRef s.nsRefs n }
          ?_ h' hcontext hblocked
        simp only [Lifetime.step, if_pos hn, hrun, ok_bind]
      · exact .of_skip h trivial (if_neg hn)
  | allocPid n adding =>
      by_cases hn : s.K.IsUsed n
      · obtain ⟨K', o, hrun, h', hcontext, hblocked⟩ := h.counted.allocPid hn h.context adding
        cases o with
        | none =>
            refine .of_call trivial { s with K := K' } ?_ h' hcontext hblocked
            simp only [Lifetime.step, if_pos hn, hrun, ok_bind]
        | some p =>
            refine .of_call trivial { s with K := K', live := p :: s.live } ?_ h' hcontext hblocked
            simp only [Lifetime.step, if_pos hn, hrun, ok_bind]
      · exact .of_skip h trivial (if_neg hn)
  | freePid p =>
      by_cases hp : p ∈ s.live
      · exact .of_call trivial _ (if_pos hp) (h.counted.freePid hp) h.context Iff.rfl
      · exact .of_skip h trivial (if_neg hp)
  | getPid p =>
      by_cases hp : (s.K.pid p).isSome
      · obtain ⟨d, hd⟩ := Option.isSome_iff_exists.mp hp
        obtain ⟨K', hrun, h', hcontext, hsyncs⟩ := h.counted.getPid hd
        refine .of_call trivial { s with K := K', pidRefs := addRef s.pidRefs p } ?_ h'
          (hcontext.trans h.context) (blocked_congr hsyncs)
        simp only [Lifetime.step, if_pos hp, hrun, ok_bind]
      · exact .of_skip h trivial (if_neg hp)
  | putPid p =>
      by_cases hp : 0 < s.pidRefs p
      · have hheld := h.counted
        rw [← addRef_dropRef hp] at hheld
        obtain ⟨K', hrun, h', hblocks⟩ := hheld.putPid
        obtain ⟨hcontext, hblocked⟩ := hblocks.process h.context
        refine .of_call trivial { s with K := K', pidRefs := dropRef s.pidRefs p }
          ?_ h' hcontext hblocked
        simp only [Lifetime.step, if_pos hp, hrun, ok_bind]
      · exact .of_skip h trivial (if_neg hp)
  | callback g =>
      by_cases hg : g ∈ s.K.rcu
      · obtain ⟨K', hrun, h', hcontext, hblocked⟩ := h.counted.rcuCallback hg
        have hkeeps : KeepsNs s (.callback g) ↔ ¬ ∃ p, g = .delayedPutPid p ∧ s.K.LastPut p := by
          cases g with
          | delayedPutPid p => simp [KeepsNs, hg]
          | delayedFreePidns n => simp [KeepsNs]
        refine ⟨{ s with K := K' }, ?_, ⟨h', hcontext⟩, ?_⟩
        · simp only [Lifetime.step, if_pos hg, hrun, ok_bind]
        · rw [hkeeps, hblocked, not_or]
      · refine .of_skip h ?_ (if_neg hg)
        cases g with
        | delayedPutPid p => exact fun hp => absurd hp hg
        | delayedFreePidns n => trivial

/-- No run faults, whatever the order of its steps. There is never a `synchronize_rcu` in a callback
if and only if every callback of a `free_pid` that drops the last reference to its pid finds another
reference to the pid's namespace, or `init_pid_ns`. -/
theorem teardown_never_blocks_iff (maxPidNsLevel : ℕ) (as : List Act) :
    (∃ s, run (step maxPidNsLevel) World.init as = .ok s) ∧
      (Throughout (step maxPidNsLevel) (fun s => ¬ s.K.Blocked) World.init as ↔
        Meets (step maxPidNsLevel) KeepsNs World.init as) := by
  have hinit : ¬ World.init.K.Blocked := List.not_mem_nil
  have hstep : ∀ (s : World) (a : Act), s.Sound → ∃ s', step maxPidNsLevel s a = .ok s' ∧ s'.Sound ∧
      (¬ s.K.Blocked → (¬ s'.K.Blocked ↔ KeepsNs s a)) := by
    intro s a h
    obtain ⟨s', hs', h', hiff⟩ := h.step a
    exact ⟨s', hs', h', fun hP => hiff.trans (and_iff_right hP)⟩
  constructor
  · obtain ⟨s, hrun, -⟩ := run_invariant_always (I := World.Sound)
      (fun s a h => (hstep s a h).imp fun s' hs' => ⟨hs'.1, hs'.2.1⟩) sound_init as
    exact ⟨s, hrun⟩
  · exact throughout_iff_meets hstep sound_init hinit as

/-- The creator of a namespace gives up its reference, and the only process of the namespace is
freed: its callback destroys the namespace. -/
theorem destroyed_in_callback :
    (run (step 32) World.init [.createPidNamespace initPidNs true, .allocPid 1 true, .putPidNs 1,
      .freePid 0, .callback (.delayedPutPid 0)]).map (fun s => s.K.syncs) = .ok [.rcuCallback] :=
  rfl

end KernelPid.Lifetime
