import KernelPid.Lifetime.Tree

/-!
# Everything can be released

A caller drops a reference, a pid is freed, a callback is executed: each such step takes one from a
number that every state has, `World.pending`, whichever namespaces `put_pid_ns` destroys on its way.
So when nothing new is allocated, the steps come to an end in every order, after the same number of
them (`releases_drain`), and then `init_pid_ns` is alone in memory.
-/

namespace KernelPid.Lifetime

open Runs Tally

variable {K K' : Objects} {maxPidNsLevel : ℕ} {s : World} {a : Act}

/-- The step drops a reference that a caller has, frees a pid, or executes a callback. -/
def Releases (s : World) : Act → Prop
  | .putPidNs n => 0 < s.nsRefs n
  | .putPid p => 0 < s.pidRefs p
  | .freePid p => p ∈ s.live
  | .callback g => g ∈ s.K.rcu
  | _ => False

instance decidableReleases (s : World) (a : Act) : Decidable (Releases s a) :=
  match a with
  | .putPidNs n => inferInstanceAs (Decidable (0 < s.nsRefs n))
  | .putPid p => inferInstanceAs (Decidable (0 < s.pidRefs p))
  | .freePid p => inferInstanceAs (Decidable (p ∈ s.live))
  | .callback g => inferInstanceAs (Decidable (g ∈ s.K.rcu))
  | .createPidNamespace _ _ | .getPidNs _ | .allocPid _ _ | .getPid _ => instDecidableFalse

/-- Namespaces other than `init_pid_ns` wait to be freed. -/
def childWeight : Option NsObject → ℕ
  | some d => if d.parent.isSome then 1 else 0
  | none => 0

/-- How many steps it takes to release everything: the references of the callers to namespaces,
the references to pids, one `free_pid` for each pid that was not freed, and one callback for
each namespace. -/
def World.pending (s : World) : ℕ :=
  tally id s.nsRefs s.K.nsBrk + tally countOf s.K.pid s.K.pidBrk + s.live.length +
    tally childWeight s.K.ns s.K.nsBrk

/-- Nobody holds anything, no callback waits, and there is only `init_pid_ns`. -/
structure World.Drained (s : World) : Prop where
  ns : ∀ n, n ≠ initPidNs → s.K.ns n = none
  pid : ∀ p, s.K.pid p = none
  rcu : s.K.rcu = []
  nsRefs : ∀ n, s.nsRefs n = 0
  live : s.live = []

theorem SameNs.tally_childWeight (h : SameNs K K') :
    tally childWeight K'.ns K'.nsBrk = tally childWeight K.ns K.nsBrk := by
  rw [h.nsBrk]
  refine tally_congr fun n => ?_
  have hplace := h.place n
  cases hd : K.ns n with
  | none =>
      rw [hd, Option.map_none, Option.map_eq_none_iff] at hplace
      rw [hplace]
  | some d =>
      rw [hd, Option.map_some] at hplace
      obtain ⟨d', hd', heq⟩ := Option.map_eq_some_iff.mp hplace
      rw [hd']
      show (if d'.parent.isSome then 1 else 0) = if d.parent.isSome then 1 else 0
      rw [show d'.parent = d.parent from congrArg Prod.snd heq]

theorem SameNs.tally_countOf (h : SameNs K K') :
    tally countOf K'.pid K'.pidBrk = tally countOf K.pid K.pidBrk := by
  rw [h.pid, h.pidBrk]

/-- `put_pid` drops one reference to a pid, and frees no namespace. -/
theorem putPid_drops {p : PidAddr} (hshape : Shape K) (h : K.putPid p = .ok K') :
    tally countOf K'.pid K'.pidBrk + 1 = tally countOf K.pid K.pidBrk ∧ K'.nsBrk = K.nsBrk ∧
      tally childWeight K'.ns K'.nsBrk = tally childWeight K.ns K.nsBrk := by
  obtain ⟨d, hd, h⟩ := bind_eq_ok.mp h
  have hd := derefPid_eq_ok.mp hd
  have htally := fun b => tally_update (w := countOf) (f := K.pid) (hshape.pid_lt hd) b
  simp only [hd, countOf] at htally
  split at h
  · simp at h
  · next hone =>
    have hsame := putPidNs_same h
    refine ⟨?_, hsame.nsBrk, hsame.tally_childWeight⟩
    rw [hsame.tally_countOf]
    have hnone := htally none
    rw [hone] at hnone
    exact hnone
  · next k hmore =>
    obtain rfl := Except.ok.inj h
    refine ⟨?_, rfl, rfl⟩
    have hsome := htally (some { d with count := k + 1 })
    show tally countOf (Function.update K.pid p _) K.pidBrk + 1 = _
    simp only at hsome
    omega

/-- `init_pid_ns` is never freed. -/
theorem Counted.parent_of_dead {nsRefs pidRefs : ℕ → ℕ} {live : List PidAddr} {n : NsAddr}
    {d : NsObject} (h : Counted K nsRefs pidRefs live) (hd : K.ns n = some d) (hzero : d.kref = 0) :
    ∃ q, d.parent = some q := by
  have hn : n ≠ initPidNs := by
    rintro rfl
    obtain ⟨e, he, hpos⟩ := h.root
    obtain rfl := Option.some.inj (hd.symm.trans he)
    omega
  obtain ⟨q, hq, -⟩ := h.parent hd hn
  exact ⟨q, hq⟩

/-- Each of these steps takes one from what is left. -/
theorem World.Grown.release (h : s.Grown maxPidNsLevel) (ha : Releases s a) :
    ∃ s', Lifetime.step maxPidNsLevel s a = .ok s' ∧ s'.Grown maxPidNsLevel ∧
      s'.pending + 1 = s.pending := by
  obtain ⟨s', hrun, h'⟩ := h.step a
  refine ⟨s', hrun, h', ?_⟩
  have hshape := h.counted.toShape
  cases a with
  | putPidNs n =>
      have hpos : 0 < s.nsRefs n := ha
      rw [Lifetime.step, if_pos hpos] at hrun
      obtain ⟨K', hput, hdone⟩ := bind_eq_ok.mp hrun
      obtain rfl := Except.ok.inj hdone
      have hsame := putPidNs_same hput
      obtain ⟨d, hd, -⟩ : s.K.IsUsed n := h.counted.used_of_refs (by omega)
      have hrefs := tally_update (w := id) (f := s.nsRefs) (hshape.ns_lt hd) (s.nsRefs n - 1)
      simp only [World.pending, dropRef]
      rw [hsame.tally_childWeight, hsame.tally_countOf, hsame.nsBrk]
      simp only [id] at hrefs
      omega
  | putPid p =>
      have hpos : 0 < s.pidRefs p := ha
      rw [Lifetime.step, if_pos hpos] at hrun
      obtain ⟨K', hput, hdone⟩ := bind_eq_ok.mp hrun
      obtain rfl := Except.ok.inj hdone
      obtain ⟨hcount, hbrk, hchild⟩ := putPid_drops hshape hput
      simp only [World.pending]
      rw [hchild, ← hcount, hbrk]
      omega
  | freePid p =>
      have hp : p ∈ s.live := ha
      rw [Lifetime.step, if_pos hp] at hrun
      obtain rfl := Except.ok.inj hrun
      have hlength := List.length_erase_of_mem hp
      have hpos := List.length_pos_of_mem hp
      simp only [World.pending, Objects.freePid, Objects.callRcu]
      omega
  | callback g =>
      have hg : g ∈ s.K.rcu := ha
      rw [Lifetime.step, if_pos hg] at hrun
      obtain ⟨K', hcall, hdone⟩ := bind_eq_ok.mp hrun
      obtain rfl := Except.ok.inj hdone
      cases g with
      | delayedPutPid p =>
          obtain ⟨K₁, hput, hcall⟩ := bind_eq_ok.mp hcall
          obtain rfl := Except.ok.inj hcall
          set K₀ : Objects :=
            { s.K with rcu := s.K.rcu.erase (.delayedPutPid p), context := .rcuCallback }
          have hshape₀ : Shape K₀ := hshape.of_eq rfl rfl rfl rfl
          obtain ⟨hcount, hbrk, hchild⟩ := putPid_drops hshape₀ hput
          simp only [World.pending]
          rw [hchild, hbrk]
          simp only [K₀] at hcount ⊢
          omega
      | delayedFreePidns n =>
          obtain rfl := Except.ok.inj hcall
          obtain ⟨d, hd, hzero⟩ := h.counted.exists_dead hg
          obtain ⟨q, hq⟩ := h.counted.parent_of_dead hd hzero
          have htally := tally_update (w := childWeight) (f := s.K.ns) (hshape.ns_lt hd) none
          simp only [hd, childWeight, hq, Option.isSome_some, if_true, Nat.add_zero] at htally
          simp only [World.pending, Objects.delayedFreePidns, Objects.setNs]
          omega
  | createPidNamespace _ _ | getPidNs _ | allocPid _ _ | getPid _ => exact ha.elim

/-! ## What is left can be released -/

/-- A reference to a pid is one that can be dropped, or is dropped by a callback that can
be executed. -/
theorem World.Grown.exists_release_pid (h : s.Grown maxPidNsLevel) {p : PidAddr}
    (hpos : 0 < countOf (s.K.pid p)) : ∃ a, Releases s a := by
  rw [h.counted.count p] at hpos
  by_cases hrefs : 0 < s.pidRefs p
  · exact ⟨.putPid p, hrefs⟩
  by_cases hlive : p ∈ s.live
  · exact ⟨.freePid p, hlive⟩
  · rw [List.count_eq_zero_of_not_mem hlive] at hpos
    exact ⟨.callback (.delayedPutPid p), List.count_pos_iff.mp (by omega)⟩

/-- A namespace other than `init_pid_ns` waits for its callback, or there is somebody to hold it. -/
theorem World.Grown.exists_release_ns (h : s.Grown maxPidNsLevel) {n : NsAddr} {d : NsObject}
    (hd : s.K.ns n = some d) (hn : n ≠ initPidNs) : ∃ a, Releases s a := by
  by_cases hzero : d.kref = 0
  · refine ⟨.callback (.delayedFreePidns n), List.count_pos_iff.mp ?_⟩
    rw [h.counted.dead n, hd]
    simp [deadOf, hzero]
  · rcases (h.used_iff n).mp ⟨d, hd, Nat.pos_of_ne_zero hzero⟩ with
      hinit | ⟨m, -, hrefs | ⟨p, e, he, -⟩⟩
    · exact absurd hinit hn
    · exact ⟨.putPidNs m, hrefs⟩
    · refine h.exists_release_pid (p := p) ?_
      rw [he]
      exact h.counted.count_pos he

/-- As long as not everything is released, something can be. -/
theorem World.Grown.exists_release (h : s.Grown maxPidNsLevel) (hs : ¬ s.Drained) :
    ∃ a, Releases s a := by
  by_contra hnone
  refine hs ⟨fun n hn => ?_, fun p => ?_, ?_, fun n => ?_, ?_⟩
  · by_contra hd
    obtain ⟨d, hd⟩ := Option.ne_none_iff_exists'.mp hd
    exact hnone (h.exists_release_ns hd hn)
  · by_contra hd
    obtain ⟨d, hd⟩ := Option.ne_none_iff_exists'.mp hd
    refine hnone (h.exists_release_pid (p := p) ?_)
    rw [hd]
    exact h.counted.count_pos hd
  · exact List.eq_nil_iff_forall_not_mem.mpr fun g hg => hnone ⟨.callback g, hg⟩
  · by_contra hpos
    exact hnone ⟨.putPidNs n, Nat.pos_of_ne_zero hpos⟩
  · exact List.eq_nil_iff_forall_not_mem.mpr fun p hp => hnone ⟨.freePid p, hp⟩

theorem World.Drained.pending (h : s.Drained) (hroot : Rooted maxPidNsLevel s.K) :
    s.pending = 0 := by
  have hrefs : tally id s.nsRefs s.K.nsBrk = 0 := tally_eq_zero fun n _ => h.nsRefs n
  have hpids : tally countOf s.K.pid s.K.pidBrk = 0 := by
    refine tally_eq_zero fun p _ => ?_
    rw [h.pid p]
    rfl
  have hns : tally childWeight s.K.ns s.K.nsBrk = 0 := by
    refine tally_eq_zero fun n _ => ?_
    by_cases hn : n = initPidNs
    · subst hn
      cases hd : s.K.ns initPidNs with
      | none => rfl
      | some d =>
          have hparent : d.parent = none := congrArg Prod.snd (hroot.root hd)
          simp [childWeight, hparent]
    · rw [h.ns n hn]
      rfl
  simp only [World.pending, hrefs, hpids, hns, h.live, List.length_nil]

theorem World.Grown.drained_iff (h : s.Grown maxPidNsLevel) : s.Drained ↔ s.pending = 0 := by
  constructor
  · exact fun hs => hs.pending h.rooted
  · intro hzero
    by_contra hs
    obtain ⟨a, ha⟩ := h.exists_release hs
    obtain ⟨s', -, -, hpending⟩ := h.release ha
    omega

/-- Releases, one after another. -/
theorem run_releases {bs : List Act} (h : s.Grown maxPidNsLevel)
    (hbs : Meets (step maxPidNsLevel) Releases s bs) :
    ∃ s', run (step maxPidNsLevel) s bs = .ok s' ∧ s'.Grown maxPidNsLevel ∧
      s'.pending + bs.length = s.pending := by
  induction bs generalizing s with
  | nil => exact ⟨s, rfl, h, rfl⟩
  | cons a bs ih =>
      obtain ⟨s₁, hs₁, h₁, hpending₁⟩ := h.release hbs.1
      have hrest := hbs.2
      rw [hs₁] at hrest
      obtain ⟨s', hrun, h', hpending⟩ := ih h₁ hrest
      refine ⟨s', ?_, h', ?_⟩
      · simp only [run, hs₁, ok_bind, hrun]
      · rw [List.length_cons]
        omega

/-- From any state that a run reaches, references are dropped, pids are freed and callbacks
executed, in any order. After `pending` such steps, and not before, nothing is left but
`init_pid_ns`; until then, there is always another one to take. -/
theorem releases_drain {maxPidNsLevel : ℕ} {as bs : List Act} {s : World}
    (hrun : run (step maxPidNsLevel) World.init as = .ok s)
    (hbs : Meets (step maxPidNsLevel) Releases s bs) :
    ∃ s', run (step maxPidNsLevel) s bs = .ok s' ∧ s'.pending + bs.length = s.pending ∧
      (s'.Drained ↔ bs.length = s.pending) ∧ (¬ s'.Drained → ∃ a, Releases s' a) := by
  obtain ⟨s₀, hrun₀, h⟩ := run_grown maxPidNsLevel as
  obtain rfl := Except.ok.inj (hrun.symm.trans hrun₀)
  obtain ⟨s', hrun', h', hpending⟩ := run_releases h hbs
  refine ⟨s', hrun', hpending, ?_, h'.exists_release⟩
  rw [h'.drained_iff]
  omega

/-- A process of a nested namespace is freed while somebody holds its pid; seven steps release
everything. -/
theorem releases_drain_nested :
    ∃ s s', run (step 32) World.init [.createPidNamespace initPidNs true,
        .createPidNamespace 1 true, .allocPid 2 true, .getPid 0] = .ok s ∧
      run (step 32) s [.putPidNs 1, .freePid 0, .callback (.delayedPutPid 0), .putPidNs 2,
        .putPid 0, .callback (.delayedFreePidns 1), .callback (.delayedFreePidns 2)] = .ok s' ∧
      s'.Drained := by
  obtain ⟨s', hrun', -, hdrained, -⟩ := @releases_drain 32
    [.createPidNamespace initPidNs true, .createPidNamespace 1 true, .allocPid 2 true, .getPid 0]
    [.putPidNs 1, .freePid 0, .callback (.delayedPutPid 0), .putPidNs 2, .putPid 0,
      .callback (.delayedFreePidns 1), .callback (.delayedFreePidns 2)] _ rfl (by decide)
  exact ⟨_, s', rfl, hrun', hdrained.mpr (by decide)⟩

end KernelPid.Lifetime
