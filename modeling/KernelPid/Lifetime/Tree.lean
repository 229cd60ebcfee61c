import KernelPid.Lifetime.Places
import KernelPid.Pid.Levels

/-!
# The used namespaces are a tree

`alloc_pid` walks from a namespace up to `init_pid_ns`, one parent after another, and tests none of
them. It may: a namespace that somebody holds has a parent that is in memory and used, one level
above it, and there are at most `MAX_PID_NS_LEVEL` levels below the root (`used_is_tree`). So the
used namespaces are a `PidNsTree`, as the model of `alloc_pid` takes for granted.

What is used is decided by the references of the callers and by the pids alone (`in_memory_iff`):
whoever holds a namespace holds the ones above it too, and nothing else does.
-/

namespace KernelPid.Lifetime

open Runs Tally Ancestors

variable {K K' : Objects} {nsRefs pidRefs : ℕ → ℕ} {live : List PidAddr} {n m : NsAddr}
  {maxPidNsLevel : ℕ}

/-! ## Levels -/

/-- What is in memory is below `init_pid_ns`, each namespace one level below its parent. -/
structure Rooted (maxPidNsLevel : ℕ) (K : Objects) : Prop where
  root : ∀ {d}, K.ns initPidNs = some d → d.place = (0, none)
  level_le : ∀ {n d}, K.ns n = some d → d.level ≤ maxPidNsLevel
  level : ∀ {n d q e}, K.ns n = some d → d.parent = some q → K.ns q = some e → d.level = e.level + 1

/-- Parents lie at lower addresses. -/
theorem Rooted.parent_lt (h : Rooted maxPidNsLevel K) (hshape : Shape K) {d : NsObject}
    (hd : K.ns n = some d) (hm : d.parent = some m) : m < n := by
  by_cases hinit : n = initPidNs
  · subst hinit
    rw [show d.parent = none from congrArg Prod.snd (h.root hd)] at hm
    simp at hm
  · obtain ⟨q, hq, hlt⟩ := hshape.parent hd hinit
    rw [hm] at hq
    exact Option.some.inj hq ▸ hlt

theorem Rooted.grows (h : Rooted maxPidNsLevel K) (hshape : Shape K)
    (hgrows : Grows maxPidNsLevel K K') : Rooted maxPidNsLevel K' := by
  have hroot : initPidNs < K.nsBrk := Nat.pos_of_ne_zero hshape.nsBrk_ne_init
  constructor
  · intro d' hd'
    obtain ⟨d, hd, heq⟩ := hgrows.ns hroot hd'
    exact heq.trans (h.root hd)
  · intro n d' hd'
    rcases Nat.lt_or_ge n K.nsBrk with hn | hn
    · obtain ⟨d, hd, heq⟩ := hgrows.ns hn hd'
      rw [show d'.level = d.level from congrArg Prod.fst heq]
      exact h.level_le hd
    · obtain ⟨q, e, -, -, hplace, hle⟩ := hgrows.new hn hd'
      rw [show d'.level = e.level + 1 from congrArg Prod.fst hplace]
      exact hle
  · intro n d' q e' hd' hq he'
    rcases Nat.lt_or_ge n K.nsBrk with hn | hn
    · obtain ⟨d, hd, heq⟩ := hgrows.ns hn hd'
      rw [show d'.parent = d.parent from congrArg Prod.snd heq] at hq
      obtain ⟨e, he, heq'⟩ := hgrows.ns ((h.parent_lt hshape hd hq).trans hn) he'
      rw [show d'.level = d.level from congrArg Prod.fst heq,
        show e'.level = e.level from congrArg Prod.fst heq']
      exact h.level hd hq he
    · obtain ⟨m, e, hm, he, hplace, -⟩ := hgrows.new hn hd'
      rw [show d'.parent = some m from congrArg Prod.snd hplace] at hq
      obtain rfl := Option.some.inj hq
      obtain ⟨f, hf, heq'⟩ := hgrows.ns hm he'
      rw [he] at hf
      obtain rfl := Option.some.inj hf
      rw [show d'.level = e.level + 1 from congrArg Prod.fst hplace,
        show e'.level = e.level from congrArg Prod.fst heq']

/-- The invariant of every run: the counts are right, and the namespaces in their places. -/
structure World.Grown (maxPidNsLevel : ℕ) (s : World) : Prop extends s.Sound where
  rooted : Rooted maxPidNsLevel s.K

theorem grown_init (maxPidNsLevel : ℕ) : World.init.Grown maxPidNsLevel := by
  have hroot : ∀ {n d}, World.init.K.ns n = some d → n = initPidNs ∧ d.place = (0, none) := by
    intro n d hd
    by_cases hn : n = initPidNs
    · subst hn
      obtain rfl := Option.some.inj hd
      exact ⟨rfl, rfl⟩
    · have hnone : World.init.K.ns n = none := by simp [World.init, hn]
      rw [hnone] at hd
      simp at hd
  refine ⟨sound_init, fun hd => (hroot hd).2, fun hd => ?_, fun hd hq => ?_⟩
  · rw [show NsObject.level _ = 0 from congrArg Prod.fst (hroot hd).2]
    exact Nat.zero_le _
  · rw [show NsObject.parent _ = none from congrArg Prod.snd (hroot hd).2] at hq
    simp at hq

theorem World.Grown.step {s : World} (h : s.Grown maxPidNsLevel) (a : Act) :
    ∃ s', Lifetime.step maxPidNsLevel s a = .ok s' ∧ s'.Grown maxPidNsLevel := by
  obtain ⟨s', hrun, hsound, -⟩ := h.toSound.step a
  exact ⟨s', hrun, hsound, h.rooted.grows h.counted.toShape (step_grows h.toSound hrun)⟩

theorem run_grown (maxPidNsLevel : ℕ) (as : List Act) :
    ∃ s, run (step maxPidNsLevel) World.init as = .ok s ∧ s.Grown maxPidNsLevel :=
  run_invariant_always (fun _ a h => h.step a) (grown_init maxPidNsLevel) as

/-! ## The tree -/

/-- `ns->parent`, of a namespace that is in memory. -/
def Objects.parent (K : Objects) (n : NsAddr) : Option NsAddr := (K.ns n).bind NsObject.parent

/-- `ns->level`, of a namespace that is in memory. -/
def Objects.level (K : Objects) (n : NsAddr) : ℕ := (K.ns n).elim 0 NsObject.level

/-- The parent of a used namespace, if it is used itself. -/
def Objects.usedParent (K : Objects) (n : {n // K.IsUsed n}) : Option {n // K.IsUsed n} :=
  (K.parent n).bind fun q => if h : K.IsUsed q then some ⟨q, h⟩ else none

/-- What is referred to is used. -/
theorem Counted.used_of_refs (h : Counted K nsRefs pidRefs live)
    (hpos : 0 < nsRefs n + tally (pidWeight n) K.pid K.pidBrk + tally (nsWeight n) K.ns K.nsBrk) :
    K.IsUsed n := by
  by_cases hinit : n = initPidNs
  · exact hinit ▸ h.root
  · exact h.exists_ns hinit hpos

/-- A used namespace holds its parent. -/
theorem Counted.used_parent (h : Counted K nsRefs pidRefs live) (hn : K.IsUsed n)
    (hq : K.parent n = some m) : K.IsUsed m := by
  obtain ⟨d, hd, hpos⟩ := hn
  rw [Objects.parent, Option.mem_def.mp hd] at hq
  have hweight : nsWeight m (K.ns n) = 1 := by
    rw [Option.mem_def.mp hd]
    exact if_pos ⟨hpos, hq⟩
  have hle := le_tally (w := nsWeight m) (f := K.ns) (h.ns_lt hd)
  exact h.used_of_refs (by omega)

theorem Counted.usedParent_val (h : Counted K nsRefs pidRefs live) (n : {n // K.IsUsed n}) :
    (K.usedParent n).map Subtype.val = K.parent n := by
  unfold Objects.usedParent
  cases hq : K.parent n with
  | none => rfl
  | some q =>
      rw [Option.bind_some, dif_pos (h.used_parent n.2 hq)]
      rfl

/-- The used namespaces of a state that a run reaches. -/
def World.Grown.usedTree {s : World} (h : s.Grown maxPidNsLevel) :
    PidNsTree {n // s.K.IsUsed n} where
  level n := s.K.level n
  parent := s.K.usedParent
  level_parent := by
    rintro ⟨n, d, hd, hpos⟩ ⟨q, e, he, hpos'⟩ hq
    have hval := h.counted.usedParent_val ⟨n, d, hd, hpos⟩
    rw [hq, Option.map_some, Objects.parent, Option.mem_def.mp hd] at hval
    simp only [Objects.level, Option.mem_def.mp hd, Option.mem_def.mp he, Option.elim_some]
    exact h.rooted.level hd hval.symm he
  exists_parent := by
    rintro ⟨n, d, hd, hused⟩ hpos
    have hn : n ≠ initPidNs := by
      rintro rfl
      simp only [Objects.level, Option.mem_def.mp hd, Option.elim_some] at hpos
      rw [show d.level = 0 from congrArg Prod.fst (h.rooted.root hd)] at hpos
      exact absurd hpos (Nat.lt_irrefl _)
    obtain ⟨q, hq, -⟩ := h.counted.parent hd hn
    have hparent : s.K.parent n = some q := by
      rw [Objects.parent, Option.mem_def.mp hd, Option.bind_some, hq]
    refine ⟨⟨q, h.counted.used_parent ⟨d, hd, hused⟩ hparent⟩, ?_⟩
    rw [Objects.usedParent, hparent, Option.bind_some, dif_pos]

/-- Parents lie at lower addresses, so every walk up ends at `init_pid_ns`. -/
theorem World.Grown.isAncestor_init {s : World} (h : s.Grown maxPidNsLevel)
    (n : {n // s.K.IsUsed n}) : h.usedTree.IsAncestor n ⟨initPidNs, h.counted.root⟩ := by
  obtain ⟨n, hn⟩ := n
  induction n using Nat.strong_induction_on with
  | _ n ih =>
      by_cases hinit : n = initPidNs
      · subst hinit
        exact .refl _
      · obtain ⟨d, hd, hpos⟩ := hn
        obtain ⟨q, hq, hlt⟩ := h.counted.parent hd hinit
        have hparent : s.K.parent n = some q := by
          rw [Objects.parent, Option.mem_def.mp hd, Option.bind_some, hq]
        have hused := h.counted.used_parent ⟨d, hd, hpos⟩ hparent
        have hstep : h.usedTree.parent ⟨n, d, hd, hpos⟩ = some ⟨q, hused⟩ := by
          show s.K.usedParent _ = _
          rw [Objects.usedParent, hparent, Option.bind_some, dif_pos hused]
        exact Relation.ReflTransGen.head hstep (ih q hlt hused)

/-- In every state that a run reaches, the used namespaces are a tree with the levels and parents
that `create_pid_namespace` gave them: it has at most `MAX_PID_NS_LEVEL` levels below `init_pid_ns`,
where every walk up its parents ends. -/
theorem used_is_tree (maxPidNsLevel : ℕ) (as : List Act) :
    ∃ s, run (step maxPidNsLevel) World.init as = .ok s ∧
      ∃ T : PidNsTree {n // s.K.IsUsed n},
        (∀ n d, s.K.ns n.val = some d →
          T.level n = d.level ∧ (T.parent n).map Subtype.val = d.parent ∧ d.level ≤ maxPidNsLevel) ∧
        ∃ root, root.val = initPidNs ∧ ∀ n, T.IsAncestor n root := by
  obtain ⟨s, hrun, h⟩ := run_grown maxPidNsLevel as
  refine ⟨s, hrun, h.usedTree, fun n d hd => ⟨?_, ?_, h.rooted.level_le hd⟩, _, rfl,
    h.isAncestor_init⟩
  · show s.K.level n.val = d.level
    rw [Objects.level, hd, Option.elim_some]
  · refine (h.counted.usedParent_val n).trans ?_
    rw [Objects.parent, hd, Option.bind_some]

/-! ## What is in memory -/

/-- Somebody other than a child refers to the namespace: a caller, or a pid in memory. -/
def World.Holds (s : World) (n : NsAddr) : Prop :=
  0 < s.nsRefs n ∨ ∃ p d, s.K.pid p = some d ∧ d.ns = n

theorem World.Holds.used {s : World} (hs : s.Sound) (h : s.Holds n) : s.K.IsUsed n := by
  apply hs.counted.used_of_refs
  rcases h with hpos | ⟨p, d, hd, rfl⟩
  · omega
  · have hle := le_tally (w := pidWeight d.ns) (f := s.K.pid) (hs.counted.pid_lt hd)
    have hweight : pidWeight d.ns (s.K.pid p) = 1 := by
      rw [hd]
      exact if_pos rfl
    omega

/-- A used namespace is held, or has a used child. -/
theorem World.Sound.holds_or_child {s : World} (hs : s.Sound) (hn : s.K.IsUsed n)
    (hinit : n ≠ initPidNs) :
    s.Holds n ∨ ∃ i, i < s.K.nsBrk ∧ s.K.IsUsed i ∧ s.K.parent i = some n := by
  obtain ⟨d, hd, hpos⟩ := hn
  have hkref := hs.counted.kref hinit
  rw [Option.mem_def.mp hd] at hkref
  by_cases hrefs : 0 < s.nsRefs n
  · exact Or.inl (Or.inl hrefs)
  by_cases hpids : 0 < tally (pidWeight n) s.K.pid s.K.pidBrk
  · obtain ⟨p, -, hweight⟩ := exists_of_tally_pos hpids
    cases hp : s.K.pid p with
    | none => simp [hp, pidWeight] at hweight
    | some e =>
        rw [hp] at hweight
        refine Or.inl (Or.inr ⟨p, e, hp, ?_⟩)
        by_contra hne
        simp [pidWeight, hne] at hweight
  · have hchildren : 0 < tally (nsWeight n) s.K.ns s.K.nsBrk := by
      have hcount : 0 < krefOf (some d) := hpos
      omega
    obtain ⟨i, hi, hweight⟩ := exists_of_tally_pos hchildren
    cases hchild : s.K.ns i with
    | none => simp [hchild, nsWeight] at hweight
    | some e =>
        rw [hchild] at hweight
        have hboth : 0 < e.kref ∧ e.parent = some n := by
          by_contra hne
          simp [nsWeight, hne] at hweight
        refine Or.inr ⟨i, hi, ⟨e, hchild, hboth.1⟩, ?_⟩
        rw [Objects.parent, hchild, Option.bind_some, hboth.2]

theorem World.Grown.parent_lt {s : World} (h : s.Grown maxPidNsLevel)
    (hparent : s.K.parent n = some m) : m < n := by
  obtain ⟨d, hd, hm⟩ := Option.bind_eq_some_iff.mp hparent
  exact h.rooted.parent_lt h.counted.toShape hd hm

/-- Whoever holds a namespace holds those above it, and nothing else is used. -/
theorem World.Grown.used_iff {s : World} (h : s.Grown maxPidNsLevel) (n : NsAddr) :
    s.K.IsUsed n ↔ n = initPidNs ∨ ∃ m, IsAncestor s.K.parent m n ∧ s.Holds m := by
  constructor
  · -- down the used children, which lie at higher addresses
    intro hn
    by_cases hinit : n = initPidNs
    · exact Or.inl hinit
    · refine Or.inr ?_
      induction hk : s.K.nsBrk - n using Nat.strong_induction_on generalizing n with
      | _ k ih =>
          rcases h.toSound.holds_or_child hn hinit with hheld | ⟨i, hi, hused, hparent⟩
          · exact ⟨n, .refl n, hheld⟩
          · have hlt := h.parent_lt hparent
            have hlater : s.K.nsBrk - i < k := hk ▸ Nat.sub_lt_sub_left (hlt.trans hi) hlt
            obtain ⟨m, hanc, hheld⟩ :=
              ih _ hlater i hused (Nat.ne_of_gt (Nat.zero_lt_of_lt hlt)) rfl
            exact ⟨m, hanc.step hparent, hheld⟩
  · rintro (rfl | ⟨m, hanc, hheld⟩)
    · exact h.counted.root
    · induction hanc with
      | refl => exact hheld.used h.toSound
      | tail _ hparent ih => exact h.counted.used_parent ih hparent

/-- Nothing leaks: in every state that a run reaches, a pid is in memory if and only if a caller has
a reference to it, it was not freed, or the callback of its `free_pid` waits; a namespace, if and
only if it is used or its own callback waits. It is used if and only if it is `init_pid_ns`, or a
caller or a pid in memory refers to it or to a namespace below it. -/
theorem in_memory_iff (maxPidNsLevel : ℕ) (as : List Act) :
    ∃ s, run (step maxPidNsLevel) World.init as = .ok s ∧
      (∀ p, (s.K.pid p).isSome ↔
        0 < s.pidRefs p ∨ p ∈ s.live ∨ RcuHead.delayedPutPid p ∈ s.K.rcu) ∧
      (∀ n, (s.K.ns n).isSome ↔ s.K.IsUsed n ∨ RcuHead.delayedFreePidns n ∈ s.K.rcu) ∧
      ∀ n, s.K.IsUsed n ↔ n = initPidNs ∨ ∃ m, IsAncestor s.K.parent m n ∧ s.Holds m := by
  obtain ⟨s, hrun, h⟩ := run_grown maxPidNsLevel as
  refine ⟨s, hrun, fun p => ?_, fun n => ?_, h.used_iff⟩
  · have hcount := h.counted.count p
    have hpos : (s.K.pid p).isSome ↔ 0 < countOf (s.K.pid p) := by
      cases hd : s.K.pid p with
      | none => simp [countOf]
      | some d => simpa [countOf] using h.counted.count_pos hd
    rw [hpos, hcount, ← List.count_pos_iff, ← List.count_pos_iff]
    omega
  · have hdead := h.counted.dead n
    rw [← List.count_pos_iff, hdead, Objects.IsUsed]
    cases s.K.ns n with
    | none => simp [deadOf]
    | some d =>
        by_cases hzero : d.kref = 0
        · simp [deadOf, hzero]
        · simp [deadOf, hzero, Nat.pos_of_ne_zero hzero]

end KernelPid.Lifetime
