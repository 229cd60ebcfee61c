import KernelPid.Lib.Tally
import KernelPid.Lifetime.Basic

/-!
# Every reference is counted

A namespace is referred to by the callers, by the pids that are in it and by its used children; a
pid by the callers, once more while it is not freed, and once by the callback of its `free_pid`.
`Counted` says that the counts are the numbers of these references, and that each namespace without
any has its callback waiting. A reference that is about to be dropped is on its way among those of
the callers, so that `putPidNs` and `putPid` start with one more of them than they end with. None of
the functions faults in a counted state, and all of them leave one behind.
-/

namespace KernelPid.Lifetime

open Runs Tally

/-! ## References -/

/-- The references of a pid to `n`. -/
def pidWeight (n : NsAddr) : Option PidObject → ℕ
  | some d => if d.ns = n then 1 else 0
  | none => 0

/-- The references of a namespace to `n`, as its parent: it drops them with its own last one. -/
def nsWeight (n : NsAddr) : Option NsObject → ℕ
  | some d => if 0 < d.kref ∧ d.parent = some n then 1 else 0
  | none => 0

def krefOf : Option NsObject → ℕ
  | some d => d.kref
  | none => 0

def countOf : Option PidObject → ℕ
  | some d => d.count
  | none => 0

/-- The callbacks that wait to free a namespace. -/
def deadOf : Option NsObject → ℕ
  | some d => if d.kref = 0 then 1 else 0
  | none => 0

/-- Addresses are in range, parents were made before their children, and a pid has references. -/
structure Shape (K : Objects) : Prop where
  root : K.IsUsed initPidNs
  ns_lt : ∀ {n d}, K.ns n = some d → n < K.nsBrk
  pid_lt : ∀ {p d}, K.pid p = some d → p < K.pidBrk
  parent : ∀ {n d}, K.ns n = some d → n ≠ initPidNs → ∃ q, d.parent = some q ∧ q < n
  count_pos : ∀ {p d}, K.pid p = some d → 0 < d.count

/-- The counts are the numbers of references: `nsRefs` and `pidRefs` are those of the callers, and
`live` are the pids that were not freed. -/
structure Counted (K : Objects) (nsRefs pidRefs : ℕ → ℕ) (live : List PidAddr) : Prop
    extends Shape K where
  kref : ∀ {n}, n ≠ initPidNs → krefOf (K.ns n) =
    nsRefs n + tally (pidWeight n) K.pid K.pidBrk + tally (nsWeight n) K.ns K.nsBrk
  count : ∀ p, countOf (K.pid p) = pidRefs p + live.count p + K.rcu.count (.delayedPutPid p)
  dead : ∀ n, K.rcu.count (.delayedFreePidns n) = deadOf (K.ns n)

@[simp] theorem addRef_self (refs : ℕ → ℕ) (n : ℕ) : addRef refs n n = refs n + 1 :=
  Function.update_self _ _ _

theorem addRef_of_ne {m n : ℕ} (h : m ≠ n) (refs : ℕ → ℕ) : addRef refs n m = refs m :=
  Function.update_of_ne h _ _

/-- A reference that is held can be put aside. -/
theorem addRef_dropRef {refs : ℕ → ℕ} {n : ℕ} (h : 0 < refs n) :
    addRef (dropRef refs n) n = refs := by
  unfold addRef dropRef
  rw [Function.update_self, Function.update_idem, Nat.sub_add_cancel h, Function.update_eq_self]

variable {K K' : Objects} {nsRefs pidRefs : ℕ → ℕ} {live : List PidAddr} {n m : NsAddr}
  {p : PidAddr}

/-! ## The shape after a write -/

/-- The shape looks at the objects and the ends of their memory. -/
theorem Shape.of_eq (h : Shape K) (hns : K'.ns = K.ns) (hnsBrk : K'.nsBrk = K.nsBrk)
    (hpid : K'.pid = K.pid) (hpidBrk : K'.pidBrk = K.pidBrk) : Shape K' := by
  constructor
  · unfold Objects.IsUsed
    rw [hns]
    exact h.root
  · rw [hns, hnsBrk]
    exact h.ns_lt
  · rw [hpid, hpidBrk]
    exact h.pid_lt
  · rw [hns]
    exact h.parent
  · rw [hpid]
    exact h.count_pos

/-- A write to another namespace leaves `init_pid_ns` in use. -/
theorem Shape.root_update (h : Shape K) (hn : n ≠ initPidNs) (b : Option NsObject) :
    ∃ d ∈ Function.update K.ns n b initPidNs, 0 < d.kref := by
  obtain ⟨d, hd, hpos⟩ := h.root
  exact ⟨d, (Function.update_of_ne (Ne.symm hn) _ _).trans hd, hpos⟩

theorem Shape.setNs (h : Shape K) (hn : n ≠ initPidNs) {d : NsObject} (hd : K.ns n = some d)
    {b : Option NsObject} (hb : ∀ e, b = some e → e.parent = d.parent) : Shape (K.setNs n b) := by
  refine ⟨h.root_update hn b, fun {m e} he => ?_, h.pid_lt, fun {m e} he hm => ?_, h.count_pos⟩
  · rcases update_eq_some he with ⟨rfl, -⟩ | ⟨-, he⟩
    · exact h.ns_lt hd
    · exact h.ns_lt he
  · rcases update_eq_some he with ⟨rfl, heq⟩ | ⟨-, he⟩
    · rw [hb e heq]
      exact h.parent hd hm
    · exact h.parent he hm

theorem Shape.nsBrk_ne_init (h : Shape K) : K.nsBrk ≠ initPidNs := by
  obtain ⟨d, hd, -⟩ := h.root
  exact Nat.ne_of_gt (h.ns_lt hd)

theorem Shape.newNs (h : Shape K) (hn : n < K.nsBrk) {d : NsObject} (hd : d.parent = some n) :
    Shape (K.newNs d) := by
  refine ⟨h.root_update h.nsBrk_ne_init _, fun {m e} he => ?_, h.pid_lt, fun {m e} he hm => ?_,
    h.count_pos⟩
  · rcases update_eq_some he with ⟨rfl, -⟩ | ⟨-, he⟩
    · exact Nat.lt_succ_self _
    · exact Nat.lt_succ_of_lt (h.ns_lt he)
  · rcases update_eq_some he with ⟨rfl, heq⟩ | ⟨-, he⟩
    · obtain rfl := Option.some.inj heq
      exact ⟨n, hd, hn⟩
    · exact h.parent he hm

theorem Shape.setPid (h : Shape K) {d : PidObject} (hd : K.pid p = some d) {b : Option PidObject}
    (hb : ∀ e, b = some e → 0 < e.count) : Shape (K.setPid p b) := by
  refine ⟨h.root, h.ns_lt, fun {q e} he => ?_, h.parent, fun {q e} he => ?_⟩
  · rcases update_eq_some he with ⟨rfl, -⟩ | ⟨-, he⟩
    · exact h.pid_lt hd
    · exact h.pid_lt he
  · rcases update_eq_some he with ⟨-, heq⟩ | ⟨-, he⟩
    · exact hb e heq
    · exact h.count_pos he

theorem Shape.newPid (h : Shape K) {d : PidObject} (hd : 0 < d.count) : Shape (K.newPid d) := by
  refine ⟨h.root, h.ns_lt, fun {q e} he => ?_, h.parent, fun {q e} he => ?_⟩
  · rcases update_eq_some he with ⟨rfl, -⟩ | ⟨-, he⟩
    · exact Nat.lt_succ_self _
    · exact Nat.lt_succ_of_lt (h.pid_lt he)
  · rcases update_eq_some he with ⟨-, heq⟩ | ⟨-, he⟩
    · obtain rfl := Option.some.inj heq
      exact hd
    · exact h.count_pos he

/-- There is nothing yet where the next namespace will be. -/
theorem Shape.ns_nsBrk (h : Shape K) : K.ns K.nsBrk = none := by
  rw [Option.eq_none_iff_forall_ne_some]
  exact fun d hd => absurd (h.ns_lt hd) (Nat.lt_irrefl _)

/-- There is nothing yet where the next pid will be. -/
theorem Shape.pid_pidBrk (h : Shape K) : K.pid K.pidBrk = none := by
  rw [Option.eq_none_iff_forall_ne_some]
  exact fun d hd => absurd (h.pid_lt hd) (Nat.lt_irrefl _)

/-! ## Taking a reference to a namespace -/

theorem derefNs_eq {d : NsObject} (hd : K.ns n = some d) : K.derefNs n = .ok d := by
  rw [Objects.derefNs, hd]

theorem derefPid_eq {d : PidObject} (hd : K.pid p = some d) : K.derefPid p = .ok d := by
  rw [Objects.derefPid, hd]

/-- Nobody counts the references to `init_pid_ns`. -/
theorem Counted.congr_nsRefs (h : Counted K nsRefs pidRefs live) {nsRefs' : ℕ → ℕ}
    (heq : ∀ m, m ≠ initPidNs → nsRefs' m = nsRefs m) : Counted K nsRefs' pidRefs live :=
  { h with kref := fun hm => by rw [heq _ hm]; exact h.kref hm }

/-- The context and what was executed in it do not count. -/
theorem Counted.congr (h : Counted K nsRefs pidRefs live) (context : Context)
    (syncs : List Context) : Counted { K with context, syncs } nsRefs pidRefs live :=
  ⟨h.toShape.of_eq rfl rfl rfl rfl, h.kref, h.count, h.dead⟩

/-- A namespace that is referred to is there. -/
theorem Counted.exists_ns (h : Counted K nsRefs pidRefs live) (hn : n ≠ initPidNs)
    (hpos : 0 < nsRefs n + tally (pidWeight n) K.pid K.pidBrk + tally (nsWeight n) K.ns K.nsBrk) :
    ∃ d, K.ns n = some d ∧ 0 < d.kref := by
  rw [← h.kref hn] at hpos
  cases hd : K.ns n with
  | none => simp [krefOf, hd] at hpos
  | some d =>
      rw [hd] at hpos
      exact ⟨d, rfl, hpos⟩

/-- A namespace is written. The references that the callers hold, those of the namespace to its
parent and the callbacks that wait for it have to change along. -/
theorem Counted.setNs (h : Counted K nsRefs pidRefs live) (hn : n ≠ initPidNs) {d : NsObject}
    (hd : K.ns n = some d) {b : Option NsObject} (hb : ∀ e, b = some e → e.parent = d.parent)
    {nsRefs' : ℕ → ℕ} {rcu : List RcuHead}
    (hrefs : ∀ m, nsRefs' m + nsWeight m b + (if m = n then d.kref else 0) =
      nsRefs m + nsWeight m (some d) + (if m = n then krefOf b else 0))
    (hput : ∀ p, rcu.count (.delayedPutPid p) = K.rcu.count (.delayedPutPid p))
    (hfree : ∀ m, rcu.count (.delayedFreePidns m) + (if m = n then deadOf (some d) else 0) =
      K.rcu.count (.delayedFreePidns m) + (if m = n then deadOf b else 0)) :
    Counted { K.setNs n b with rcu } nsRefs' pidRefs live := by
  refine ⟨(h.toShape.setNs hn hd hb).of_eq rfl rfl rfl rfl, fun {m} hm => ?_, fun p => ?_,
    fun m => ?_⟩
  · have hold := h.kref hm
    have htally := tally_update (w := nsWeight m) (f := K.ns) (h.ns_lt hd) b
    have hm' := hrefs m
    rw [hd] at htally
    show krefOf (Function.update K.ns n b m) = nsRefs' m + tally (pidWeight m) K.pid K.pidBrk +
      tally (nsWeight m) (Function.update K.ns n b) K.nsBrk
    by_cases hmn : m = n
    · subst hmn
      rw [hd] at hold
      rw [Function.update_self]
      simp only [krefOf, if_true] at hold hm' ⊢
      omega
    · rw [Function.update_of_ne hmn, hold]
      simp only [if_neg hmn] at hm'
      omega
  · show countOf (K.pid p) = pidRefs p + live.count p + rcu.count _
    rw [hput]
    exact h.count p
  · have hold := h.dead m
    have hm' := hfree m
    show rcu.count _ = deadOf (Function.update K.ns n b m)
    by_cases hmn : m = n
    · subst hmn
      rw [hd] at hold
      rw [Function.update_self]
      simp only [if_true] at hm'
      omega
    · rw [Function.update_of_ne hmn, ← hold]
      simpa only [if_neg hmn, Nat.add_zero] using hm'

/-- One more reference to a namespace that is used. -/
theorem Counted.getPidNs (h : Counted K nsRefs pidRefs live) (hn : K.IsUsed n) :
    ∃ K', K.getPidNs n = .ok K' ∧ Counted K' (addRef nsRefs n) pidRefs live ∧
      K'.nsBrk = K.nsBrk ∧ K'.context = K.context ∧ K'.syncs = K.syncs := by
  by_cases hinit : n = initPidNs
  · refine ⟨K, if_pos hinit, h.congr_nsRefs fun m hm => ?_, rfl, rfl, rfl⟩
    exact addRef_of_ne (hinit ▸ hm) nsRefs
  · obtain ⟨d, hd, hpos⟩ := hn
    refine ⟨K.setNs n (some { d with kref := d.kref + 1 }), ?_, ?_, rfl, rfl, rfl⟩
    · simp only [Objects.getPidNs, if_neg hinit, derefNs_eq hd, ok_bind]
    · refine h.setNs hinit hd (fun e he => ?_) (fun m => ?_) (fun _ => rfl) fun m => ?_
      · rw [← Option.some.inj he]
      · by_cases hm : m = n
        · subst hm
          simp only [addRef_self, nsWeight, krefOf, if_true, hpos, Nat.succ_pos]
          omega
        · simp only [addRef_of_ne hm, nsWeight, if_neg hm, hpos, Nat.succ_pos]
      · simp only [deadOf, if_neg (Nat.ne_of_gt hpos), if_neg (Nat.succ_ne_zero _)]

/-! ## Dropping a reference to a namespace -/

/-- Some `synchronize_rcu` was executed in a callback. -/
def Objects.Blocked (K : Objects) : Prop := Context.rcuCallback ∈ K.syncs

/-- The last reference to `n`, other than `init_pid_ns`. -/
def Objects.LastRef (K : Objects) (n : NsAddr) : Prop := n ≠ initPidNs ∧ ∃ d ∈ K.ns n, d.kref = 1

/-- From `K` to `K'`, the context stays, and there is a `synchronize_rcu` in a callback if and only
if the context is one and `c` holds. -/
structure Blocks (K K' : Objects) (c : Prop) : Prop where
  context : K'.context = K.context
  iff : K'.Blocked ↔ K.Blocked ∨ (K.context = .rcuCallback ∧ c)

theorem blocks_of_eq {c : Prop} (hcontext : K'.context = K.context) (hsyncs : K'.syncs = K.syncs)
    (hc : ¬ c) : Blocks K K' c := by
  refine ⟨hcontext, ?_⟩
  unfold Objects.Blocked
  rw [hsyncs]
  simp [hc]

/-- The last reference to a namespace goes: its callback waits, and that of the namespace to its
parent is on its way now. -/
theorem Counted.lastRef {q : NsAddr} {level : ℕ} (h : Counted K (addRef nsRefs n) pidRefs live)
    (hn : n ≠ initPidNs) (hd : K.ns n = some ⟨1, level, some q⟩) (hlt : q < n) :
    Counted { K.setNs n (some ⟨0, level, some q⟩) with rcu := .delayedFreePidns n :: K.rcu }
      (addRef nsRefs q) pidRefs live := by
  have hne : n ≠ q := Nat.ne_of_gt hlt
  refine h.setNs hn hd (fun e he => ?_) (fun m => ?_) (fun p => ?_) fun m => ?_
  · rw [← Option.some.inj he]
  · -- its own reference to the parent comes out of the tally
    by_cases hm : m = n
    · subst hm
      simp [nsWeight, krefOf, addRef_of_ne hne, Ne.symm hne]
    · by_cases hmq : m = q
      · subst hmq
        simp [nsWeight, addRef_of_ne hm, hm]
      · simp [nsWeight, addRef_of_ne hm, addRef_of_ne hmq, hm, Ne.symm hmq]
  · exact List.count_cons_of_ne (by simp)
  · by_cases hm : m = n
    · subst hm
      show List.count _ (RcuHead.delayedFreePidns m :: K.rcu) + _ = _
      simp [deadOf]
    · show List.count _ (RcuHead.delayedFreePidns n :: K.rcu) + _ = _
      rw [List.count_cons_of_ne (by simpa using Ne.symm hm), if_neg hm, if_neg hm]

/-- A reference to a namespace goes, and others are left. -/
theorem Counted.earlierRef {q : NsAddr} {level k : ℕ} (h : Counted K (addRef nsRefs n) pidRefs live)
    (hn : n ≠ initPidNs) (hd : K.ns n = some ⟨k + 2, level, some q⟩) :
    Counted (K.setNs n (some ⟨k + 1, level, some q⟩)) nsRefs pidRefs live := by
  refine h.setNs hn hd (fun e he => ?_) (fun m => ?_) (fun _ => rfl) fun m => ?_
  · rw [← Option.some.inj he]
  · by_cases hm : m = n
    · subst hm
      simp only [nsWeight, krefOf, addRef_self, if_true, Nat.succ_pos]
      omega
    · simp [nsWeight, addRef_of_ne hm, hm]
  · simp [deadOf]

/-- `kref_put`, of a reference on its way: another one is left, or the one of the namespace to its
parent is on its way now. -/
theorem Counted.krefPut (h : Counted K (addRef nsRefs n) pidRefs live) (hn : n ≠ initPidNs) :
    ∃ d q, K.ns n = some d ∧ d.parent = some q ∧ q < n ∧
      ((d.kref = 1 ∧ ∃ K', K.krefPut n = .ok (K', true) ∧
        Counted K' (addRef nsRefs q) pidRefs live ∧
          K'.context = K.context ∧ K'.syncs = K.context :: K.syncs) ∨
        (d.kref ≠ 1 ∧ ∃ K', K.krefPut n = .ok (K', false) ∧ Counted K' nsRefs pidRefs live ∧
          K'.context = K.context ∧ K'.syncs = K.syncs)) := by
  obtain ⟨d, hd, hpos⟩ := h.exists_ns hn (by simp only [addRef_self]; omega)
  obtain ⟨q, hq, hlt⟩ := h.parent hd hn
  have hderef := derefNs_eq hd
  refine ⟨d, q, hd, hq, hlt, ?_⟩
  obtain ⟨kref, level, parent⟩ := d
  obtain rfl : parent = some q := hq
  match kref with
  | 0 => simp at hpos
  | 1 =>
      refine Or.inl ⟨rfl, (K.setNs n (some ⟨0, level, some q⟩)).freePidNs n, ?_, ?_, rfl, rfl⟩
      · simp only [Objects.krefPut, hderef, ok_bind]
      · exact (h.lastRef hn hd hlt).congr K.context (K.context :: K.syncs)
  | k + 2 =>
      refine Or.inr ⟨by simp, K.setNs n (some ⟨k + 1, level, some q⟩), ?_,
        h.earlierRef hn hd, rfl, rfl⟩
      simp only [Objects.krefPut, hderef, ok_bind]

/-- The loop of `put_pid_ns`, of a reference on its way. Parents lie at lower addresses, so the loop
ends. -/
theorem Counted.putPidNsLoop (h : Counted K (addRef nsRefs n) pidRefs live) {fuel : ℕ}
    (hfuel : n < fuel) :
    ∃ K', Objects.putPidNsLoop fuel (some n) K = .ok K' ∧ Counted K' nsRefs pidRefs live ∧
      Blocks K K' (K.LastRef n) := by
  induction fuel generalizing K n with
  | zero => exact absurd hfuel (Nat.not_lt_zero n)
  | succ fuel ih =>
      by_cases hinit : n = initPidNs
      · refine ⟨K, ?_, h.congr_nsRefs fun m hm => ?_,
          blocks_of_eq rfl rfl fun hlast => hlast.1 hinit⟩
        · simp only [Objects.putPidNsLoop, if_pos hinit]
        · exact (addRef_of_ne (hinit ▸ hm) nsRefs).symm
      · obtain ⟨d, q, hd, hq, hlt, hput⟩ := h.krefPut hinit
        have hderef := derefNs_eq hd
        rcases hput with ⟨hone, K₁, hrun, h₁, hcontext, hsyncs⟩ | ⟨hmore, K₁, hrun, h₁,
          hcontext, hsyncs⟩
        · obtain ⟨K', hrest, h', hblocks⟩ := ih h₁ (lt_of_lt_of_le hlt (Nat.le_of_lt_succ hfuel))
          refine ⟨K', ?_, h', hblocks.context.trans hcontext, ?_⟩
          · simp only [Objects.putPidNsLoop, if_neg hinit, hderef, ok_bind, hrun,
              if_true, hq, hrest]
          · have hlast : K.LastRef n := ⟨hinit, d, hd, hone⟩
            rw [hblocks.iff, hcontext]
            simp only [Objects.Blocked, hsyncs, List.mem_cons, hlast, and_true]
            tauto
        · refine ⟨K₁, ?_, h₁, blocks_of_eq hcontext hsyncs fun hlast => ?_⟩
          · simp only [Objects.putPidNsLoop, if_neg hinit, hderef, ok_bind, hrun]
            rfl
          · obtain ⟨-, e, he, hone⟩ := hlast
            obtain rfl := Option.some.inj (hd.symm.trans he)
            exact hmore hone

/-- `put_pid_ns` drops a reference on its way. -/
theorem Counted.putPidNs (h : Counted K (addRef nsRefs n) pidRefs live) :
    ∃ K', K.putPidNs n = .ok K' ∧ Counted K' nsRefs pidRefs live ∧ Blocks K K' (K.LastRef n) := by
  refine h.putPidNsLoop ?_
  by_cases hinit : n = initPidNs
  · rw [hinit]
    exact Nat.succ_pos _
  · obtain ⟨d, hd, -⟩ := h.exists_ns hinit (by rw [addRef_self]; omega)
    exact Nat.lt_succ_of_lt (h.ns_lt hd)

/-! ## Making and freeing a namespace -/

/-- A new namespace takes over a reference to its parent that is on its way. -/
theorem Counted.newNs (h : Counted K (addRef nsRefs n) pidRefs live) (hn : n < K.nsBrk)
    (level : ℕ) :
    Counted (K.newNs { kref := 1, level, parent := some n }) (addRef nsRefs K.nsBrk)
      pidRefs live := by
  have hnone := h.ns_nsBrk
  set d : NsObject := { kref := 1, level, parent := some n } with hdef
  refine ⟨h.toShape.newNs hn rfl, fun {m} hm => ?_, h.count, fun m => ?_⟩
  · have hold := h.kref hm
    show krefOf (Function.update K.ns K.nsBrk (some d) m) = _ + tally (pidWeight m) K.pid K.pidBrk +
      tally (nsWeight m) (Function.update K.ns K.nsBrk (some d)) (K.nsBrk + 1)
    rw [tally_snoc]
    by_cases hmb : m = K.nsBrk
    · -- nobody referred to the address before
      subst hmb
      have hkref : krefOf (some d) = 1 := rfl
      have hweight : nsWeight K.nsBrk (some d) = 0 := by
        simp [nsWeight, hdef, Nat.ne_of_lt hn]
      rw [hnone, addRef_of_ne (Nat.ne_of_gt hn)] at hold
      rw [Function.update_self, addRef_self, hkref, hweight]
      simp only [krefOf] at hold
      omega
    · rw [Function.update_of_ne hmb, hold, addRef_of_ne hmb]
      by_cases hmn : m = n
      · subst hmn
        rw [addRef_self, hdef]
        simp only [nsWeight, Nat.one_pos, true_and, if_true]
        omega
      · rw [addRef_of_ne hmn, hdef]
        simp only [nsWeight, Option.some.injEq, Ne.symm hmn, and_false, if_false, Nat.add_zero]
  · have hold := h.dead m
    show K.rcu.count _ = deadOf (Function.update K.ns K.nsBrk (some d) m)
    by_cases hmb : m = K.nsBrk
    · rw [hold, hmb, hnone, Function.update_self]
      rfl
    · rw [hold, Function.update_of_ne hmb]

/-- Nobody refers to a namespace whose callback waits. -/
theorem Counted.exists_dead (h : Counted K nsRefs pidRefs live)
    (hmem : RcuHead.delayedFreePidns n ∈ K.rcu) : ∃ d, K.ns n = some d ∧ d.kref = 0 := by
  have hcount := List.count_pos_iff.mpr hmem
  rw [h.dead n] at hcount
  cases hd : K.ns n with
  | none => simp [deadOf, hd] at hcount
  | some d =>
      refine ⟨d, rfl, ?_⟩
      by_contra hne
      rw [hd] at hcount
      simp only [deadOf, if_neg hne] at hcount
      exact absurd hcount (Nat.lt_irrefl 0)

/-- The callback of a namespace frees it. -/
theorem Counted.delayedFreePidns (h : Counted K nsRefs pidRefs live)
    (hmem : RcuHead.delayedFreePidns n ∈ K.rcu) (context : Context) :
    Counted (Objects.delayedFreePidns
      { K with rcu := K.rcu.erase (.delayedFreePidns n), context } n) nsRefs pidRefs live := by
  -- a dead namespace has no count, so nothing changes in the tallies when it goes
  obtain ⟨d, hd, hzero⟩ := h.exists_dead hmem
  have hn : n ≠ initPidNs := by
    rintro rfl
    obtain ⟨e, he, hpos⟩ := h.root
    obtain rfl := Option.some.inj (hd.symm.trans he)
    exact absurd hzero (Nat.ne_of_gt hpos)
  suffices hfreed : Counted { K.setNs n none with rcu := K.rcu.erase (.delayedFreePidns n) }
      nsRefs pidRefs live from hfreed.congr context K.syncs
  refine h.setNs hn hd (fun e he => by simp at he) (fun m => ?_) (fun p => ?_) fun m => ?_
  · simp only [nsWeight, krefOf, hzero, Nat.lt_irrefl, false_and, if_false]
  · have herase := count_erase_add hmem (.delayedPutPid p)
    simpa only [reduceCtorEq, if_false, Nat.add_zero] using herase
  · have herase := count_erase_add hmem (.delayedFreePidns m)
    simpa only [RcuHead.delayedFreePidns.injEq, deadOf, hzero, if_true, ite_self,
      Nat.add_zero] using herase

/-! ## Pids -/

/-- The last reference to the pid `p`, which is the last one to its namespace. -/
def Objects.LastPut (K : Objects) (p : PidAddr) : Prop :=
  ∃ d ∈ K.pid p, d.count = 1 ∧ K.LastRef d.ns

/-- A pid is written. The references that the callers hold to it and to its namespace have to change
along. -/
theorem Counted.setPid (h : Counted K nsRefs pidRefs live) {d : PidObject} (hd : K.pid p = some d)
    {b : Option PidObject} (hb : ∀ e, b = some e → 0 < e.count) {nsRefs' pidRefs' : ℕ → ℕ}
    (hns : ∀ m, nsRefs' m + pidWeight m b = nsRefs m + pidWeight m (some d))
    (hpid : ∀ q, pidRefs' q + (if q = p then d.count else 0) =
      pidRefs q + (if q = p then countOf b else 0)) :
    Counted (K.setPid p b) nsRefs' pidRefs' live := by
  refine ⟨h.toShape.setPid hd hb, fun {m} hm => ?_, fun q => ?_, h.dead⟩
  · have hold := h.kref hm
    have htally := tally_update (w := pidWeight m) (f := K.pid) (h.pid_lt hd) b
    have hm' := hns m
    rw [hd] at htally
    show krefOf (K.ns m) = nsRefs' m + tally (pidWeight m) (Function.update K.pid p b) K.pidBrk +
      tally (nsWeight m) K.ns K.nsBrk
    omega
  · have hold := h.count q
    have hq' := hpid q
    show countOf (Function.update K.pid p b q) = _ + live.count q + K.rcu.count _
    by_cases hq : q = p
    · rw [hq, hd] at hold
      rw [hq, Function.update_self]
      rw [hq] at hq'
      simp only [if_true, countOf] at hold hq' ⊢
      omega
    · rw [Function.update_of_ne hq, hold]
      simp only [if_neg hq, Nat.add_zero] at hq'
      omega

/-- One more reference to a pid. -/
theorem Counted.getPid (h : Counted K nsRefs pidRefs live) {d : PidObject} (hd : K.pid p = some d) :
    ∃ K', K.getPid p = .ok K' ∧ Counted K' nsRefs (addRef pidRefs p) live ∧
      K'.context = K.context ∧ K'.syncs = K.syncs := by
  refine ⟨K.setPid p (some { d with count := d.count + 1 }), ?_, ?_, rfl, rfl⟩
  · simp only [Objects.getPid, derefPid_eq hd, ok_bind]
  · refine h.setPid hd (fun e he => ?_) (fun m => rfl) fun q => ?_
    · obtain rfl := Option.some.inj he
      exact Nat.succ_pos _
    · by_cases hq : q = p
      · subst hq
        simp only [addRef_self, if_true, countOf]
        omega
      · simp only [addRef_of_ne hq, if_neg hq]

/-- The last reference to a pid goes: that of the pid to its namespace is on its way now. -/
theorem Counted.lastPut (h : Counted K nsRefs (addRef pidRefs p) live)
    (hd : K.pid p = some ⟨1, n⟩) : Counted (K.setPid p none) (addRef nsRefs n) pidRefs live := by
  refine h.setPid hd (fun e he => by simp at he) (fun m => ?_) fun q => ?_
  · by_cases hm : m = n
    · subst hm
      simp [pidWeight]
    · simp [pidWeight, addRef_of_ne hm, Ne.symm hm]
  · by_cases hq : q = p
    · subst hq
      simp [countOf]
    · simp [addRef_of_ne hq, hq]

/-- A reference to a pid goes, and others are left. -/
theorem Counted.earlierPut {k : ℕ} (h : Counted K nsRefs (addRef pidRefs p) live)
    (hd : K.pid p = some ⟨k + 2, n⟩) :
    Counted (K.setPid p (some ⟨k + 1, n⟩)) nsRefs pidRefs live := by
  refine h.setPid hd (fun e he => ?_) (fun m => rfl) fun q => ?_
  · obtain rfl := Option.some.inj he
    exact Nat.succ_pos _
  · by_cases hq : q = p
    · subst hq
      simp only [addRef_self, if_true, countOf]
      omega
    · simp only [addRef_of_ne hq, if_neg hq]

/-- `put_pid`, of a reference on its way. -/
theorem Counted.putPid (h : Counted K nsRefs (addRef pidRefs p) live) :
    ∃ K', K.putPid p = .ok K' ∧ Counted K' nsRefs pidRefs live ∧ Blocks K K' (K.LastPut p) := by
  have hcount := h.count p
  rw [addRef_self] at hcount
  cases hd : K.pid p with
  | none =>
      rw [hd] at hcount
      simp only [countOf] at hcount
      omega
  | some d =>
      have hderef := derefPid_eq hd
      have hpos := h.count_pos hd
      obtain ⟨count, n⟩ := d
      match count with
      | 0 => exact absurd hpos (Nat.lt_irrefl 0)
      | 1 =>
          obtain ⟨K', hrun, h', hblocks⟩ := (h.lastPut hd).putPidNs
          refine ⟨K', ?_, h', hblocks.context, ?_⟩
          · simp only [Objects.putPid, hderef, ok_bind, hrun]
          · have hlast : K.LastPut p ↔ K.LastRef n := by
              constructor
              · rintro ⟨e, he, -, hlast⟩
                obtain rfl := Option.some.inj (hd.symm.trans he)
                exact hlast
              · exact fun hlast => ⟨_, hd, rfl, hlast⟩
            rw [hlast]
            exact hblocks.iff
      | k + 2 =>
          refine ⟨K.setPid p (some ⟨k + 1, n⟩), ?_, h.earlierPut hd, blocks_of_eq rfl rfl ?_⟩
          · simp only [Objects.putPid, hderef, ok_bind]
          · rintro ⟨e, he, hone, -⟩
            obtain rfl := Option.some.inj (hd.symm.trans he)
            simp at hone

/-- A new pid takes over a reference to its namespace that is on its way. -/
theorem Counted.newPid (h : Counted K (addRef nsRefs n) pidRefs live) :
    Counted (K.newPid { count := 1, ns := n }) nsRefs pidRefs (K.pidBrk :: live) := by
  have hnone := h.pid_pidBrk
  set d : PidObject := { count := 1, ns := n } with hdef
  refine ⟨h.toShape.newPid Nat.one_pos, fun {m} hm => ?_, fun q => ?_, h.dead⟩
  · have hold := h.kref hm
    show krefOf (K.ns m) = nsRefs m + tally (pidWeight m) (Function.update K.pid K.pidBrk (some d))
      (K.pidBrk + 1) + tally (nsWeight m) K.ns K.nsBrk
    rw [tally_snoc, hold, hdef]
    by_cases hmn : m = n
    · subst hmn
      simp only [addRef_self, pidWeight, if_true]
      omega
    · simp only [addRef_of_ne hmn, pidWeight, if_neg (Ne.symm hmn), Nat.add_zero]
  · have hold := h.count q
    show countOf (Function.update K.pid K.pidBrk (some d) q) =
      pidRefs q + (K.pidBrk :: live).count q +
      K.rcu.count _
    by_cases hq : q = K.pidBrk
    · subst hq
      have hone : countOf (some d) = 1 := rfl
      rw [hnone] at hold
      rw [Function.update_self, List.count_cons_self, hone]
      simp only [countOf] at hold
      omega
    · rw [Function.update_of_ne hq, List.count_cons_of_ne (Ne.symm hq)]
      exact hold

/-- `free_pid` hands its reference to the callback. -/
theorem Counted.freePid (h : Counted K nsRefs pidRefs live) (hp : p ∈ live) :
    Counted (K.freePid p) nsRefs pidRefs (live.erase p) := by
  refine ⟨h.toShape.of_eq rfl rfl rfl rfl, h.kref, fun q => ?_, fun m => ?_⟩
  · have hold := h.count q
    have herase := count_erase_add hp q
    show countOf (K.pid q) = _ + _ + List.count _ (RcuHead.delayedPutPid p :: K.rcu)
    by_cases hq : q = p
    · subst hq
      rw [if_pos rfl] at herase
      rw [List.count_cons_self]
      omega
    · rw [if_neg hq, Nat.add_zero] at herase
      rw [herase, List.count_cons_of_ne (by simpa using Ne.symm hq)]
      exact hold
  · show List.count _ (RcuHead.delayedPutPid p :: K.rcu) = _
    rw [List.count_cons_of_ne (by simp)]
    exact h.dead m

/-- The reference of a callback is on its way when the callback starts. -/
theorem Counted.startPutPid (h : Counted K nsRefs pidRefs live)
    (hmem : RcuHead.delayedPutPid p ∈ K.rcu) (context : Context) :
    Counted { K with rcu := K.rcu.erase (.delayedPutPid p), context } nsRefs
      (addRef pidRefs p) live := by
  refine ⟨h.toShape.of_eq rfl rfl rfl rfl, h.kref, fun q => ?_, fun m => ?_⟩
  · have hold := h.count q
    have herase := count_erase_add hmem (.delayedPutPid q)
    show countOf (K.pid q) = _ + _ + (K.rcu.erase _).count _
    by_cases hq : q = p
    · subst hq
      rw [if_pos rfl] at herase
      rw [addRef_self]
      omega
    · rw [if_neg (by simpa using hq), Nat.add_zero] at herase
      rw [addRef_of_ne hq, herase]
      exact hold
  · have herase := count_erase_add hmem (.delayedFreePidns m)
    simp only [reduceCtorEq, if_false, Nat.add_zero] at herase
    show (K.rcu.erase _).count _ = _
    rw [herase]
    exact h.dead m

end KernelPid.Lifetime
